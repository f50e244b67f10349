import Glatt.Core.Error
import Glatt.Lib.Transition

/-!
# Critical sections and spinlocks

`cpu_critical_enter` and `cpu_critical_exit` of `cpu/mips/cpu/cpu_critical.c`, after early startup,
and what an exclusive lock of a `struct shlock` does with them (`core/core_shlock.c`). A CPU counts
the critical sections that it is in. The first one disables interrupts and notes down whether they
were enabled, and the last one puts that back.

`spinlock_lock` and `spinlock_unlock` of `core/core_spinlock.c`, on a multiprocessor: a recursive
acquire leaves its critical section and counts in the lock, and an attempt that fails leaves it
before the next one. A CPU is in one critical section for each lock that it owns.

## Main definitions

* `Cpu`: interrupts and critical sections of a CPU
* `SpinState`, `SpinStep`: CPUs that use spinlocks

## Main results

* `shlock_balanced_iff`: an exclusive lock leaves the CPU as it was, unless it met sharers
* `spinlock_sections`: the critical sections of a CPU are its locks and those it has entered itself
-/

namespace Glatt

open Imperative Transition

/-- What critical sections use of a CPU: `CP0_STATUS_IE`, and the fields of `struct pcpu`. -/
structure Cpu where
  statusIe : Bool
  pcCriticalCount : ℕ
  pcCriticalSection : Bool
  deriving DecidableEq

def cpuInterruptDisable (c : Cpu) : Cpu × Bool := ({ c with statusIe := false }, c.statusIe)

def cpuInterruptRestore (r : Bool) (c : Cpu) : Outcome Cpu :=
  if r ∧ c.statusIe then .error .panic
  else if r then pure { c with statusIe := true }
  else pure c

/-- `cpu_critical_enter`; its assertion fails when the count, of 32 bits, wraps. -/
def cpuCriticalEnter (c : Cpu) : Outcome Cpu :=
  let (c, s) := cpuInterruptDisable c
  let c := if c.pcCriticalCount = 0 then { c with pcCriticalSection := s, pcCriticalCount := 1 }
    else { c with pcCriticalCount := c.pcCriticalCount + 1 }
  if c.pcCriticalCount < 2 ^ 32 then pure c else .error .panic

def cpuCriticalExit (c : Cpu) : Outcome Cpu :=
  if c.pcCriticalCount = 0 then .error .panic
  else if c.pcCriticalCount = 1 then
    cpuInterruptRestore c.pcCriticalSection
      { c with pcCriticalSection := false, pcCriticalCount := 0 }
  else pure { c with pcCriticalCount := c.pcCriticalCount - 1 }

/-- **A CPU in `n` critical sections**, outside of which interrupts are enabled or not. -/
def Cpu.within (ie : Bool) (n : ℕ) : Cpu := ⟨ie && n = 0, n, ie && n ≠ 0⟩

variable {ie : Bool} {n : ℕ}

theorem cpuCriticalEnter_within : cpuCriticalEnter (.within ie n) =
    if n + 1 < 2 ^ 32 then .ok (.within ie (n + 1)) else .error .panic := by
  cases n with
  | zero => cases ie <;> rfl
  | succ n => simp [Cpu.within]; rfl

theorem cpuCriticalExit_within : cpuCriticalExit (.within ie (n + 1)) = .ok (.within ie n) := by
  cases n with
  | zero => cases ie <;> rfl
  | succ n => simp [cpuCriticalExit]; rfl

/-! ## Exclusive locks -/

/-- Why an attempt of `shlock_xlock` fails: another CPU has the lock, or there are sharers. -/
inductive Refusal
  | owned
  | shared
  deriving DecidableEq

/-- The rest of `shlock_xlock`, in front of attempts that fail and one that does not. After an
attempt that fails because of sharers the outer loop starts again, which enters a critical
section. -/
def shlockXlockFrom : List Refusal → Cpu → Outcome Cpu
  | [], c => pure c
  | .owned :: attempts, c => do
    let c ← cpuCriticalExit c
    let c ← cpuCriticalEnter c
    shlockXlockFrom attempts c
  | .shared :: attempts, c => do
    let c ← cpuCriticalEnter c
    shlockXlockFrom attempts c

def shlockXlock (attempts : List Refusal) (c : Cpu) : Outcome Cpu := do
  let c ← cpuCriticalEnter c
  shlockXlockFrom attempts c

def shlockXunlock (c : Cpu) : Outcome Cpu := cpuCriticalExit c

theorem shlockXlockFrom_within (attempts : List Refusal) (n : ℕ) :
    Yields (shlockXlockFrom attempts (.within ie (n + 1))) fun c =>
      c = .within ie (n + 1 + attempts.count .shared) := by
  induction attempts generalizing n with
  | nil => exact .ret rfl
  | cons attempt attempts ih =>
    cases attempt with
    | owned =>
      rw [shlockXlockFrom, cpuCriticalExit_within, ok_bind, cpuCriticalEnter_within]
      split_ifs
      · exact ih n
      · exact yields_error
    | shared =>
      rw [shlockXlockFrom, cpuCriticalEnter_within]
      split_ifs
      · rw [List.count_cons_self,
          show n + 1 + (attempts.count .shared + 1) = n + 1 + 1 + attempts.count .shared by omega]
        exact ih (n + 1)
      · exact yields_error

/-- **An exclusive lock that is taken and released** leaves the CPU as it was exactly if none of its
attempts met sharers. -/
theorem shlock_balanced_iff (attempts : List Refusal) (ie : Bool) (n : ℕ) :
    Yields (shlockXlock attempts (.within ie n) >>= shlockXunlock) fun c =>
      c = .within ie n ↔ .shared ∉ attempts := by
  have hc : Yields (shlockXlock attempts (.within ie n)) fun c =>
      c = .within ie (n + 1 + attempts.count .shared) := by
    rw [shlockXlock, cpuCriticalEnter_within]
    split_ifs
    · exact shlockXlockFrom_within attempts n
    · exact yields_error
  refine hc.bind ?_
  rintro _ rfl
  rw [shlockXunlock, Nat.add_right_comm, cpuCriticalExit_within]
  refine .ret ⟨fun h => ?_, fun h => by rw [List.count_eq_zero.mpr h, Nat.add_zero]⟩
  have hcn : n + attempts.count .shared = n := congrArg Cpu.pcCriticalCount h
  exact List.count_eq_zero.mp (by omega)

/-- **One attempt that meets a sharer**: interrupts stay disabled after the lock is released. -/
theorem shlock_leaves_section :
    (shlockXlock [.shared] (.within true 0) >>= shlockXunlock) = .ok (.within true 1) ∧
      (Cpu.within true 0).statusIe = true ∧ (Cpu.within true 1).statusIe = false := by
  decide

/-! ## Spinlocks -/

/-- `struct spinlock`, with `SPINLOCK_FLAG_RECURSE` of its flags. -/
structure Spinlock (κ : Type) where
  sOwner : Option κ
  sNest : UInt64
  recurse : Bool

/-- A CPU, the locks, and how often it has called `critical_enter` and not `critical_exit`. -/
structure SpinState (κ ι : Type) where
  cpu : Cpu
  lock : ι → Spinlock κ
  entered : ℕ

/-- The calls of a CPU, and what others do. -/
inductive SpinCall (ι : Type)
  | lock (l : ι)
  | unlock (l : ι)
  | enter
  | exit
  | others

variable {κ ι : Type} [DecidableEq ι]

def SpinState.put (s : SpinState κ ι) (l : ι) (p : Spinlock κ × Cpu) : SpinState κ ι :=
  { s with cpu := p.2, lock := Function.update s.lock l p.1 }

theorem owner_put {s : SpinState κ ι} {l k : ι} {p : Spinlock κ × Cpu} :
    ((s.put l p).lock k).sOwner = if k = l then p.1.sOwner else (s.lock k).sOwner :=
  (congrArg Spinlock.sOwner (Function.update_apply ..)).trans (apply_ite ..)

/-! ## The calls -/

variable [DecidableEq κ]

/-- The loop of `spinlock_lock`, with the states in which its attempts find the lock. No other CPU
makes this one the owner, so the owner that is loaded after an attempt is this CPU only if it was
before. -/
def spinlockLockFrom (self : κ) : List (Spinlock κ) → Cpu → Outcome (Spinlock κ × Cpu)
  | [], _ => .error .spin
  | lock :: later, c =>
    if lock.sOwner = none then pure ({ lock with sOwner := some self }, c)
    else if lock.sOwner = some self then
      if lock.recurse then do
        let c ← cpuCriticalExit c
        pure ({ lock with sNest := lock.sNest + 1 }, c)
      else .error .panic
    else do
      let c ← cpuCriticalExit c
      let c ← cpuCriticalEnter c
      spinlockLockFrom self later c

def spinlockLock (self : κ) (lock : Spinlock κ) (later : List (Spinlock κ)) (c : Cpu) :
    Outcome (Spinlock κ × Cpu) := do
  let c ← cpuCriticalEnter c
  spinlockLockFrom self (lock :: later) c

/-- `spinlock_unlock`: the last release of a lock leaves its critical section. -/
def spinlockUnlock (self : κ) (lock : Spinlock κ) (c : Cpu) : Outcome (Spinlock κ × Cpu) :=
  if lock.sOwner = some self then
    if lock.sNest ≠ 0 then pure ({ lock with sNest := lock.sNest - 1 }, c)
    else do
      let c ← cpuCriticalExit c
      pure ({ lock with sOwner := none }, c)
  else .error .panic

/-- **A call that returns.** Other CPUs change any locks but those that this one owns, between calls
and while it spins. -/
inductive SpinStep (self : κ) : SpinState κ ι → SpinCall ι → SpinState κ ι → Prop
  | lock {s l p} (later : List (Spinlock κ)) : (∀ v ∈ later, v.sOwner ≠ some self) →
      spinlockLock self (s.lock l) later s.cpu = .ok p → SpinStep self s (.lock l) (s.put l p)
  | unlock {s l p} : spinlockUnlock self (s.lock l) s.cpu = .ok p →
      SpinStep self s (.unlock l) (s.put l p)
  | enter {s cpu} : cpuCriticalEnter s.cpu = .ok cpu →
      SpinStep self s .enter { s with cpu, entered := s.entered + 1 }
  | exit {s cpu} : s.entered ≠ 0 → cpuCriticalExit s.cpu = .ok cpu →
      SpinStep self s .exit { s with cpu, entered := s.entered - 1 }
  | others {s} (lock : ι → Spinlock κ) :
      (∀ l, lock l = s.lock l ∨ (s.lock l).sOwner ≠ some self ∧ (lock l).sOwner ≠ some self) →
      SpinStep self s .others { s with lock }

variable {self : κ} {s s' : SpinState κ ι} {S : Finset ι}

theorem spinlockLockFrom_within {views : List (Spinlock κ)}
    (h : ∀ v ∈ views, v.sOwner ≠ some self) :
    Yields (spinlockLockFrom self views (.within ie (n + 1))) fun p =>
      p.1.sOwner = some self ∧ p.2 = .within ie (n + 1) := by
  induction views with
  | nil => exact yields_error
  | cons lock later ih =>
    rw [List.forall_mem_cons] at h
    rw [spinlockLockFrom, if_neg h.1, cpuCriticalExit_within, ok_bind, cpuCriticalEnter_within]
    split_ifs
    · exact .ret ⟨rfl, rfl⟩
    · exact ih h.2
    · exact yields_error

theorem spinlockLock_within {lock : Spinlock κ} {later : List (Spinlock κ)}
    (h : ∀ v ∈ later, v.sOwner ≠ some self) :
    Yields (spinlockLock self lock later (.within ie n)) fun p => p.1.sOwner = some self ∧
      p.2 = .within ie (if lock.sOwner = some self then n else n + 1) := by
  rw [spinlockLock, cpuCriticalEnter_within]
  split
  · split
    · rename_i ho
      rw [ok_bind, spinlockLockFrom, if_neg (by rw [ho]; nofun), if_pos ho]
      split
      · rw [cpuCriticalExit_within]
        exact .ret ⟨ho, rfl⟩
      · exact yields_error
    · exact spinlockLockFrom_within (List.forall_mem_cons.mpr ⟨‹_›, h⟩)
  · exact yields_error

/-- **One critical section for each lock** that the CPU owns, and those it has entered itself. -/
structure SpinInv (i : κ) (ie : Bool) (s : SpinState κ ι) (S : Finset ι) : Prop where
  mem_iff : ∀ l, l ∈ S ↔ (s.lock l).sOwner = some i
  cpu : s.cpu = .within ie (S.card + s.entered)

theorem SpinInv.step {e : SpinCall ι} (h : SpinInv self ie s S) (hs : SpinStep self s e s') :
    ∃ S', SpinInv self ie s' S' := by
  cases hs with
  | @lock l p later hl hc =>
    rw [h.cpu] at hc
    obtain ⟨hp, hcpu⟩ := spinlockLock_within hl _ hc
    -- a lock that is taken again is in the set already
    refine ⟨insert l S, fun k => ?_, hcpu.trans ?_⟩
    · rw [Finset.mem_insert, h.mem_iff, owner_put]
      split <;> simp [*]
    · simp only [Finset.card_insert_eq_ite, h.mem_iff]
      split
      · rfl
      · rw [Nat.add_right_comm]
        rfl
  | @unlock l p hc =>
    rw [spinlockUnlock] at hc
    split_ifs at hc with hown
    · cases hc
      refine ⟨S, fun k => ?_, h.cpu⟩
      rw [h.mem_iff, owner_put]
      split <;> simp [*]
    · have hcr := Finset.card_erase_add_one ((h.mem_iff l).mpr hown)
      rw [h.cpu, ← hcr, Nat.add_right_comm, cpuCriticalExit_within] at hc
      cases hc
      refine ⟨S.erase l, fun k => ?_, rfl⟩
      rw [Finset.mem_erase, h.mem_iff, owner_put]
      split <;> simp [*]
  | enter hc =>
    rw [h.cpu, cpuCriticalEnter_within] at hc
    split_ifs at hc
    cases hc
    exact ⟨S, h.mem_iff, rfl⟩
  | exit hne hc =>
    obtain ⟨k, hk⟩ := Nat.exists_eq_succ_of_ne_zero hne
    rw [h.cpu, hk, Nat.add_succ, cpuCriticalExit_within] at hc
    cases hc
    exact ⟨S, h.mem_iff, by simp [hk]⟩
  | others lock ho =>
    refine ⟨S, fun l => (h.mem_iff l).trans ?_, h.cpu⟩
    rcases ho l with heq | ⟨hold, hn⟩
    · rw [← heq]
    · exact iff_of_false hold hn

/-- **Spinlocks and critical sections.** A CPU starts in no critical section and owns no lock. After
any calls, whatever other CPUs do, it is in one critical section for each lock that it owns and each
that it has entered; interrupts are disabled in them, and as before outside. -/
theorem spinlock_sections {s₀ : SpinState κ ι} {h : List (SpinState κ ι × SpinCall ι)}
    (hrun : Run (SpinStep self) s₀ h s) (hcpu : s₀.cpu = .within ie 0) (hentered : s₀.entered = 0)
    (hfree : ∀ l, (s₀.lock l).sOwner ≠ some self) :
    ∃ S : Finset ι, (∀ l, l ∈ S ↔ (s.lock l).sOwner = some self) ∧
      s.cpu.pcCriticalCount = S.card + s.entered ∧
      (0 < s.cpu.pcCriticalCount → s.cpu.statusIe = false) ∧
      (s.cpu.pcCriticalCount = 0 → s.cpu.statusIe = ie) := by
  obtain ⟨S, hinv⟩ : ∃ S, SpinInv self ie s S := by
    refine hrun.invariant ?_ ?_
    · refine ⟨∅, fun l => iff_of_false (Finset.notMem_empty l) (hfree l), ?_⟩
      rw [hcpu, hentered]
      rfl
    · exact fun _ _ _ _ _ ⟨S, hinv⟩ hs => hinv.step hs
  refine ⟨S, hinv.mem_iff, ?_⟩
  rw [hinv.cpu]
  refine ⟨rfl, fun hpos => ?_, fun hz => ?_⟩
  · exact Bool.and_eq_false_imp.mpr fun _ => decide_eq_false (Nat.ne_of_gt hpos)
  · exact (congrArg (ie && ·) (decide_eq_true hz)).trans ie.and_true

/-- Two locks are taken, and the first one is released first. -/
theorem spinlock_sections_crossed :
    ∃ (h : List (SpinState Bool (Fin 2) × SpinCall (Fin 2))) (s : SpinState Bool (Fin 2)),
      Run (SpinStep true) ⟨.within true 0, fun _ => ⟨none, 0, false⟩, 0⟩ h s ∧
        s.cpu.pcCriticalCount = 1 ∧ s.cpu.statusIe = false := by
  have h₁ : Run (SpinStep true) ⟨.within true 0, fun _ : Fin 2 => ⟨none, 0, false⟩, 0⟩ _ _ :=
    Run.nil.snoc (.lock (l := 0) [] nofun rfl)
  have h₂ := h₁.snoc (.lock (l := 1) [] nofun rfl)
  have h₃ := h₂.snoc (.unlock (l := 0) rfl)
  obtain ⟨S, -, -, ho, -⟩ := spinlock_sections h₃ rfl rfl nofun
  exact ⟨_, _, h₃, rfl, ho Nat.one_pos⟩

end Glatt
