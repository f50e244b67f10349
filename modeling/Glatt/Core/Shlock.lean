import Glatt.Core.Spinlock

/-!
# Shared and exclusive locks

The functions of `core/core_shlock.c`, run by any number of CPUs, one atomic operation at a time.
The word `shl_xowner` is the exclusive lock. A CPU that takes a share has it for the moment in which
it counts itself, and a CPU that gives one back does without. There are fewer than `2 ^ 64` shares.

## Main definitions

* `ShlockPc`, `ShlockState`, `ShlockStep`: the CPUs, and one atomic operation

## Main results

* `shlock_exclusion`: the exclusive lock excludes every other
* `foldlM_sections`: the critical sections that a CPU enters and leaves on its way are those of
  `shlockXlock`
-/

namespace Glatt

open Imperative Transition List Option

/-- Where a CPU is: outside, at one of the operations of `shlock_slock` or of `shlock_xlock`, or
past a `shlock_xlock` that has returned. -/
inductive ShlockPc
  | out
  | sTry
  | sCount
  | sRelease
  | xTry
  | xCheck
  | xBack
  | xHeld
  deriving DecidableEq

/-- `struct shlock`, where the CPUs are, and the shares: each CPU is in the list as often as it has
counted itself and not yet taken that back. -/
structure ShlockState (κ : Type) where
  shlXowner : Option κ
  shlSharecnt : ℕ
  pc : κ → ShlockPc
  sharers : List κ

/-- The calls of a CPU, and the next operation in a call. -/
inductive ShlockEvent (κ : Type)
  | slock
  | sunlock (j : κ)
  | xlock
  | xunlock
  | turn
  deriving DecidableEq

variable {κ : Type} [DecidableEq κ] {s s' : ShlockState κ} {i j : κ} {pc : ShlockPc}

def ShlockState.goto (s : ShlockState κ) (i : κ) (pc : ShlockPc) : ShlockState κ :=
  { s with pc := Function.update s.pc i pc }

/-- `atomic_cmpset64(&shl->shl_xowner, CPU_ID_INVALID, mp_whoami())`, which is tried again when
another CPU is the owner, and is a panic when this one is. -/
def ShlockState.cmpset (s : ShlockState κ) (i : κ) (pc : ShlockPc) : Option (ShlockState κ) :=
  match s.shlXowner with
  | none => some ({ s with shlXowner := some i }.goto i pc)
  | some j => if j = i then none else some s

/-- What a CPU does. The exclusive lock is unlocked by the CPU that has it, and a share by any CPU,
as the thread that has it may have moved. -/
def shlockStep (i : κ) (s : ShlockState κ) : ShlockEvent κ → Option (ShlockState κ)
  | .slock => if s.pc i = .out then some (s.goto i .sTry) else none
  | .sunlock j =>
    if s.pc i = .out ∧ j ∈ s.sharers then
      some { s with shlSharecnt := s.shlSharecnt - 1, sharers := s.sharers.erase j }
    else none
  | .xlock => if s.pc i = .out then some (s.goto i .xTry) else none
  | .xunlock =>
    if s.pc i = .xHeld then some ({ s with shlXowner := none }.goto i .out) else none
  | .turn =>
    match s.pc i with
    | .sTry => s.cmpset i .sCount
    | .sCount =>
      some ({ s with shlSharecnt := s.shlSharecnt + 1, sharers := i :: s.sharers }.goto i .sRelease)
    | .sRelease => some ({ s with shlXowner := none }.goto i .out)
    | .xTry => s.cmpset i .xCheck
    | .xCheck => some (s.goto i (if s.shlSharecnt = 0 then .xHeld else .xBack))
    | .xBack => some ({ s with shlXowner := none }.goto i .xTry)
    | .out => none
    | .xHeld => none

def shlockInit : ShlockState κ := ⟨none, 0, fun _ => .out, []⟩

def ShlockStep (s : ShlockState κ) (e : κ × ShlockEvent κ) (s' : ShlockState κ) : Prop :=
  shlockStep e.1 s e.2 = some s'

def ShlockPc.Owns : ShlockPc → Prop
  | .out | .sTry | .xTry => False
  | .sCount | .sRelease | .xCheck | .xBack | .xHeld => True

/-- **The lock and the CPUs agree.** -/
structure ShlockInv (s : ShlockState κ) : Prop where
  owner : ∀ i, (s.pc i).Owns → s.shlXowner = some i
  count : s.shlSharecnt = s.sharers.length
  held : ∀ i, s.pc i = .xHeld → s.sharers = []

omit [DecidableEq κ] in
theorem ShlockInv.unique (h : ShlockInv s) (hi : (s.pc i).Owns) (hj : (s.pc j).Owns) : j = i :=
  some.inj ((h.owner j hj).symm.trans (h.owner i hi))

theorem ShlockInv.goto (h : ShlockInv s) {o : Option κ}
    (ho : ∀ j, j ≠ i → (s.pc j).Owns → o = some j) (hs : pc.Owns → o = some i)
    (hh : pc = .xHeld → s.sharers = []) : ShlockInv ({ s with shlXowner := o }.goto i pc) := by
  refine ⟨fun j hj => ?_, h.count, fun j hj => ?_⟩
  · by_cases hij : j = i
    · subst hij
      exact hs (by simpa [ShlockState.goto] using hj)
    · exact ho j hij (by simpa [ShlockState.goto, hij] using hj)
  · by_cases hij : j = i
    · subst hij
      exact hh (by simpa [ShlockState.goto] using hj)
    · exact h.held j (by simpa [ShlockState.goto, hij] using hj)

theorem ShlockInv.cmpset (h : ShlockInv s) (hpc : pc ≠ .xHeld)
    (hs : s.cmpset i pc = some s') : ShlockInv s' := by
  unfold ShlockState.cmpset at hs
  split at hs
  case h_1 hf =>
    obtain rfl := some.inj hs
    refine h.goto (fun j _ hj => ?_) (fun _ => rfl) fun hx => absurd hx hpc
    rw [h.owner j hj] at hf
    cases hf
  case h_2 =>
    split_ifs at hs
    exact some.inj hs ▸ h

theorem ShlockInv.give (h : ShlockInv s) (hi : (s.pc i).Owns) (hpc : ¬ pc.Owns) :
    ShlockInv ({ s with shlXowner := none }.goto i pc) := by
  refine h.goto (fun j hij hj => absurd (h.unique hi hj) hij) (fun ho => absurd ho hpc) ?_
  rintro rfl
  exact absurd trivial hpc

theorem ShlockInv.step (h : ShlockInv s) {e : κ × ShlockEvent κ} (hs : ShlockStep s e s') :
    ShlockInv s' := by
  obtain ⟨i, e⟩ := e
  have hkp : ∀ {pc}, (pc.Owns → (s.pc i).Owns) → (pc = .xHeld → s.sharers = []) →
      ShlockInv (s.goto i pc) :=
    fun hpc => h.goto (fun j _ => h.owner j) fun ho => h.owner i (hpc ho)
  cases e with
  | slock | xlock =>
    obtain ⟨-, rfl⟩ := ite_some_none_eq_some.mp hs
    exact hkp False.elim fun hx => by cases hx
  | sunlock j =>
    obtain ⟨hj, rfl⟩ := ite_some_none_eq_some.mp hs
    refine ⟨h.owner, ?_, fun k hk => ?_⟩
    · exact (congrArg (· - 1) h.count).trans (length_erase_of_mem hj.2).symm
    · exact (congrArg (·.erase j) (h.held k hk)).trans (erase_nil j)
  | xunlock =>
    obtain ⟨hi, rfl⟩ := ite_some_none_eq_some.mp hs
    exact h.give (by rw [hi]; trivial) id
  | turn =>
    simp only [ShlockStep, shlockStep] at hs
    split at hs
    case h_1 => exact h.cmpset (fun hx => by cases hx) hs
    case h_2 hpc =>
      obtain rfl := some.inj hs
      have hm : ShlockInv (s.goto i .sRelease) :=
        hkp (fun _ => by rw [hpc]; trivial) fun hx => by cases hx
      refine ⟨hm.owner, congrArg (· + 1) h.count, fun j hj => ?_⟩
      -- the CPU that counts itself is the owner, and the one with the lock would be as well
      have hji : j = i := hm.unique (by simp [ShlockState.goto, ShlockPc.Owns])
        (by rw [show (s.goto i .sRelease).pc j = .xHeld from hj]; trivial)
      simp [ShlockState.goto, hji] at hj
    case h_3 hpc => exact some.inj hs ▸ h.give (by rw [hpc]; trivial) id
    case h_4 => exact h.cmpset (fun hx => by cases hx) hs
    case h_5 hpc =>
      obtain rfl := some.inj hs
      refine hkp (fun _ => by rw [hpc]; trivial) fun hx => ?_
      split_ifs at hx with hz
      exact length_eq_zero_iff.mp (h.count.symm.trans hz)
    case h_6 hpc => exact some.inj hs ▸ h.give (by rw [hpc]; trivial) id
    case h_7 => cases hs
    case h_8 => cases hs

/-- **Exclusion**: while a CPU is between a `shlock_xlock` that has returned and its
`shlock_xunlock`, no other CPU is, and nobody has a share. -/
theorem shlock_exclusion {h : List (ShlockState κ × κ × ShlockEvent κ)}
    (hr : Run ShlockStep shlockInit h s) (hi : s.pc i = .xHeld) :
    (∀ j, s.pc j = .xHeld → j = i) ∧ ∀ j, j ∉ s.sharers := by
  have hin : ShlockInv (shlockInit : ShlockState κ) :=
    ⟨fun j hj => hj.elim, rfl, fun j hj => by cases hj⟩
  have hinv : ShlockInv s := hr.invariant hin fun _ _ _ _ _ hinv hs => hinv.step hs
  refine ⟨fun j hj => hinv.unique ?_ ?_, fun j => ?_⟩
  · rw [hi]
    trivial
  · rw [hj]
    trivial
  · rw [hinv.held i hi]
    exact not_mem_nil

/-- One CPU has a share while the other wants the lock, gives it back, and then wants the lock
itself. -/
def contendedCalls : List (Bool × ShlockEvent Bool) :=
  [(false, .slock), (false, .turn), (false, .turn), (false, .turn), (true, .xlock), (true, .turn),
    (true, .turn), (true, .turn), (false, .sunlock false), (true, .turn), (true, .turn),
    (false, .xlock), (false, .turn)]

/-- Both want the lock, and one has it. -/
theorem shlock_exclusion_contended : ∃ (h : List (ShlockState Bool × Bool × ShlockEvent Bool))
    (s : ShlockState Bool), Run ShlockStep shlockInit h s ∧ h.map Prod.snd = contendedCalls ∧
      s.pc true = .xHeld ∧ s.pc false = .xTry ∧
      (∀ j, s.pc j = .xHeld → j = true) ∧ ∀ j, j ∉ s.sharers := by
  have step : ∀ {h : List (ShlockState Bool × Bool × ShlockEvent Bool)} {s s'}
      (e : Bool × ShlockEvent Bool), Run ShlockStep shlockInit h s →
      shlockStep e.1 s e.2 = some s' → Run ShlockStep shlockInit (h ++ [(s, e)]) s' :=
    fun _ hr hs => hr.snoc hs
  have hshare := step (false, .turn) (step (false, .turn) (step (false, .turn)
    (step (false, .slock) .nil rfl) rfl) rfl) rfl
  have hback := step (true, .turn) (step (true, .turn) (step (true, .turn)
    (step (true, .xlock) hshare rfl) rfl) rfl) rfl
  have hheld := step (true, .turn) (step (true, .turn)
    (step (false, .sunlock false) hback rfl) rfl) rfl
  have hwait := step (false, .turn) (step (false, .xlock) hheld rfl) rfl
  exact ⟨_, _, hwait, rfl, rfl, rfl, shlock_exclusion hwait rfl⟩

/-! ## Critical sections -/

def ShlockState.refusal (s : ShlockState κ) (i : κ) : Option Refusal :=
  match s.pc i with
  | .xTry => if s.shlXowner = none then none else some .owned
  | .xBack => some .shared
  | _ => none

/-- The critical sections that an operation of the CPU `i` enters and leaves: after an attempt that
finds another owner, and at the start of the outer loop after one that has met sharers. -/
def ShlockState.sections (s : ShlockState κ) (i : κ) (e : κ × ShlockEvent κ) (c : Cpu) :
    Outcome Cpu :=
  if e = (i, .turn) then
    match s.refusal i with
    | some .owned => cpuCriticalExit c >>= cpuCriticalEnter
    | some .shared => cpuCriticalEnter c
    | none => pure c
  else pure c

def refusals (i : κ) (h : List (ShlockState κ × κ × ShlockEvent κ)) : List Refusal :=
  h.filterMap fun x => if x.2 = (i, .turn) then x.1.refusal i else none

theorem foldlM_sections (i : κ) (h : List (ShlockState κ × κ × ShlockEvent κ)) (c : Cpu) :
    h.foldlM (fun c x => x.1.sections i x.2 c) c = shlockXlockFrom (refusals i h) c := by
  induction h generalizing c with
  | nil => rfl
  | cons x h ih =>
    rw [foldlM_cons, refusals, filterMap_cons, ShlockState.sections]
    by_cases hx : x.2 = (i, .turn)
    · rw [if_pos hx, if_pos hx]
      cases x.1.refusal i with
      | none => exact ih c
      | some r =>
        cases r with
        | owned =>
          show (cpuCriticalExit c >>= cpuCriticalEnter) >>= _ = _
          rw [LawfulMonad.bind_assoc]
          exact bind_congr fun c => bind_congr fun c => ih c
        | shared => exact bind_congr fun c => ih c
    · rw [if_neg hx, if_neg hx]
      exact ih c

end Glatt
