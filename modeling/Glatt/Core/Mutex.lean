import Glatt.Core.SleepQueue

/-!
# Mutexes

The functions of `core_mutex.c`, and a mutex that any number of threads lock and unlock. A thread
that finds the mutex owned tries some more times and then sleeps. Unlocking makes the first sleeping
thread runnable but does not pass the mutex on, so that another thread may be faster, and the woken
thread may have to sleep again.

## Main definitions

* `mutexLockSection`, `mutexUnlock`: the functions, under the lock of the mutex
* `MutexMachine`, `MutexStep`: threads that use one mutex

## Main results

* `mutex_sound`: the owner is the one thread that holds the mutex, and no wake-up is lost
* `mutex_unlock_signals`: the test of the counter in `mutex_unlock` skips no signal
-/

namespace Glatt

open Imperative Transition Function List

variable {κ θ : Type} [DecidableEq θ] {tries : UInt32}

/-! ## The functions -/

/-- `struct mutex`, where the queue is that of the threads that sleep in `mutex_lock`. The counter
does not wrap, since it counts threads and every thread has a stack (`MutexInv.mtxWaiters_le`). -/
structure Mutex (θ : Type) where
  mtxOwner : Option θ
  mtxWaiters : ℕ
  mtxSleepq : List θ
  deriving DecidableEq

def mutexInit : Mutex θ := ⟨none, 0, []⟩

/-- Where a thread is in its use of the mutex: not in it; before a turn of the loop of `mutex_lock`;
asleep in `sleepq_enter`; before `mtx_waiters` is decremented; before the next turn; or after
`mutex_lock` and before `mutex_unlock`. The number is the value of `tries`. -/
inductive MutexPc
  | outside
  | locking (tries : UInt32)
  | asleep (tries : UInt32)
  | dequeued (tries : UInt32)
  | retrying (tries : UInt32)
  | holding
  deriving DecidableEq

/-- One turn of the loop of `mutex_lock` under the lock of the mutex, until the thread has the
mutex, tries again, or has begun to sleep. -/
def mutexLockSection (td : θ) (tries : UInt32) (mtx : Mutex θ) (s : SchedulerState κ θ) :
    Outcome (Mutex θ × SchedulerState κ θ × MutexPc) :=
  match mtx.mtxOwner with
  | some owner =>
    if owner = td then .error .panic
    else if tries < 10 then pure (mtx, s, .locking (tries + 1))
    else do
      let (mtxSleepq, s) ← sleepqEnter td mtx.mtxSleepq s
      pure ({ mtx with mtxWaiters := mtx.mtxWaiters + 1, mtxSleepq }, s, .asleep (tries + 1))
  | none => pure ({ mtx with mtxOwner := some td }, s, .holding)

def mutexUnlock (mtx : Mutex θ) (s : SchedulerState κ θ) : Mutex θ × SchedulerState κ θ :=
  ({ mtx with mtxOwner := none },
    if mtx.mtxWaiters ≠ 0 then sleepqSignalOne mtx.mtxSleepq s else s)

/-! ## A mutex in operation -/

structure MutexMachine (κ θ : Type) where
  mtx : Mutex θ
  sched : SchedulerState κ θ
  pc : θ → MutexPc

/-- What a step does. -/
inductive MutexEvent (θ : Type)
  | lock (td : θ)
  | turn (td : θ)
  | resume (td : θ)
  | decrement (td : θ)
  | unlock (td : θ)
  | other
  deriving DecidableEq

def MutexMachine.to (s : MutexMachine κ θ) (td : θ) (pc : MutexPc) : MutexMachine κ θ :=
  { s with pc := update s.pc td pc }

/-- **One step**: a thread calls `mutex_lock`; takes a turn of its loop; goes on in `sleepq_enter`,
if it is runnable; decrements `mtx_waiters`; calls `mutex_unlock`; or a step elsewhere, which wakes
no thread of the queue and makes none of them sleep. -/
inductive MutexStep : MutexMachine κ θ → MutexEvent θ → MutexMachine κ θ → Prop
  | lock {s td} : s.pc td = .outside → MutexStep s (.lock td) (s.to td (.locking 0))
  | turn {s td tries mtx sched pc} : s.pc td = .locking tries ∨ s.pc td = .retrying tries →
      mutexLockSection td tries s.mtx s.sched = .ok (mtx, sched, pc) →
      MutexStep s (.turn td) ⟨mtx, sched, update s.pc td pc⟩
  | resume {s td tries mtxSleepq} : s.pc td = .asleep tries →
      (s.sched.entry td).runnable = true → sleepqLeave td s.mtx.mtxSleepq = .ok mtxSleepq →
      MutexStep s (.resume td)
        { s with mtx.mtxSleepq := mtxSleepq, pc := update s.pc td (.dequeued tries) }
  | decrement {s td tries} : s.pc td = .dequeued tries →
      MutexStep s (.decrement td) { s with
        mtx.mtxWaiters := s.mtx.mtxWaiters - 1, pc := update s.pc td (.retrying tries) }
  | unlock {s td} : s.pc td = .holding →
      MutexStep s (.unlock td) ⟨(mutexUnlock s.mtx s.sched).1, (mutexUnlock s.mtx s.sched).2,
        update s.pc td .outside⟩
  | other {s sched} :
      (∀ t ∈ s.mtx.mtxSleepq, (sched.entry t).runnable = (s.sched.entry t).runnable) →
      MutexStep s .other { s with sched }

/-! ## The invariant -/

def MutexPc.Asleep (pc : MutexPc) : Prop := ∃ tries, pc = .asleep tries

def MutexPc.Dequeued (pc : MutexPc) : Prop := ∃ tries, pc = .dequeued tries

def MutexPc.AboutToRetry (pc : MutexPc) : Prop :=
  ∃ tries, pc = .dequeued tries ∨ pc = .retrying tries

/-- **The invariant**: the owner holds the mutex; the queue is that of the sleeping threads; the
counter counts these and the ones that have unlinked themselves; and when the mutex is free and a
thread is queued, the first one is runnable or a thread is about to try again. -/
structure MutexInv (s : MutexMachine κ θ) : Prop where
  owner : ∀ t, s.mtx.mtxOwner = some t ↔ s.pc t = .holding
  nodup : s.mtx.mtxSleepq.Nodup
  queued : ∀ t, t ∈ s.mtx.mtxSleepq ↔ (s.pc t).Asleep
  waiters : ∃ l : List θ, l.Nodup ∧ (∀ t, t ∈ l ↔ (s.pc t).Dequeued) ∧
    s.mtx.mtxWaiters = s.mtx.mtxSleepq.length + l.length
  wakes : s.mtx.mtxOwner = none → ∀ td ∈ s.mtx.mtxSleepq.head?,
    (s.sched.entry td).runnable = true ∨ ∃ t, (s.pc t).AboutToRetry

section Steps

variable {s s' : MutexMachine κ θ} {e : MutexEvent θ} {td : θ} {pc : MutexPc}

theorem moved_iff {P : MutexPc → Prop} {place : θ → MutexPc} {t : θ} (hP : P pc ↔ P (place td)) :
    P (update place td pc t) ↔ P (place t) := by
  by_cases ht : t = td
  · rw [ht, update_self, hP]
  · rw [update_of_ne ht]

section

variable (h : MutexInv s)
include h

theorem MutexInv.move (hold : pc = .holding ↔ s.pc td = .holding)
    (ha : pc.Asleep ↔ (s.pc td).Asleep) (hd : pc.Dequeued ↔ (s.pc td).Dequeued)
    (hr : s.mtx.mtxOwner = none → (s.pc td).AboutToRetry → pc.AboutToRetry) :
    MutexInv (s.to td pc) where
  owner t := (h.owner t).trans (moved_iff (P := (· = .holding)) hold).symm
  nodup := h.nodup
  queued t := (h.queued t).trans (moved_iff ha).symm
  waiters := by
    obtain ⟨l, hl, hmem, hc⟩ := h.waiters
    exact ⟨l, hl, fun t => (hmem t).trans (moved_iff hd).symm, hc⟩
  wakes hf t ht := by
    refine (h.wakes hf t ht).imp_right ?_
    rintro ⟨u, hu⟩
    refine ⟨u, ?_⟩
    by_cases hut : u = td
    · subst hut
      simpa [MutexMachine.to] using hr hf hu
    · simpa [MutexMachine.to, hut] using hu

theorem MutexInv.acquire
    (hpc : s.pc td = .locking tries ∨ s.pc td = .retrying tries) (hf : s.mtx.mtxOwner = none) :
    MutexInv { s with
      mtx.mtxOwner := some td, pc := update s.pc td .holding } where
  owner t := by
    by_cases ht : t = td
    · simp [ht]
    · have hnot := h.owner t
      rw [hf] at hnot
      simpa [ht, Ne.symm ht] using hnot
  nodup := h.nodup
  queued t := by
    refine (h.queued t).trans (moved_iff ?_).symm
    rcases hpc with hpc | hpc <;> simp [MutexPc.Asleep, hpc]
  waiters := by
    obtain ⟨l, hl, hmem, hc⟩ := h.waiters
    refine ⟨l, hl, fun t => (hmem t).trans (moved_iff ?_).symm, hc⟩
    rcases hpc with hpc | hpc <;> simp [MutexPc.Dequeued, hpc]
  wakes hn := by cases hn

theorem MutexInv.sleep {owner : θ} {sched : SchedulerState κ θ}
    (hpc : s.pc td = .locking tries ∨ s.pc td = .retrying tries)
    (ho : s.mtx.mtxOwner = some owner) :
    MutexInv ⟨{ s.mtx with
      mtxWaiters := s.mtx.mtxWaiters + 1, mtxSleepq := s.mtx.mtxSleepq ++ [td] }, sched,
      update s.pc td (.asleep (tries + 1))⟩ where
  owner t := by
    refine (h.owner t).trans (moved_iff (P := (· = .holding)) ?_).symm
    rcases hpc with hpc | hpc <;> simp [hpc]
  nodup := by
    have hnew : td ∉ s.mtx.mtxSleepq := by
      rw [h.queued]
      rcases hpc with hpc | hpc <;> simp [MutexPc.Asleep, hpc]
    exact concat_eq_append ▸ List.Nodup.concat hnew h.nodup
  queued t := by
    by_cases ht : t = td
    · simp [ht, MutexPc.Asleep]
    · simpa [ht] using h.queued t
  waiters := by
    obtain ⟨l, hl, hmem, hc⟩ := h.waiters
    refine ⟨l, hl, fun t => (hmem t).trans (moved_iff ?_).symm, ?_⟩
    · rcases hpc with hpc | hpc <;> simp [MutexPc.Dequeued, hpc]
    · rw [length_append, length_singleton]
      dsimp only
      omega
  wakes hn := by
    rw [ho] at hn
    cases hn

theorem MutexInv.resume (hpc : s.pc td = .asleep tries) :
    MutexInv { s with
      mtx.mtxSleepq := s.mtx.mtxSleepq.erase td
      pc := update s.pc td (.dequeued tries) } where
  owner t := (h.owner t).trans (moved_iff (P := (· = .holding)) (by simp [hpc])).symm
  nodup := h.nodup.erase td
  queued t := by
    by_cases ht : t = td
    · simp [ht, MutexPc.Asleep, h.nodup.not_mem_erase]
    · simpa [ht] using h.queued t
  waiters := by
    obtain ⟨l, hl, hmem, hc⟩ := h.waiters
    have ho : td ∉ l := by simp [hmem, MutexPc.Dequeued, hpc]
    have hin : td ∈ s.mtx.mtxSleepq := (h.queued td).mpr ⟨tries, hpc⟩
    refine ⟨td :: l, nodup_cons.mpr ⟨ho, hl⟩, fun t => ?_, ?_⟩
    · by_cases ht : t = td
      · simp [ht, MutexPc.Dequeued]
      · simpa [ht] using hmem t
    · have hpos := length_pos_of_mem hin
      rw [hc, length_erase_of_mem hin, length_cons]
      omega
  wakes _ _ _ := .inr ⟨td, tries, .inl (update_self ..)⟩

theorem MutexInv.decrement (hpc : s.pc td = .dequeued tries) :
    MutexInv { s with
      mtx.mtxWaiters := s.mtx.mtxWaiters - 1
      pc := update s.pc td (.retrying tries) } where
  owner t := (h.owner t).trans (moved_iff (P := (· = .holding)) (by simp [hpc])).symm
  nodup := h.nodup
  queued t := (h.queued t).trans (moved_iff (by simp [MutexPc.Asleep, hpc])).symm
  waiters := by
    obtain ⟨l, hl, hmem, hc⟩ := h.waiters
    have hin : td ∈ l := (hmem td).mpr ⟨tries, hpc⟩
    refine ⟨l.erase td, hl.erase td, fun t => ?_, ?_⟩
    · by_cases ht : t = td
      · simp [ht, MutexPc.Dequeued, hl.not_mem_erase]
      · simpa [ht] using hmem t
    · have hpos := length_pos_of_mem hin
      rw [length_erase_of_mem hin]
      dsimp only
      omega
  wakes _ _ _ := .inr ⟨td, tries, .inr (update_self ..)⟩

theorem MutexInv.unlock (hpc : s.pc td = .holding) :
    MutexInv ⟨(mutexUnlock s.mtx s.sched).1, (mutexUnlock s.mtx s.sched).2,
      update s.pc td .outside⟩ where
  owner t := by
    have ho := (h.owner td).mpr hpc
    by_cases ht : t = td
    · simp [ht, mutexUnlock]
    · have hn := h.owner t
      rw [ho] at hn
      simpa [ht, mutexUnlock, Ne.symm ht] using hn
  nodup := h.nodup
  queued t := (h.queued t).trans (moved_iff (by simp [MutexPc.Asleep, hpc])).symm
  waiters := by
    obtain ⟨l, hl, hmem, hc⟩ := h.waiters
    refine ⟨l, hl, fun t => (hmem t).trans (moved_iff ?_).symm, hc⟩
    simp [MutexPc.Dequeued, hpc]
  wakes _ u hu := by
    obtain ⟨l, -, -, hc⟩ := h.waiters
    -- a queued thread is counted, so the first one is signalled
    obtain ⟨rest, hq⟩ : ∃ rest, s.mtx.mtxSleepq = u :: rest := head?_eq_some_iff.mp hu
    have hne : s.mtx.mtxWaiters ≠ 0 := by
      rw [hc, hq, length_cons]
      omega
    refine .inl ?_
    simp [mutexUnlock, hne, hq, sleepqSignalOne]

theorem MutexInv.step (hs : MutexStep s e s') : MutexInv s' := by
  cases hs with
  | lock hpc =>
    refine h.move ?_ ?_ ?_ fun _ => ?_ <;>
      simp [hpc, MutexPc.Asleep, MutexPc.Dequeued, MutexPc.AboutToRetry]
  | @turn td tries mtx sched pc hpc hc =>
    rw [mutexLockSection] at hc
    split at hc
    · rename_i owner ho
      split_ifs at hc
      · -- another try, while the mutex is owned
        cases hc
        refine h.move ?_ ?_ ?_ fun hf => ?_
        · rcases hpc with hpc | hpc <;> simp [hpc]
        · rcases hpc with hpc | hpc <;> simp [hpc, MutexPc.Asleep]
        · rcases hpc with hpc | hpc <;> simp [hpc, MutexPc.Dequeued]
        · rw [ho] at hf
          cases hf
      · obtain ⟨⟨mtxSleepq, sched'⟩, he, hc⟩ := bind_eq_ok.mp hc
        obtain ⟨rfl, -⟩ := sleepqEnter_spec _ he
        cases hc
        exact h.sleep hpc ho
    · rename_i hf
      cases hc
      exact h.acquire hpc hf
  | resume hpc _ hc =>
    rw [sleepqLeave, threadqRemove] at hc
    split at hc
    · cases hc
      exact h.resume hpc
    · cases hc
  | decrement hpc => exact h.decrement hpc
  | unlock hpc => exact h.unlock hpc
  | other hsm =>
    refine ⟨h.owner, h.nodup, h.queued, h.waiters, fun hf t ht => ?_⟩
    rw [hsm t (mem_of_mem_head? ht)]
    exact h.wakes hf t ht

omit [DecidableEq θ] in
theorem MutexInv.counts : ∃ l : List θ, l.Nodup ∧
    (∀ t, t ∈ l ↔ (s.pc t).Asleep ∨ (s.pc t).Dequeued) ∧ s.mtx.mtxWaiters = l.length := by
  obtain ⟨l, hl, hmem, hc⟩ := h.waiters
  refine ⟨s.mtx.mtxSleepq ++ l, h.nodup.append hl fun t hq ht => ?_, fun t => ?_, ?_⟩
  · obtain ⟨_, ha⟩ := (h.queued t).mp hq
    obtain ⟨_, hd⟩ := (hmem t).mp ht
    rw [ha] at hd
    cases hd
  · rw [mem_append, h.queued, hmem]
  · rw [hc, length_append]

omit [DecidableEq θ] in
theorem MutexInv.mtxWaiters_le [Fintype θ] : s.mtx.mtxWaiters ≤ Fintype.card θ := by
  obtain ⟨l, hl, -, hc⟩ := h.counts
  exact hc ▸ hl.length_le_card

end

/-! ## Every run -/

def MutexMachine.init (sched : SchedulerState κ θ) : MutexMachine κ θ :=
  ⟨mutexInit, sched, fun _ => .outside⟩

omit [DecidableEq θ] in
theorem mutexInv_init (sched : SchedulerState κ θ) : MutexInv (MutexMachine.init sched) where
  owner := by simp [MutexMachine.init, mutexInit]
  nodup := nodup_nil
  queued := by simp [MutexMachine.init, mutexInit, MutexPc.Asleep]
  waiters := ⟨[], nodup_nil, by simp [MutexMachine.init, MutexPc.Dequeued], rfl⟩
  wakes := by simp [MutexMachine.init, mutexInit]

/-- **Mutexes are sound.** Whatever the threads do, at most one of them is between `mutex_lock` and
`mutex_unlock`, and it is the owner; and when the mutex is free while threads are queued, the first
one has been made runnable, or a thread has unlinked itself and is about to try again. -/
theorem mutex_sound {sched : SchedulerState κ θ} {h : List (MutexMachine κ θ × MutexEvent θ)}
    (hrun : Run MutexStep (MutexMachine.init sched) h s) :
    (∀ t t', s.pc t = .holding → s.pc t' = .holding → t = t') ∧
      (∀ t, s.mtx.mtxOwner = some t ↔ s.pc t = .holding) ∧
      (s.mtx.mtxOwner = none → ∀ td ∈ s.mtx.mtxSleepq.head?,
        (s.sched.entry td).runnable = true ∨ ∃ t, (s.pc t).AboutToRetry) := by
  have hinv : MutexInv s :=
    hrun.invariant (mutexInv_init sched) fun _ _ _ _ _ hinv hs =>
      hinv.step hs
  refine ⟨fun t t' ht ht' => ?_, hinv.owner, hinv.wakes⟩
  have ho := (hinv.owner t).mpr ht
  rw [(hinv.owner t').mpr ht'] at ho
  exact (Option.some.inj ho).symm

/-- A thread that sleeps when the other one unlocks the mutex has been made runnable. -/
theorem mutex_sound_unlock :
    ∃ (h : List (MutexMachine (Fin 1) (Fin 2) × MutexEvent (Fin 2)))
      (s : MutexMachine (Fin 1) (Fin 2)),
      Run MutexStep (MutexMachine.init ⟨fun _ => .default, [0, 1], [], fun _ => none⟩) h s ∧
        s.mtx = ⟨none, 1, [1]⟩ ∧
        ((s.sched.entry 1).runnable = true ∨ ∃ t, (s.pc t).AboutToRetry) := by
  have h₀ : Run MutexStep (MutexMachine.init ⟨fun _ => .default, [0, 1], [], fun _ => none⟩ :
      MutexMachine (Fin 1) (Fin 2)) _ _ := Run.nil.snoc (@MutexStep.lock _ _ _ _ 0 rfl)
  have h₁ := h₀.snoc (@MutexStep.turn _ _ _ _ 0 0 _ _ _ (.inl rfl) rfl)
  have h₂ := h₁.snoc (@MutexStep.lock _ _ _ _ 1 rfl)
  have h₃ := h₂.snoc (@MutexStep.turn _ _ _ _ 1 0 _ _ _ (.inl rfl) rfl)
  have h₄ := h₃.snoc (@MutexStep.turn _ _ _ _ 1 1 _ _ _ (.inl rfl) rfl)
  have h₅ := h₄.snoc (@MutexStep.turn _ _ _ _ 1 2 _ _ _ (.inl rfl) rfl)
  have h₆ := h₅.snoc (@MutexStep.turn _ _ _ _ 1 3 _ _ _ (.inl rfl) rfl)
  have h₇ := h₆.snoc (@MutexStep.turn _ _ _ _ 1 4 _ _ _ (.inl rfl) rfl)
  have h₈ := h₇.snoc (@MutexStep.turn _ _ _ _ 1 5 _ _ _ (.inl rfl) rfl)
  have h₉ := h₈.snoc (@MutexStep.turn _ _ _ _ 1 6 _ _ _ (.inl rfl) rfl)
  have h₁₀ := h₉.snoc (@MutexStep.turn _ _ _ _ 1 7 _ _ _ (.inl rfl) rfl)
  have h₁₁ := h₁₀.snoc (@MutexStep.turn _ _ _ _ 1 8 _ _ _ (.inl rfl) rfl)
  have h₁₂ := h₁₁.snoc (@MutexStep.turn _ _ _ _ 1 9 _ _ _ (.inl rfl) rfl)
  have h₁₃ := h₁₂.snoc (@MutexStep.turn _ _ _ _ 1 10 _ _ _ (.inl rfl) rfl)
  have h₁₄ := h₁₃.snoc (@MutexStep.unlock _ _ _ _ 0 rfl)
  exact ⟨_, _, h₁₄, rfl, (mutex_sound h₁₄).2.2 rfl 1 rfl⟩

/-- **`mutex_unlock` may look at the counter only.** In every state that threads reach,
`mtx_waiters` is the number of the threads that have begun to sleep and not yet decremented it, and
an unlock does what it would do if it always signalled. -/
theorem mutex_unlock_signals {sched : SchedulerState κ θ}
    {h : List (MutexMachine κ θ × MutexEvent θ)}
    (hrun : Run MutexStep (MutexMachine.init sched) h s) :
    (∃ l : List θ, l.Nodup ∧ (∀ t, t ∈ l ↔ (s.pc t).Asleep ∨ (s.pc t).Dequeued) ∧
      s.mtx.mtxWaiters = l.length) ∧
    mutexUnlock s.mtx s.sched =
      ({ s.mtx with mtxOwner := none }, sleepqSignalOne s.mtx.mtxSleepq s.sched) := by
  have hinv : MutexInv s :=
    hrun.invariant (mutexInv_init sched) fun _ _ _ _ _ hinv hs => hinv.step hs
  refine ⟨hinv.counts, ?_⟩
  rw [mutexUnlock]
  split_ifs with hw
  · rfl
  · -- no thread waits, so none is queued
    obtain ⟨l, -, -, hc⟩ := hinv.waiters
    have hq : s.mtx.mtxSleepq = [] := length_eq_zero_iff.mp (by omega)
    simp only [hq, sleepqSignalOne]

/-- A thread has the mutex, and unlocks it. -/
theorem mutex_unlock_signals_one :
    ∃ (h : List (MutexMachine (Fin 1) (Fin 2) × MutexEvent (Fin 2)))
      (s : MutexMachine (Fin 1) (Fin 2)),
      Run MutexStep (MutexMachine.init ⟨fun _ => .default, [0, 1], [], fun _ => none⟩) h s ∧
        s.pc 0 = .holding ∧ mutexUnlock s.mtx s.sched =
          ({ s.mtx with mtxOwner := none }, sleepqSignalOne s.mtx.mtxSleepq s.sched) := by
  have h₀ : Run MutexStep (MutexMachine.init ⟨fun _ => .default, [0, 1], [], fun _ => none⟩ :
      MutexMachine (Fin 1) (Fin 2)) _ _ := Run.nil.snoc (@MutexStep.lock _ _ _ _ 0 rfl)
  have h₁ := h₀.snoc (@MutexStep.turn _ _ _ _ 0 0 _ _ _ (.inl rfl) rfl)
  exact ⟨_, _, h₁, rfl, (mutex_unlock_signals h₁).2⟩

end Steps

end Glatt
