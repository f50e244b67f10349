import Glatt.Core.SchedulerInvariant

/-!
# Waiting for a processor

How long a thread waits that may run. `scheduler_schedule` chooses the first thread of the queue
that may run on its processor and links it last, new threads are linked last, and threads leave the
queue only to exit. So a thread that waits moves towards the head, and each time that another one is
chosen in its place there is one thread less before it. An idle processor asks `scheduler_idle`
before it makes the call.

## Main definitions

* `passes`: how often a thread has been passed over

## Main results

* `scheduler_bounded_bypass`: a thread is passed over at most as often as there are threads before
  it
* `scheduler_idle_iff`: `scheduler_idle` says whether the next call goes on with the same thread
-/

namespace Glatt

open Imperative Transition Function List SchedulerEvent

variable {κ θ : Type} [DecidableEq κ] [DecidableEq θ] {s s' : SchedulerMachine κ θ}
  {e : SchedulerEvent κ θ} {cpu : κ} {td t : θ} {want : Option θ} {canrun : Bool}
  {phase : SchedulePhase θ} {h : List (SchedulerMachine κ θ × SchedulerEvent κ θ)}

/-! ## Threads that are passed over -/

/-- A section of a call for any thread that chooses a thread, and may choose `td`. -/
def SchedulerState.passes (s : SchedulerState κ θ) (cpu : κ) (want : Option θ) (td : θ) : Bool :=
  want.isNone && (s.sqExiting.all fun t => (s.entry t).running) && s.eligible cpu td

def SchedulerMachine.passes (s : SchedulerMachine κ θ) (td : θ) : SchedulerEvent κ θ → Bool
  | schedule cpu want => s.sched.passes cpu want td
  | resume cpu =>
    match s.phase cpu with
    | .relocking want _ => s.sched.passes cpu want td
    | _ => false
  | _ => false

def passes (h : List (SchedulerMachine κ θ × SchedulerEvent κ θ)) (td : θ) : ℕ :=
  h.countP fun x => x.1.passes td x.2

omit [DecidableEq κ] in
theorem idxOf_erase_add {l : List θ} (hne : t ≠ td) :
    (l.erase t).idxOf td + (if l.idxOf t < l.idxOf td then 1 else 0) = l.idxOf td := by
  induction l with
  | nil => rfl
  | cons a l ih => grind

theorem schedulerSection_chosen {s s' : SchedulerState κ θ}
    (hc : schedulerSection cpu none canrun s = .ok (s', .outside)) :
    (∃ t, s.sqQueue.find? (s.eligible cpu) = some t ∧ Switched s s' cpu t) ∨
      (∀ t ∈ s.sqQueue, s.eligible cpu t = false) ∧
        ∃ t, s.currentThread cpu = some t ∧ Switched s s' cpu t := by
  simp only [schedulerSection, Option.all_none, Bool.and_true] at hc
  split at hc
  · obtain ⟨_, -, hp⟩ := bind_eq_ok.mp hc
    cases hp
  split at hc
  · rename_i t hf
    obtain ⟨_, hs, hc⟩ := bind_eq_ok.mp hc
    cases hc
    exact .inl ⟨t, hf, schedulerSwitch_spec _ hs⟩
  rename_i hf
  split_ifs at hc
  split at hc
  · rename_i otd hcur
    obtain ⟨_, hs, hc⟩ := bind_eq_ok.mp hc
    cases hc
    exact .inr ⟨by simpa using hf, otd, hcur, schedulerSwitch_spec _ hs⟩
  · cases hc

theorem Switched.idxOf_add {s s' : SchedulerState κ θ} (hs : Switched s s' cpu t)
    (hq : td ∈ s.sqQueue) (hne : t ≠ td) : td ∈ s'.sqQueue ∧ s'.sqQueue.idxOf td +
      (if s.sqQueue.idxOf t < s.sqQueue.idxOf td then 1 else 0) = s.sqQueue.idxOf td := by
  have hm : td ∈ s.sqQueue.erase t := (mem_erase_of_ne hne.symm).mpr hq
  rw [hs.queue, idxOf_append_of_mem hm]
  exact ⟨mem_append_left _ hm, idxOf_erase_add hne⟩

theorem schedulerSection_idxOf {s s' : SchedulerState κ θ}
    (hc : schedulerSection cpu want canrun s = .ok (s', phase)) (hq : td ∈ s.sqQueue)
    (hn : s'.currentThread cpu ≠ some td) :
    td ∈ s'.sqQueue ∧ s'.sqQueue.idxOf td + (if s.passes cpu want td then 1 else 0) ≤
      s.sqQueue.idxOf td := by
  have hne : ∀ {t}, Switched s s' cpu t → t ≠ td := by
    rintro t hs rfl
    exact hn (hs.current ▸ update_self ..)
  rcases schedulerSection_spec _ hc with ⟨u, hu, hur, heq⟩ | ⟨t, hp, hs, -⟩
  · -- a thread is freed first
    cases heq
    have hno : s.passes cpu want td = false := by
      simp only [SchedulerState.passes, Bool.and_eq_false_iff, all_eq_false]
      exact .inl (.inr ⟨u, hu, by simp [hur]⟩)
    simp [hno, hq]
  obtain rfl : phase = .outside := hp
  obtain ⟨hm, hi⟩ := hs.idxOf_add hq (hne hs)
  refine ⟨hm, ?_⟩
  split_ifs with hpass
  · simp only [SchedulerState.passes, Bool.and_eq_true, Option.isNone_iff_eq_none] at hpass
    obtain ⟨⟨rfl, -⟩, he⟩ := hpass
    rcases schedulerSection_chosen hc with ⟨t, hf, hs⟩ | ⟨hf, -⟩
    · -- no thread before the chosen one may run
      obtain ⟨ht, as, bs, hl, hno⟩ := find?_eq_some_iff_append.mp hf
      have hn : ∀ u ∈ as, s.eligible cpu u = false := fun u hu => by simpa using hno u hu
      have htd : td ∉ as := fun hm => by simp [hn td hm] at he
      have ht : t ∉ as := fun hm => by simp [hn t hm] at ht
      have hlt : s.sqQueue.idxOf t < s.sqQueue.idxOf td := by
        rw [hl, idxOf_append_of_notMem ht, idxOf_append_of_notMem htd, idxOf_cons_self,
          idxOf_cons_ne _ (hne hs)]
        omega
      have hi := (hs.idxOf_add hq (hne hs)).2
      rw [if_pos hlt] at hi
      exact hi.le
    · rw [hf td hq] at he
      cases he
  · exact (Nat.le_add_right _ _).trans_eq hi

theorem SchedulerStep.idxOf_le (hs : SchedulerStep s e s') (hq : td ∈ s.sched.sqQueue)
    (hw : ∀ c, s.sched.currentThread c ≠ some td) (hn : ∀ c, s'.sched.currentThread c ≠ some td) :
    td ∈ s'.sched.sqQueue ∧ s'.sched.sqQueue.idxOf td + (if s.passes td e then 1 else 0) ≤
      s.sched.sqQueue.idxOf td := by
  cases hs with
  | setup =>
    refine ⟨mem_append_left _ hq, ?_⟩
    rw [schedulerThreadSetup_sqQueue, idxOf_append_of_mem hq]
    exact le_rfl
  | runnable | enqueue | dequeue | free => exact ⟨hq, le_rfl⟩
  | pin _ hc | sleeping _ hc =>
    simp only [schedulerCpuPin, schedulerThreadSleeping] at hc
    split_ifs at hc
    cases hc
    exact ⟨hq, le_rfl⟩
  | @exiting cpu t sched hr _ hc =>
    rw [schedulerThreadExiting, hr.1] at hc
    dsimp only at hc
    split_ifs at hc
    obtain ⟨_, hrm, hc⟩ := bind_eq_ok.mp hc
    rw [threadqRemove] at hrm
    split_ifs at hrm
    cases hrm
    cases hc
    -- the thread that exits runs
    have hne : t ≠ td := fun heq => hw cpu (heq ▸ hr.1)
    exact ⟨(mem_erase_of_ne hne.symm).mpr hq,
      (Nat.le_add_right _ _).trans_eq (idxOf_erase_add hne)⟩
  | @schedule cpu want sched phase _ hc => exact schedulerSection_idxOf hc hq (hn cpu)
  | @resume cpu want canrun sched phase hp hc =>
    rw [SchedulerMachine.passes, hp]
    exact schedulerSection_idxOf hc hq (hn cpu)

/-- **No thread is passed over for ever.** Whatever the processors do while a linked thread waits,
the calls of `scheduler_schedule` that could have chosen it are no more than the threads that were
before it in the queue. -/
theorem scheduler_bounded_bypass {s₀ : SchedulerMachine κ θ} (hq : td ∈ s₀.sched.sqQueue)
    (hrun : Run SchedulerStep s₀ h s) (hw : ∀ x ∈ h, ∀ c, x.1.sched.currentThread c ≠ some td)
    (hn : ∀ c, s.sched.currentThread c ≠ some td) :
    passes h td + s.sched.sqQueue.idxOf td ≤ s₀.sched.sqQueue.idxOf td := by
  suffices hi : td ∈ s.sched.sqQueue ∧
      passes h td + s.sched.sqQueue.idxOf td ≤ s₀.sched.sqQueue.idxOf td from hi.2
  induction hrun with
  | nil => exact ⟨hq, by simp [passes]⟩
  | @snoc h s e s' _ hs ih =>
    rw [forall_mem_append, forall_mem_singleton] at hw
    obtain ⟨hm, hle⟩ := ih hw.1 hw.2
    obtain ⟨hm', hst⟩ := hs.idxOf_le hm hw.2 hn
    refine ⟨hm', ?_⟩
    rw [passes] at hle ⊢
    simp only [countP_append, countP_singleton]
    omega

/-- The second of two threads is passed over once. -/
theorem scheduler_bounded_bypass_two :
    ∃ (s₀ s : SchedulerMachine (Fin 1) (Fin 2)) (h : List _), Run SchedulerStep s₀ h s ∧
      s₀.sched.sqQueue = [0, 1] ∧ passes h 1 = 1 ∧
      passes h 1 + s.sched.sqQueue.idxOf 1 ≤ s₀.sched.sqQueue.idxOf 1 := by
  have hr := Run.nil.snoc (@SchedulerStep.schedule (Fin 1) (Fin 2) _ _
    ⟨⟨fun _ => { SchedulerEntry.default with runnable := true }, [0, 1], [], fun _ => none⟩,
      fun _ => .outside, fun _ => .fresh⟩ 0 none _ .outside rfl rfl)
  exact ⟨_, _, _, hr, rfl, rfl, scheduler_bounded_bypass (by decide) hr (by decide) (by decide)⟩

/-! ## Idle processors -/

/-- **`scheduler_idle` foretells `scheduler_schedule`.** In every state that the processors reach,
if no exiting thread is to be freed, a call for any thread goes on with the current one exactly if
`scheduler_idle` has said so. -/
theorem scheduler_idle_iff (hrun : Run SchedulerStep SchedulerMachine.boot h s)
    (hs : SchedulerStep s (.schedule cpu none) s') (hout : s'.phase cpu = .outside) :
    schedulerIdle cpu s.sched = true ↔
      s'.sched.currentThread cpu = s.sched.currentThread cpu := by
  have hinv := schedulerInv_run hrun
  have hot : ∀ otd, s.sched.currentThread cpu = some otd → s.sched.eligible cpu otd = false := by
    intro otd hc
    have hr := (hinv.running otd (hinv.current_live cpu otd hc)).mpr ⟨cpu, hc⟩
    simp [SchedulerState.eligible, hr]
  cases hs with
  | @schedule _ _ sched phase hp hsec =>
    obtain rfl : phase = .outside := by simpa [SchedulerMachine.after] using hout
    show _ ↔ sched.currentThread cpu = _
    rcases schedulerSection_chosen hsec with ⟨t, hf, hsw⟩ | ⟨hf, t, ht, hsw⟩
    · have he := find?_some hf
      have hne : s.sched.currentThread cpu ≠ some t := fun hc => by simp [hot t hc] at he
      rw [hsw.current, update_self]
      refine iff_of_false (fun hall => ?_) hne.symm
      have := all_eq_true.mp hall t (mem_of_find?_eq_some hf)
      simp [hne, he] at this
    · rw [hsw.current, update_self, ht]
      exact iff_of_true (all_eq_true.mpr fun u hu => by simp [hf u hu]) rfl

/-- Of two threads that are runnable, the one that runs is followed by the other. -/
theorem scheduler_idle_iff_two : ∃ (h : List _) (s s' : SchedulerMachine (Fin 1) (Fin 2)),
    Run SchedulerStep SchedulerMachine.boot h s ∧ s.sched.currentThread 0 = some 0 ∧
      schedulerIdle 0 s.sched = false ∧ SchedulerStep s (.schedule 0 none) s' ∧
      s'.sched.currentThread 0 ≠ s.sched.currentThread 0 := by
  have h₁ := Run.nil.snoc (@SchedulerStep.setup (Fin 1) (Fin 2) _ _ SchedulerMachine.boot 0 rfl)
  have h₂ := h₁.snoc (@SchedulerStep.setup _ _ _ _ _ 1 rfl)
  have h₃ := h₂.snoc (@SchedulerStep.runnable _ _ _ _ _ 0 (.inl rfl))
  have h₄ := h₃.snoc (@SchedulerStep.runnable _ _ _ _ _ 1 (.inl rfl))
  have h₅ := h₄.snoc (@SchedulerStep.schedule _ _ _ _ _ 0 none _ .outside rfl rfl)
  obtain ⟨h, s, s', hr, hc, hi, hs, hp⟩ : ∃ h s s', Run SchedulerStep SchedulerMachine.boot h s ∧
      s.sched.currentThread (0 : Fin 1) = some (0 : Fin 2) ∧
      schedulerIdle (0 : Fin 1) s.sched = false ∧
      SchedulerStep s (.schedule 0 none) s' ∧ s'.phase 0 = .outside :=
    ⟨_, _, _, h₅, rfl, rfl, @SchedulerStep.schedule _ _ _ _ _ 0 none _ .outside rfl rfl, rfl⟩
  refine ⟨h, s, s', hr, hc, hi, hs, fun heq => ?_⟩
  rw [(scheduler_idle_iff hr hs hp).mpr heq] at hi
  cases hi

end Glatt
