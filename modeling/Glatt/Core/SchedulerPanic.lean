import Glatt.Core.SchedulerInvariant

/-!
# When the scheduler gives up

`scheduler_schedule(NULL, lock)` panics when it finds no thread to run. Whether the calling thread
can go on is found out when the call begins. The lock is dropped later, to free threads, and the
calling thread may be woken meanwhile: the search skips it, as it is running.

## Main definitions

* `SchedulerMachine.GivesUp`, `SchedulerMachine.MayRun`: the panic, and a thread that could run

## Main results

* `scheduler_gives_up`: without such a wake-up, the scheduler gives up only when no thread may run
-/

namespace Glatt

open Imperative Transition Function SchedulerMachine

variable {κ θ : Type} [DecidableEq κ] [DecidableEq θ] {s s' : SchedulerMachine κ θ} {cpu : κ}
  {sched : SchedulerState κ θ} {want : Option θ} {canrun : Bool} {phase : SchedulePhase θ}

/-- A section of `scheduler_schedule(NULL, lock)` on the processor is at the panic. -/
def SchedulerMachine.GivesUp (s : SchedulerMachine κ θ) (cpu : κ) : Prop :=
  ∃ canrun, schedulerSection cpu none canrun s.sched = .error .panic ∧
    (s.phase cpu = .outside ∧ canrun = s.sched.canrun cpu ∨ s.phase cpu = .relocking none canrun)

/-- The thread may run on the processor: it is runnable, it does not run elsewhere, and it is not
pinned elsewhere. -/
def SchedulerMachine.MayRun (s : SchedulerMachine κ θ) (cpu : κ) (td : θ) : Prop :=
  s.life td ≠ .unused ∧ (s.sched.entry td).runnable = true ∧
    ((s.sched.entry td).running = true → s.sched.currentThread cpu = some td) ∧
    ((s.sched.entry td).pinned = true → (s.sched.entry td).oncpu = some cpu)

/-- A thread that is woken is not in a call of `scheduler_schedule` that has dropped the lock. -/
def SchedulerEvent.WakesOutside (s : SchedulerMachine κ θ) : SchedulerEvent κ θ → Prop
  | .runnable td => ∀ c, s.sched.currentThread c = some td → s.phase c = .outside
  | _ => True

def SchedulePhase.Stuck : SchedulePhase θ → Prop
  | outside => False
  | freeing _ _ canrun => canrun = false
  | relocking _ canrun => canrun = false

/-- **What was found out still holds**: the thread of such a call is not runnable. -/
def SampleHolds (s : SchedulerMachine κ θ) : Prop :=
  ∀ c td, (s.phase c).Stuck → s.sched.currentThread c = some td → (s.sched.entry td).runnable ≠ true

theorem SampleHolds.afterSection (h : SampleHolds s)
    (hcan : canrun = false → ∀ td, s.sched.currentThread cpu = some td →
      (s.sched.entry td).runnable ≠ true)
    (hcl : schedulerSection cpu want canrun s.sched = .ok (sched, phase)) :
    SampleHolds (s.after cpu sched phase) := by
  intro c td hs hc
  dsimp only [after] at hs hc ⊢
  rw [update_apply] at hs
  rcases schedulerSection_spec _ hcl with
    ⟨_, -, -, heq⟩ | ⟨t, rfl, hsw, -⟩
  · cases heq
    split at hs
    · exact hcan hs td (‹c = cpu› ▸ hc)
    · exact h c td hs hc
  · split at hs
    · exact hs.elim
    · rw [hsw.current, update_of_ne ‹c ≠ cpu›] at hc
      rw [hsw.flags.2]
      exact h c td hs hc

theorem SampleHolds.step {e : SchedulerEvent κ θ} (h : SampleHolds s) (hinv : SchedulerInv s)
    (hw : e.WakesOutside s) (hs : SchedulerStep s e s') : SampleHolds s' := by
  have he : ∀ c td, (s.phase c).Stuck → s.sched.currentThread c = some td →
      (s'.sched.entry td).runnable ≠ true := by
    intro c td hst hc hr
    rcases (hinv.entry_step hs (hinv.current_live c td hc)).2 hr with hr | rfl
    · exact h c td hst hc hr
    · rw [hw c hc] at hst
      exact hst
  cases hs with
  | pin _ hcl =>
    rw [schedulerCpuPin] at hcl
    split_ifs at hcl
    cases hcl
    exact he
  | sleeping _ hcl =>
    rw [schedulerThreadSleeping] at hcl
    split_ifs at hcl
    cases hcl
    exact he
  | exiting hrn _ hcl =>
    rw [schedulerThreadExiting, hrn.1] at hcl
    dsimp only at hcl
    split_ifs at hcl
    obtain ⟨_, -, hcl⟩ := bind_eq_ok.mp hcl
    cases hcl
    exact he
  | @schedule cpu want sched phase _ hcl =>
    refine h.afterSection (fun hcan td hc => ?_) hcl
    rw [SchedulerState.canrun, hc] at hcan
    exact Bool.eq_false_iff.mp hcan
  | @free cpu td want canrun hp =>
    intro c td hst hc
    refine h c td ?_ hc
    dsimp only at hst
    rw [update_apply] at hst
    split at hst
    · rw [‹c = cpu›, hp]
      exact hst
    · exact hst
  | @resume cpu want canrun sched phase hp hcl =>
    exact h.afterSection (fun hcan td hc => h cpu td (by rw [hp]; exact hcan) hc) hcl
  | _ => exact he

theorem schedulerSection_panic {s : SchedulerState κ θ}
    (h : schedulerSection cpu none canrun s = .error .panic) :
    canrun = false ∧ ∀ td ∈ s.sqQueue, s.eligible cpu td = false := by
  rw [schedulerSection] at h
  split at h
  · rename_i td hf
    rw [threadqRemove, if_pos (List.mem_of_find?_eq_some hf)] at h
    cases h
  split at h
  · rename_i td hf
    rw [schedulerSwitch, threadqRemove, if_pos (List.mem_of_find?_eq_some hf)] at h
    cases h
  rename_i hf
  split at h
  · split at h
    · rw [schedulerSwitch, threadqRemove] at h
      split at h <;> cases h
    · cases h
  · rename_i hc
    refine ⟨Bool.eq_false_iff.mpr hc, fun td hmem => ?_⟩
    simpa using List.find?_eq_none.mp hf td hmem

/-- **The scheduler gives up only when no thread may run**, in every run in which no thread is woken
in a call of `scheduler_schedule` that has dropped the lock. -/
theorem scheduler_gives_up {h : List (SchedulerMachine κ θ × SchedulerEvent κ θ)}
    (hrun : Run SchedulerStep boot h s) (hwakes : ∀ e ∈ h, e.2.WakesOutside e.1)
    (hpanic : s.GivesUp cpu) (td : θ) : ¬ s.MayRun cpu td := by
  obtain ⟨hinv, hsm⟩ : SchedulerInv s ∧ SampleHolds s :=
    hrun.invariant_of_forall (I := fun s => SchedulerInv s ∧ SampleHolds s)
      (C := fun s e => e.WakesOutside s) ⟨schedulerInv_boot, fun _ _ => False.elim⟩
      (fun s e s' hi hw hs => ⟨hi.1.step hs, hi.2.step hi.1 hw hs⟩) hwakes
  obtain ⟨canrun, hc, hp⟩ := hpanic
  obtain ⟨rfl, hn⟩ := schedulerSection_panic hc
  rintro ⟨hlv, hr, hrn, hpn⟩
  have hmem : td ∈ s.sched.sqQueue := by
    refine (hinv.mem_queue td).mpr ⟨hlv, fun hl => ?_⟩
    rw [hinv.not_runnable td hl] at hr
    cases hr
  -- a thread that is skipped and may run is the calling thread
  have hcur : s.sched.currentThread cpu = some td := by
    refine hrn (by_contra fun hid => ?_)
    have hsk := hn td hmem
    exact absurd hpn (by simpa [SchedulerState.eligible, hr, hid] using hsk)
  rcases hp with ⟨-, hcan⟩ | hp
  · rw [SchedulerState.canrun, hcur] at hcan
    exact Bool.false_ne_true (hcan.trans hr)
  · exact hsm cpu td (by rw [hp]; rfl) hcur hr

/-- The only thread goes to sleep, and then no thread may run. -/
theorem scheduler_gives_up_asleep :
    ∃ (h : List (SchedulerMachine (Fin 1) (Fin 1) × SchedulerEvent (Fin 1) (Fin 1)))
      (s : SchedulerMachine (Fin 1) (Fin 1)), Run SchedulerStep boot h s ∧
      s.GivesUp 0 ∧ ∀ td, ¬ s.MayRun 0 td := by
  have h₁ : Run SchedulerStep (boot : SchedulerMachine (Fin 1) (Fin 1)) _ _ :=
    Run.nil.snoc (@SchedulerStep.setup _ _ _ _ _ 0 rfl)
  have h₂ := h₁.snoc (@SchedulerStep.runnable _ _ _ _ _ 0 (.inl rfl))
  have h₃ := h₂.snoc (@SchedulerStep.schedule _ _ _ _ _ 0 none _ .outside rfl rfl)
  have h₄ := h₃.snoc (@SchedulerStep.enqueue _ _ _ _ _ 0 0 ⟨rfl, rfl⟩ rfl)
  have h₅ := h₄.snoc (@SchedulerStep.sleeping _ _ _ _ _ 0 _ (by decide) rfl)
  refine ⟨_, _, h₅, ⟨false, rfl, .inl ⟨rfl, rfl⟩⟩, scheduler_gives_up h₅ ?_
    ⟨false, rfl, .inl ⟨rfl, rfl⟩⟩⟩
  simp [SchedulerEvent.WakesOutside, boot]

/-- **A thread is woken in its call**: the first thread has exited, and the second one is put to
sleep. Its call frees the first one, and meanwhile it is woken. The scheduler gives up, with the
second thread runnable. -/
theorem scheduler_gives_up_woken :
    ∃ (h : List (SchedulerMachine (Fin 1) (Fin 2) × SchedulerEvent (Fin 1) (Fin 2)))
      (s : SchedulerMachine (Fin 1) (Fin 2)), Run SchedulerStep boot h s ∧
      s.GivesUp 0 ∧ s.MayRun 0 1 := by
  have h₈ := exitedRun.2.snoc (@SchedulerStep.enqueue _ _ _ _ _ 0 1 ⟨rfl, rfl⟩ rfl)
  have h₉ := h₈.snoc (@SchedulerStep.sleeping _ _ _ _ _ 1 _ (by decide) rfl)
  have h₁₀ := h₉.snoc (@SchedulerStep.schedule _ _ _ _ _ 0 none _ (.freeing 0 none false) rfl rfl)
  have h₁₁ := h₁₀.snoc (@SchedulerStep.runnable _ _ _ _ _ 1 (.inr rfl))
  have h₁₂ := h₁₁.snoc (@SchedulerStep.free _ _ _ _ _ 0 0 _ _ rfl)
  exact ⟨_, _, h₁₂, ⟨false, rfl, .inr rfl⟩, by decide, rfl, fun _ => rfl, nofun⟩

end Glatt
