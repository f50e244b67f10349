import Glatt.Core.Scheduler

/-!
# The invariant of the scheduler

What holds between the queues, the flags of the entries and the current threads of the processors,
whatever the processors do: no thread runs on two processors, and no thread is freed that runs or
that has been freed before.

## Main definitions

* `SchedulerInv`, `ThreadInv`: the invariant, and what it says of a thread

## Main results

* `scheduler_sound`: the invariant in the terms of the source, along every run
-/

namespace Glatt

open Imperative Transition Function List SchedulerEvent

variable {κ θ : Type} [DecidableEq θ] {c : κ}

def ThreadLife.Active (life : ThreadLife) : Prop := life ≠ .unused ∧ life ≠ .exiting

def SchedulePhase.CanRun : SchedulePhase θ → Prop
  | outside => False
  | freeing _ _ canrun => canrun = true
  | relocking _ canrun => canrun = true

def SchedulePhase.Frees (phase : SchedulePhase θ) (td : θ) : Prop :=
  ∃ want canrun, phase = .freeing td want canrun

/-- **The invariant**: the queues are those of the active and of the exiting threads; the running
threads are the current ones, each on one processor, its own if it is pinned; a thread being freed
is exiting and does not run; and a call that may go on with the current thread finds it active. -/
structure SchedulerInv (s : SchedulerMachine κ θ) : Prop where
  queueNodup : s.sched.sqQueue.Nodup
  exitingNodup : s.sched.sqExiting.Nodup
  mem_queue : ∀ t, t ∈ s.sched.sqQueue ↔ (s.life t).Active
  mem_exiting : ∀ t, t ∈ s.sched.sqExiting ↔ s.life t = .exiting ∧ ∀ c, ¬ (s.phase c).Frees t
  exiting : ∀ t, s.life t ≠ .unused → ((s.sched.entry t).exiting = true ↔ s.life t = .exiting)
  running : ∀ t, s.life t ≠ .unused →
    ((s.sched.entry t).running = true ↔ ∃ c, s.sched.currentThread c = some t)
  current_inj : ∀ c c' t, s.sched.currentThread c = some t → s.sched.currentThread c' = some t →
    c = c'
  current_live : ∀ c t, s.sched.currentThread c = some t → s.life t ≠ .unused
  current_started : ∀ c t, s.sched.currentThread c = some t → s.life t ≠ .fresh
  pinned : ∀ c t, s.sched.currentThread c = some t → (s.sched.entry t).pinned = true →
    (s.sched.entry t).oncpu = some c
  not_runnable : ∀ t, s.life t = .exiting → (s.sched.entry t).runnable = false
  frees : ∀ c t, (s.phase c).Frees t → s.life t = .exiting ∧ (s.sched.entry t).running = false
  frees_inj : ∀ c c' t, (s.phase c).Frees t → (s.phase c').Frees t → c = c'
  canrun : ∀ c, (s.phase c).CanRun → ∃ t, s.sched.currentThread c = some t ∧ (s.life t).Active

section Steps

variable {s s' : SchedulerMachine κ θ} {e : SchedulerEvent κ θ} {cpu : κ} {td : θ}

variable {sched : SchedulerState κ θ}

/-- What the invariant says of one thread. -/
structure ThreadInv (s : SchedulerMachine κ θ) (t : θ) : Prop where
  mem_queue : t ∈ s.sched.sqQueue ↔ (s.life t).Active
  mem_exiting : t ∈ s.sched.sqExiting ↔ s.life t = .exiting ∧ ∀ c, ¬ (s.phase c).Frees t
  exiting : s.life t ≠ .unused → ((s.sched.entry t).exiting = true ↔ s.life t = .exiting)
  running : s.life t ≠ .unused →
    ((s.sched.entry t).running = true ↔ ∃ c, s.sched.currentThread c = some t)
  current : ∀ c, s.sched.currentThread c = some t → s.life t ≠ .unused ∧ s.life t ≠ .fresh ∧
    ((s.sched.entry t).pinned = true → (s.sched.entry t).oncpu = some c)
  not_runnable : s.life t = .exiting → (s.sched.entry t).runnable = false
  frees : ∀ c, (s.phase c).Frees t → s.life t = .exiting ∧ (s.sched.entry t).running = false

section

variable (h : SchedulerInv s)
include h

omit [DecidableEq θ] in
theorem SchedulerInv.thread (t : θ) : ThreadInv s t where
  mem_queue := h.mem_queue t
  mem_exiting := h.mem_exiting t
  exiting := h.exiting t
  running := h.running t
  current c hc := ⟨h.current_live c t hc, h.current_started c t hc, h.pinned c t hc⟩
  not_runnable := h.not_runnable t
  frees c := h.frees c t

theorem SchedulerInv.ofThread (td : θ) (hcr : s'.sched.currentThread = s.sched.currentThread)
    (hcan : ∀ c, (s'.phase c).CanRun → (s.phase c).CanRun ∧
      (s.sched.currentThread c = some td → (s.life td).Active → (s'.life td).Active))
    (hfr : ∀ c t, (s'.phase c).Frees t → (s.phase c).Frees t) (hqu : s'.sched.sqQueue.Nodup)
    (he : s'.sched.sqExiting.Nodup)
    (ho : ∀ t ≠ td, s'.life t = s.life t ∧ s'.sched.entry t = s.sched.entry t ∧
      (t ∈ s'.sched.sqQueue ↔ t ∈ s.sched.sqQueue) ∧
      (t ∈ s'.sched.sqExiting ↔ t ∈ s.sched.sqExiting) ∧
      ∀ c, (s.phase c).Frees t → (s'.phase c).Frees t)
    (htd : ThreadInv s' td) : SchedulerInv s' := by
  have hall : ∀ t, ThreadInv s' t := by
    intro t
    by_cases ht : t = td
    · exact ht ▸ htd
    · obtain ⟨hl, hen, hq, hx, hf⟩ := ho t ht
      have hiff := fun c => (⟨hfr c t, hf c⟩ : (s'.phase c).Frees t ↔ (s.phase c).Frees t)
      have hth := h.thread t
      constructor <;> simp only [hl, hen, hq, hx, hiff, hcr]
      exacts [hth.mem_queue, hth.mem_exiting, hth.exiting, hth.running,
        hth.current, hth.not_runnable, hth.frees]
  constructor
  case queueNodup => exact hqu
  case exitingNodup => exact he
  case mem_queue => exact fun t => (hall t).mem_queue
  case mem_exiting => exact fun t => (hall t).mem_exiting
  case exiting => exact fun t => (hall t).exiting
  case running => exact fun t => (hall t).running
  case current_inj => exact hcr ▸ h.current_inj
  case current_live => exact fun c t hc => ((hall t).current c hc).1
  case current_started => exact fun c t hc => ((hall t).current c hc).2.1
  case pinned => exact fun c t hc => ((hall t).current c hc).2.2
  case not_runnable => exact fun t => (hall t).not_runnable
  case frees => exact fun c t => (hall t).frees c
  case frees_inj =>
    exact fun c c' t hf hf' => h.frees_inj c c' t (hfr c t hf) (hfr c' t hf')
  case canrun =>
    intro c hc
    obtain ⟨t, ht, ha⟩ := h.canrun c (hcan c hc).1
    refine ⟨t, hcr ▸ ht, ?_⟩
    by_cases heq : t = td
    · exact heq ▸ (hcan c hc).2 (heq ▸ ht) (heq ▸ ha)
    · rwa [(ho t heq).1]

theorem SchedulerInv.modify (f : SchedulerEntry κ → SchedulerEntry κ)
    (hf : ∀ se, (f se).exiting = se.exiting ∧ (f se).running = se.running)
    (hp : ∀ c, s.sched.currentThread c = some td → (f (s.sched.entry td)).pinned = true →
      (f (s.sched.entry td)).oncpu = some c)
    (hr : s.life td = .exiting → (f (s.sched.entry td)).runnable = false) :
    SchedulerInv { s with sched := s.sched.modify td f } := by
  have hth := h.thread td
  refine h.ofThread td rfl (fun c hc => ⟨hc, fun _ => id⟩) (fun _ _ => id) h.queueNodup
    h.exitingNodup (fun t ht => ⟨rfl, by simp [ht], Iff.rfl, Iff.rfl, fun _ => id⟩) ?_
  constructor <;> simp only [modify_entry, if_pos, hf]
  exacts [hth.mem_queue, hth.mem_exiting, hth.exiting, hth.running,
    fun c hc => ⟨(hth.current c hc).1, (hth.current c hc).2.1, hp c hc⟩, hr,
    hth.frees]

theorem SchedulerInv.setRunnable (hlf : s.life td = .fresh ∨ s.life td = .queued) :
    SchedulerInv { s with sched := schedulerThreadRunnable td s.sched } := by
  refine h.modify _ (fun _ => ⟨rfl, rfl⟩) (fun c hc => h.pinned c td hc) fun hl => ?_
  -- the thread is not exiting
  rcases hlf with hlf | hlf <;> rw [hlf] at hl <;> cases hl

theorem SchedulerInv.setSleeping (hcl : schedulerThreadSleeping td s.sched = .ok sched) :
    SchedulerInv { s with sched } := by
  rw [schedulerThreadSleeping] at hcl
  split at hcl
  · cases hcl
  cases hcl
  exact h.modify _ (fun _ => ⟨rfl, rfl⟩) (fun c hc => h.pinned c td hc) fun _ => rfl

theorem SchedulerInv.pin (hl : s.life td ≠ .unused)
    (hcl : schedulerCpuPin cpu td s.sched = .ok sched) :
    SchedulerInv { s with sched } := by
  rw [schedulerCpuPin] at hcl
  split_ifs at hcl with hrun
  cases hcl
  rw [not_or, Bool.not_eq_true, Bool.not_eq_true] at hrun
  refine h.modify _ (fun _ => ⟨rfl, rfl⟩) (fun c hc => ?_) fun _ => hrun.2
  rw [(h.running td hl).mpr ⟨c, hc⟩] at hrun
  cases hrun.1

theorem SchedulerInv.setLife {life : ThreadLife} (hold : s.life td = .awake ∨ s.life td = .queued)
    (hn : life = .awake ∨ life = .queued) :
    SchedulerInv { s with life := update s.life td life } := by
  have hth := h.thread td
  have ha : life.Active := by rcases hn with rfl | rfl <;> simp [ThreadLife.Active]
  have ha₀ : (s.life td).Active := by
    rcases hold with hl | hl <;> simp [ThreadLife.Active, hl]
  have hfr : life ≠ .fresh := by rcases hn with rfl | rfl <;> nofun
  refine h.ofThread td rfl (fun c hc => ⟨hc, fun _ _ => by simpa using ha⟩) (fun _ _ => id)
    h.queueNodup h.exitingNodup
    (fun t ht => ⟨by simp [ht], rfl, Iff.rfl, Iff.rfl, fun _ => id⟩) ?_
  constructor <;> simp only [update_self]
  case mem_queue => exact iff_of_true (hth.mem_queue.mpr ha₀) ha
  case mem_exiting =>
    exact iff_of_false (fun hm => ha₀.2 (hth.mem_exiting.mp hm).1) fun hl => ha.2 hl.1
  case exiting =>
    exact fun _ => iff_of_false (mt (hth.exiting ha₀.1).mp ha₀.2) ha.2
  case running => exact fun _ => hth.running ha₀.1
  case current => exact fun c hc => ⟨ha.1, hfr, (hth.current c hc).2.2⟩
  case not_runnable => exact fun hl => absurd hl ha.2
  case frees => exact fun c hf => absurd (hth.frees c hf).1 ha₀.2

omit [DecidableEq θ] in
theorem SchedulerInv.not_frees {t} (hl : s.life t ≠ .exiting) (c : κ) : ¬ (s.phase c).Frees t :=
  fun hf => hl (h.frees c t hf).1

theorem SchedulerInv.setup (hu : s.life td = .unused) :
    SchedulerInv { s with
      sched := schedulerThreadSetup td s.sched, life := update s.life td .fresh } := by
  have hn : td ∉ s.sched.sqQueue := by simp [h.mem_queue, ThreadLife.Active, hu]
  have hcur : ∀ c, s.sched.currentThread c ≠ some td := fun c hc => h.current_live c td hc hu
  have he : td ∉ s.sched.sqExiting := by simp [h.mem_exiting, hu]
  have hf := h.not_frees (by rw [hu]; nofun)
  refine h.ofThread td rfl (fun c hc => ⟨hc, fun hc => absurd hc (hcur c)⟩) (fun _ _ => id)
    (h.queueNodup.append (nodup_singleton td) (by simpa using hn)) h.exitingNodup
    (fun t ht => ⟨by simp [ht], by simp [schedulerThreadSetup, ht], by simp [ht], Iff.rfl,
      fun _ => id⟩) ?_
  constructor <;>
    simp [schedulerThreadSetup, SchedulerEntry.default, ThreadLife.Active, hcur, he, hf]

theorem SchedulerInv.exit (hr : s.Runs cpu td) (ha : s.life td = .awake)
    (hcl : schedulerThreadExiting cpu s.sched = .ok sched) :
    SchedulerInv { s with sched, life := update s.life td .exiting } := by
  have hac : td ∈ s.sched.sqQueue := (h.mem_queue td).mpr (by rw [ha]; simp [ThreadLife.Active])
  rw [schedulerThreadExiting, hr.1] at hcl
  dsimp only at hcl
  split at hcl
  · cases hcl
  have hmem : td ∈ (s.sched.modify td
      fun se => { se with runnable := false, exiting := true }).sqQueue := hac
  rw [threadqRemove, if_pos hmem] at hcl
  cases hcl
  have hn : td ∉ s.sched.sqExiting := by simp [h.mem_exiting, ha]
  have hf := h.not_frees (by rw [ha]; exact fun h => by cases h)
  have hrn := h.running td (by rw [ha]; exact fun h => by cases h)
  refine h.ofThread td rfl (fun c hc => ⟨hc, fun hcur => ?_⟩) (fun _ _ => id)
    (h.queueNodup.erase td) (concat_eq_append ▸ List.Nodup.concat hn h.exitingNodup)
    (fun t ht => ⟨by simp [ht], by simp [ht], mem_erase_of_ne ht, by simp [ht], fun _ => id⟩) ?_
  · -- the processor of the exiting thread is not in a call
    rw [h.current_inj c cpu td hcur hr.1, hr.2] at hc
    exact hc.elim
  · constructor <;> simp [ThreadLife.Active, hf, hrn, h.queueNodup.not_mem_erase]
    exact fun c => h.pinned c td

end

variable [DecidableEq κ]

variable {phase : SchedulePhase θ} {t : θ}

omit [DecidableEq θ] in
theorem frees_update :
    (update s.phase cpu phase c).Frees t ↔
      if c = cpu then phase.Frees t else (s.phase c).Frees t := by
  rw [update_apply]
  split <;> rfl

omit [DecidableEq θ] in
theorem canRun_update :
    (update s.phase cpu phase c).CanRun ↔
      if c = cpu then phase.CanRun else (s.phase c).CanRun := by
  rw [update_apply]
  split <;> rfl

variable {want : Option θ} {canrun : Bool}

omit [DecidableEq θ] in
theorem frees_freeing : (SchedulePhase.freeing td want canrun).Frees t ↔ td = t := by
  constructor
  · rintro ⟨w, b, heq⟩
    cases heq
    rfl
  · rintro rfl
    exact ⟨want, canrun, rfl⟩

omit [DecidableEq θ] in
theorem not_frees_outside : ¬ (SchedulePhase.outside : SchedulePhase θ).Frees t := nofun

omit [DecidableEq θ] in
theorem not_frees_relocking : ¬ (SchedulePhase.relocking want canrun).Frees t := nofun

theorem SchedulerInv.take (h : SchedulerInv s) (hid : ∀ t, ¬ (s.phase cpu).Frees t)
    (hcan : canrun = true → ∃ t, s.sched.currentThread cpu = some t ∧ (s.life t).Active)
    (hmem : td ∈ s.sched.sqExiting) (hrun : (s.sched.entry td).running = false) :
    SchedulerInv (s.after cpu { s.sched with sqExiting := s.sched.sqExiting.erase td }
      (.freeing td want canrun)) := by
  obtain ⟨hlf, hn⟩ := (h.mem_exiting td).mp hmem
  refine { h with
    exitingNodup := h.exitingNodup.erase td, mem_exiting := fun t => ?_, frees := fun c t hf => ?_
    frees_inj := fun c c' t hf hf' => ?_, canrun := fun c hc => ?_ }
  · dsimp only [SchedulerMachine.after]
    rw [h.exitingNodup.mem_erase_iff, h.mem_exiting]
    simp only [frees_update, frees_freeing]
    constructor
    · rintro ⟨hne, hl, hf⟩
      refine ⟨hl, fun c => ?_⟩
      split
      · exact fun heq => hne heq.symm
      · exact hf c
    · rintro ⟨hl, hf⟩
      refine ⟨fun heq => ?_, hl, fun c => ?_⟩
      · have := hf cpu
        rw [if_pos rfl] at this
        exact this heq.symm
      · by_cases hc : c = cpu
        · rw [hc]
          exact hid t
        · have := hf c
          rwa [if_neg hc] at this
  · replace hf := frees_update.mp hf
    split at hf
    · rw [← frees_freeing.mp hf]
      exact ⟨hlf, hrun⟩
    · exact h.frees c t hf
  · replace hf := frees_update.mp hf
    replace hf' := frees_update.mp hf'
    split at hf <;> split at hf'
    · rw [‹c = cpu›, ‹c' = cpu›]
    · exact absurd (frees_freeing.mp hf ▸ hf') (hn c')
    · exact absurd (frees_freeing.mp hf' ▸ hf) (hn c)
    · exact h.frees_inj c c' t hf hf'
  · replace hc := canRun_update.mp hc
    split at hc
    · rw [‹c = cpu›]
      exact hcan hc
    · exact h.canrun c hc

theorem SchedulerInv.free (h : SchedulerInv s) (hp : s.phase cpu = .freeing td want canrun) :
    SchedulerInv { s with
      phase := update s.phase cpu (.relocking want canrun)
      life := update s.life td .unused } := by
  have hfr : (s.phase cpu).Frees td := ⟨want, canrun, hp⟩
  obtain ⟨he, hrun⟩ := h.frees cpu td hfr
  have hcur : ∀ c, s.sched.currentThread c ≠ some td := by
    intro c hc
    rw [(h.running td (h.current_live c td hc)).mpr ⟨c, hc⟩] at hrun
    cases hrun
  have hq : td ∉ s.sched.sqQueue := by simp [h.mem_queue, ThreadLife.Active, he]
  have hn : td ∉ s.sched.sqExiting := fun hm => ((h.mem_exiting td).mp hm).2 cpu hfr
  have ho : ∀ c t, (update s.phase cpu (.relocking want canrun) c).Frees t →
      c ≠ cpu ∧ (s.phase c).Frees t := by
    intro c t hf
    rw [frees_update] at hf
    split at hf
    · exact absurd hf not_frees_relocking
    · exact ⟨‹_›, hf⟩
  refine h.ofThread td rfl (fun c hc => ⟨?_, fun hc => absurd hc (hcur c)⟩)
    (fun c t hf => (ho c t hf).2) h.queueNodup h.exitingNodup (fun t ht => ⟨by simp [ht], rfl,
      Iff.rfl, Iff.rfl, fun c hf => ?_⟩) ?_
  · rw [canRun_update] at hc
    split at hc
    · rw [‹c = cpu›, hp]
      exact hc
    · exact hc
  · rw [frees_update, if_neg]
    · exact hf
    · rintro rfl
      rw [hp] at hf
      exact ht (frees_freeing.mp hf).symm
  · constructor <;> simp only [update_self]
    case frees =>
      exact fun c hf => absurd (h.frees_inj c cpu td (ho c td hf).2 hfr) (ho c td hf).1
    all_goals simp [ThreadLife.Active, hcur, hq, hn]

theorem started_iff {life : ThreadLife} :
    (life.started = .unused ↔ life = .unused) ∧ (life.started = .exiting ↔ life = .exiting) ∧
      life.started ≠ .fresh := by
  cases life <;> simp [ThreadLife.started]

omit [DecidableEq θ] in
theorem SchedulerInv.only (h : SchedulerInv s) (ha : (s.life td).Active)
    (hm : s.sched.eligible cpu td = true ∨ s.sched.currentThread cpu = some td)
    (hc : s.sched.currentThread c = some td) : c = cpu := by
  rcases hm with he | hcur
  · -- a thread that may be chosen does not run
    have hr := (h.running td ha.1).mpr ⟨c, hc⟩
    simp [SchedulerState.eligible, hr] at he
  · exact h.current_inj c cpu td hc hcur

theorem life_switched (life : θ → ThreadLife) (td t : θ) :
    (update life td (life td).started t = .unused ↔ life t = .unused) ∧
      (update life td (life td).started t = .exiting ↔ life t = .exiting) := by
  rw [update_apply]
  split
  · rw [‹t = td›]
    exact ⟨started_iff.1, started_iff.2.1⟩
  · exact ⟨Iff.rfl, Iff.rfl⟩

variable {s₁ s₂ : SchedulerState κ θ}

theorem Switched.flags (h : Switched s₁ s₂ cpu td) : (s₂.entry t).exiting = (s₁.entry t).exiting ∧
      (s₂.entry t).runnable = (s₁.entry t).runnable := by
  rw [h.entry]
  split
  · rw [‹t = td›]
    exact ⟨rfl, rfl⟩
  · split <;> exact ⟨rfl, rfl⟩

theorem Switched.current_cases (h : Switched s₁ s₂ cpu td)
    (ho : ∀ c, s₁.currentThread c = some td → c = cpu) (hc : s₂.currentThread c = some t) :
    (c = cpu ∧ t = td) ∨ (c ≠ cpu ∧ t ≠ td ∧ s₁.currentThread c = some t) := by
  rw [h.current, update_apply] at hc
  split at hc
  · exact .inl ⟨‹_›, (Option.some.inj hc).symm⟩
  · refine .inr ⟨‹_›, ?_, hc⟩
    rintro rfl
    exact absurd (ho c hc) ‹_›

theorem Switched.running_iff (h : Switched s₁ s₂ cpu td)
    (ho : ∀ c, s₁.currentThread c = some td → c = cpu)
    (hinj : ∀ c c' t, s₁.currentThread c = some t → s₁.currentThread c' = some t → c = c')
    (hr : (s₁.entry t).running = true ↔ ∃ c, s₁.currentThread c = some t) :
    (s₂.entry t).running = true ↔ ∃ c, s₂.currentThread c = some t := by
  rw [h.entry]
  by_cases ht : t = td
  · rw [if_pos ht]
    exact iff_of_true rfl ⟨cpu, by rw [ht, h.current, update_self]⟩
  rw [if_neg ht]
  by_cases hold : s₁.currentThread cpu = some t
  -- the thread that was current is not any more, on any processor
  · rw [if_pos hold]
    refine iff_of_false (by simp) ?_
    rintro ⟨c, hc⟩
    rcases h.current_cases ho hc with ⟨-, rfl⟩ | ⟨hne, -, hc⟩
    · exact ht rfl
    · exact hne (hinj c cpu t hc hold)
  · rw [if_neg hold, hr]
    constructor
    · rintro ⟨c, hc⟩
      have hne : c ≠ cpu := by
        rintro rfl
        exact hold hc
      exact ⟨c, by rw [h.current, update_of_ne hne, hc]⟩
    · rintro ⟨c, hc⟩
      rcases h.current_cases ho hc with ⟨-, rfl⟩ | ⟨-, -, hc⟩
      · exact absurd rfl ht
      · exact ⟨c, hc⟩

omit [DecidableEq θ] in
theorem frees_of_outside (hf : (update s.phase cpu .outside c).Frees t) : (s.phase c).Frees t := by
  rw [frees_update] at hf
  split at hf
  · exact absurd hf not_frees_outside
  · exact hf

theorem SchedulerInv.switch (h : SchedulerInv s) (hs : Switched s.sched sched cpu td)
    (hid : ∀ t, ¬ (s.phase cpu).Frees t)
    (hm : s.sched.eligible cpu td = true ∨ s.sched.currentThread cpu = some td) :
    SchedulerInv (s.after cpu sched .outside) := by
  have hac := (h.mem_queue td).mp hs.linked
  have ho : ∀ c, s.sched.currentThread c = some td → c = cpu := fun c hc =>
    h.only hac hm hc
  have hcr : sched.currentThread cpu = some td := by
    rw [hs.current, update_self]
  have hu := fun t => (life_switched s.life td t).1
  have he := fun t => (life_switched s.life td t).2
  have hact : ∀ t, (update s.life td (s.life td).started t).Active ↔ (s.life t).Active :=
    fun t => and_congr (not_congr (hu t)) (not_congr (he t))
  constructor <;> simp only [SchedulerMachine.after, hcr]
  case queueNodup =>
    rw [hs.queue, ← concat_eq_append]
    exact List.Nodup.concat h.queueNodup.not_mem_erase (h.queueNodup.erase td)
  case exitingNodup =>
    rw [hs.exitingQueue]
    exact h.exitingNodup
  case mem_queue =>
    intro t
    rw [hact, ← h.mem_queue, hs.queue]
    by_cases ht : t = td
    · simp [ht, hs.linked]
    · simp [ht]
  case mem_exiting =>
    intro t
    rw [he, hs.exitingQueue, h.mem_exiting]
    refine and_congr_right fun _ => forall_congr' fun c => not_congr ?_
    rw [frees_update]
    split
    · rw [‹c = cpu›]
      exact iff_of_false (hid t) not_frees_outside
    · rfl
  case exiting =>
    intro t hl
    rw [hs.flags.1, he]
    exact h.exiting t (mt (hu t).mpr hl)
  case running =>
    intro t hl
    exact hs.running_iff ho h.current_inj (h.running t (mt (hu t).mpr hl))
  case current_inj =>
    intro c c' t hc hc'
    rcases hs.current_cases ho hc with ⟨rfl, rfl⟩ | ⟨-, hne, hc₀⟩
    · rcases hs.current_cases ho hc' with ⟨rfl, -⟩ | ⟨-, hne, -⟩
      · rfl
      · exact absurd rfl hne
    · rcases hs.current_cases ho hc' with ⟨-, rfl⟩ | ⟨-, -, hc₀'⟩
      · exact absurd rfl hne
      · exact h.current_inj c c' t hc₀ hc₀'
  case current_live =>
    intro c t hc
    rw [Ne, hu]
    rcases hs.current_cases ho hc with ⟨-, rfl⟩ | ⟨-, -, hc⟩
    · exact hac.1
    · exact h.current_live c t hc
  case current_started =>
    intro c t hc
    rcases hs.current_cases ho hc with ⟨-, rfl⟩ | ⟨-, hne, hc⟩
    · rw [update_self]
      exact started_iff.2.2
    · rw [update_of_ne hne]
      exact h.current_started c t hc
  case pinned =>
    intro c t hc
    rcases hs.current_cases ho hc with ⟨rfl, rfl⟩ | ⟨hne, htd, hc⟩
    · rw [hs.entry, if_pos rfl]
      exact fun _ => rfl
    · have hold : s.sched.currentThread cpu ≠ some t := fun hold =>
        hne (h.current_inj c cpu t hc hold)
      rw [hs.entry, if_neg htd, if_neg hold]
      exact h.pinned c t hc
  case not_runnable =>
    intro t hl
    rw [hs.flags.2]
    exact h.not_runnable t ((he t).mp hl)
  case frees =>
    intro c t hf
    obtain ⟨hl, hr⟩ := h.frees c t (frees_of_outside hf)
    -- the thread that runs now is not exiting
    have ht : t ≠ td := by
      rintro rfl
      exact hac.2 hl
    refine ⟨(he t).mpr hl, ?_⟩
    rw [hs.entry, if_neg ht]
    split
    · rfl
    · exact hr
  case frees_inj =>
    intro c c' t hf hf'
    exact h.frees_inj c c' t (frees_of_outside hf) (frees_of_outside hf')
  case canrun =>
    intro c hc
    rw [canRun_update] at hc
    split at hc
    · exact hc.elim
    · obtain ⟨t, ht, ha⟩ := h.canrun c hc
      exact ⟨t, by rw [hs.current, update_of_ne ‹_›, ht], (hact t).mpr ha⟩

theorem SchedulerInv.afterSection (h : SchedulerInv s) (hid : ∀ t, ¬ (s.phase cpu).Frees t)
    (hcan : canrun = true → ∃ t, s.sched.currentThread cpu = some t ∧ (s.life t).Active)
    (hc : schedulerSection cpu want canrun s.sched = .ok (sched, phase)) :
    SchedulerInv (s.after cpu sched phase) := by
  rcases schedulerSection_spec _ hc with
    ⟨td, hmem, hrun, heq⟩ | ⟨td, hp, hs, hm⟩
  · cases heq
    exact h.take hid hcan hmem hrun
  · obtain rfl : phase = .outside := hp
    exact h.switch hs hid (hm.imp_right And.left)

omit [DecidableEq θ] [DecidableEq κ] in
theorem SchedulerInv.canrun_current (h : SchedulerInv s) (hcan : s.sched.canrun cpu = true) :
    ∃ t, s.sched.currentThread cpu = some t ∧ (s.life t).Active := by
  rw [SchedulerState.canrun] at hcan
  split at hcan
  · cases hcan
  · rename_i otd hc
    refine ⟨otd, hc, h.current_live cpu otd hc, fun hl => ?_⟩
    rw [h.not_runnable otd hl] at hcan
    cases hcan

theorem SchedulerInv.step (h : SchedulerInv s) (hs : SchedulerStep s e s') : SchedulerInv s' := by
  cases hs with
  | setup hu => exact h.setup hu
  | runnable hl => exact h.setRunnable hl
  | pin hl hc => exact h.pin hl hc
  | enqueue _ hl => exact h.setLife (.inl hl) (.inr rfl)
  | sleeping _ hc => exact h.setSleeping hc
  | dequeue _ hl => exact h.setLife (.inr hl) (.inl rfl)
  | exiting hr hl hc => exact h.exit hr hl hc
  | @schedule cpu want sched phase hp hc =>
    exact h.afterSection (fun t => hp ▸ not_frees_outside) h.canrun_current hc
  | free hp => exact h.free hp
  | @resume cpu want canrun sched phase hp hc =>
    refine h.afterSection (fun t => hp ▸ not_frees_relocking) (fun hcan => ?_) hc
    exact h.canrun cpu (by rw [hp]; exact hcan)

/-! ## What a step does to one thread -/

theorem schedulerSection_outside {s s' : SchedulerState κ θ}
    (hc : schedulerSection cpu want canrun s = .ok (s', .outside)) :
    ∀ t ∈ s.sqExiting, (s.entry t).running = true := by
  intro t ht
  rw [schedulerSection] at hc
  split at hc
  · -- the call would be in `thread_free` after the section
    obtain ⟨_, _, hp⟩ := bind_eq_ok.mp hc
    cases hp
  · rename_i hf
    have hid := find?_eq_none.mp hf t ht
    simpa using hid

theorem SchedulerInv.returns (h : SchedulerInv s) (hs : SchedulerStep s e s')
    (he : (∃ want, e = .schedule cpu want) ∨ e = .resume cpu) (hp : s'.phase cpu = .outside)
    (hl : s.life td = .exiting) :
    (s.sched.entry td).running = true ∨ ∃ c, (s.phase c).Frees td := by
  by_contra hn
  rw [not_or, not_exists] at hn
  have hmem := (h.mem_exiting td).mpr ⟨hl, hn.2⟩
  have ha : ∀ t ∈ s.sched.sqExiting, (s.sched.entry t).running = true := by
    cases hs with
    | schedule _ hc | resume _ hc =>
      rcases he with ⟨_, he⟩ | he <;> cases he
      simp only [SchedulerMachine.after, update_self] at hp
      exact schedulerSection_outside (hp ▸ hc)
    | _ => rcases he with ⟨_, he⟩ | he <;> cases he
  exact hn.1 (ha td hmem)

/-- **What a step leaves of an entry**: a pinned thread keeps its processor for as long as it lives,
and only a thread that is made runnable becomes so. -/
def EntryKept (e : SchedulerEvent κ θ) (td : θ) (se se' : SchedulerEntry κ) : Prop :=
  (se.pinned = true → se'.pinned = true ∧ se'.oncpu = se.oncpu) ∧
    (se'.runnable = true → se.runnable = true ∨ e = .runnable td)

omit [DecidableEq κ] [DecidableEq θ] in
theorem EntryKept.refl {se : SchedulerEntry κ} : EntryKept e td se se := ⟨fun hp => ⟨hp, rfl⟩, .inl⟩

theorem SchedulerInv.section_entry (h : SchedulerInv s)
    (hc : schedulerSection cpu want canrun s.sched = .ok (sched, phase)) :
    EntryKept e td (s.sched.entry td) (sched.entry td) := by
  rcases schedulerSection_spec _ hc with
    ⟨_, -, -, heq⟩ | ⟨t, -, hs, hm⟩
  · cases heq
    exact .refl
  · refine ⟨fun hp => ?_, fun hr => .inl (hs.flags.2 ▸ hr)⟩
    rw [hs.entry]
    split
    · subst ‹td = t›
      refine ⟨hp, ?_⟩
      rcases hm with he | ⟨hcur, -⟩
      · rw [SchedulerState.eligible, hp] at he
        simp only [Bool.not_true, Bool.false_or, Bool.and_eq_true, decide_eq_true_eq] at he
        exact he.2.symm
      · exact (h.pinned cpu td hcur hp).symm
    · split <;> exact ⟨hp, rfl⟩

omit [DecidableEq κ] in
theorem entryKept_modify {t : θ} {f : SchedulerEntry κ → SchedulerEntry κ}
    (he : s₂.entry = (s₁.modify t f).entry)
    (h : td = t → EntryKept e t (s₁.entry t) (f (s₁.entry t))) :
    EntryKept e td (s₁.entry td) (s₂.entry td) := by
  rw [he, modify_entry]
  split
  · exact ‹td = t› ▸ h ‹_›
  · exact .refl

theorem SchedulerInv.entry_step (h : SchedulerInv s) (hs : SchedulerStep s e s')
    (hl : s.life td ≠ .unused) : EntryKept e td (s.sched.entry td) (s'.sched.entry td) := by
  cases hs with
  | setup hu => exact entryKept_modify (f := fun _ => .default) rfl fun ht => absurd (ht ▸ hu) hl
  | runnable => exact entryKept_modify rfl fun _ => ⟨fun hp => ⟨hp, rfl⟩, fun _ => .inr rfl⟩
  | pin _ hc =>
    rw [schedulerCpuPin] at hc
    split_ifs at hc with hrun hpin
    cases hc
    exact entryKept_modify rfl fun _ => ⟨fun hp => absurd hp hpin, .inl⟩
  | sleeping _ hc =>
    rw [schedulerThreadSleeping] at hc
    split_ifs at hc
    cases hc
    exact entryKept_modify rfl fun _ => ⟨fun hp => ⟨hp, rfl⟩, nofun⟩
  | exiting hr _ hc =>
    rw [schedulerThreadExiting, hr.1] at hc
    dsimp only at hc
    split_ifs at hc
    obtain ⟨_, -, hc⟩ := bind_eq_ok.mp hc
    cases hc
    exact entryKept_modify (f := fun se => { se with runnable := false, exiting := true }) rfl
      fun _ => ⟨fun hp => ⟨hp, rfl⟩, nofun⟩
  | schedule _ hc | resume _ hc => exact h.section_entry hc
  | enqueue | dequeue | free => exact .refl

/-! ## Set up and freed -/

def SchedulerEvent.setsUp : SchedulerEvent κ θ → θ → Bool
  | setup t, td => t = td
  | _, _ => false

def SchedulerEvent.releases : SchedulerEvent κ θ → θ → Bool
  | free _ t, td => t = td
  | _, _ => false

def setups (h : List (SchedulerMachine κ θ × SchedulerEvent κ θ)) (td : θ) : ℕ :=
  h.countP fun p => p.2.setsUp td

def frees (h : List (SchedulerMachine κ θ × SchedulerEvent κ θ)) (td : θ) : ℕ :=
  h.countP fun p => p.2.releases td

def SchedulerMachine.lives (s : SchedulerMachine κ θ) (td : θ) : ℕ :=
  if s.life td = .unused then 0 else 1

omit [DecidableEq θ] [DecidableEq κ] in
theorem lives_congr (hl : s'.life td = .unused ↔ s.life td = .unused) :
    s'.lives td = s.lives td := by
  simp only [SchedulerMachine.lives, hl]

theorem lives_after : (s.after cpu sched phase).lives td = s.lives td := by
  refine lives_congr ?_
  cases phase with
  | outside =>
    cases hc : sched.currentThread cpu with
    | none => simp only [SchedulerMachine.after, hc]
    | some t =>
      simp only [SchedulerMachine.after, hc]
      by_cases ht : td = t
      · rw [ht, update_self]
        exact started_iff.1
      · rw [update_of_ne ht]
  | freeing | relocking => rfl

theorem SchedulerInv.lives_step (h : SchedulerInv s) (hs : SchedulerStep s e s') (td : θ) :
    s'.lives td + (if e.releases td then 1 else 0) =
      s.lives td + (if e.setsUp td then 1 else 0) := by
  cases hs with
  | @setup t hu =>
    by_cases ht : td = t
    · simp [SchedulerMachine.lives, setsUp, releases, ht, hu]
    · simp [SchedulerMachine.lives, setsUp, releases, ht, Ne.symm ht]
  | runnable | pin | sleeping => rfl
  | @enqueue _ t _ hl | @dequeue _ t _ hl | @exiting _ t _ _ hl =>
    refine congrArg (· + 0) (lives_congr ?_)
    by_cases ht : td = t
    · simp [ht, hl]
    · simp [ht]
  | schedule | resume => exact congrArg (· + 0) lives_after
  | @free cpu t want canrun hp =>
    have hl := (h.frees cpu t ⟨want, canrun, hp⟩).1
    by_cases ht : td = t
    · simp [SchedulerMachine.lives, setsUp, releases, ht, hl]
    · simp [SchedulerMachine.lives, setsUp, releases, ht, Ne.symm ht]

/-! ## Every run -/

def SchedulerMachine.boot : SchedulerMachine κ θ where
  sched := ⟨fun _ => .default, [], [], fun _ => none⟩
  phase := fun _ => .outside
  life := fun _ => .unused

omit [DecidableEq θ] [DecidableEq κ] in
theorem schedulerInv_boot : SchedulerInv (SchedulerMachine.boot : SchedulerMachine κ θ) := by
  constructor <;>
    simp [SchedulerMachine.boot, ThreadLife.Active, SchedulePhase.Frees, SchedulePhase.CanRun]

variable {h : List (SchedulerMachine κ θ × SchedulerEvent κ θ)}

section

variable (hrun : Run SchedulerStep SchedulerMachine.boot h s)
include hrun

theorem schedulerInv_run : SchedulerInv s :=
  hrun.invariant schedulerInv_boot fun _ _ _ _ _ hinv hs =>
    hinv.step hs

theorem frees_add_lives (td : θ) : frees h td + s.lives td = setups h td := by
  refine hrun.invariant rfl ?_
  intro h s e s' hrun ih hs
  have hst := (schedulerInv_run hrun).lives_step hs td
  rw [frees, setups] at ih ⊢
  simp only [countP_append, countP_singleton]
  omega

end

/-- **The scheduler is sound.** In every state that the processors reach, each thread that is not
being passed to `thread_free` is linked once, in the queue that its flag says; it runs exactly if it
is the current thread of one processor, its own if it is pinned; it is freed once in each life, and
not while it runs or is not exiting; and `scheduler_schedule` returns only when each exiting thread
that does not run is freed. -/
theorem scheduler_sound (hrun : Run SchedulerStep SchedulerMachine.boot h s) :
    (∀ td, s.life td ≠ .unused → (∀ c, ¬ (s.phase c).Frees td) →
      s.sched.sqQueue.count td + s.sched.sqExiting.count td = 1 ∧
        (td ∈ s.sched.sqExiting ↔ (s.sched.entry td).exiting = true)) ∧
    (∀ td, s.life td ≠ .unused →
      ((s.sched.entry td).running = true ↔ ∃! c, s.sched.currentThread c = some td)) ∧
    (∀ c td, s.sched.currentThread c = some td → (s.sched.entry td).pinned = true →
      (s.sched.entry td).oncpu = some c) ∧
    (∀ e s' td, SchedulerStep s e s' → s.life td ≠ .unused → (s.sched.entry td).pinned = true →
      (s'.sched.entry td).oncpu = (s.sched.entry td).oncpu) ∧
    (∀ td, frees h td + (if s.life td = .unused then 0 else 1) = setups h td) ∧
    (∀ t c td, (t, .free c td) ∈ h →
      (t.sched.entry td).exiting = true ∧ (t.sched.entry td).running = false) ∧
    (∀ e s' c td, SchedulerStep s e s' → (∃ want, e = .schedule c want) ∨ e = .resume c →
      s'.phase c = .outside → s.life td = .exiting →
      (s.sched.entry td).running = true ∨ ∃ c, (s.phase c).Frees td) := by
  have hinv := schedulerInv_run hrun
  refine ⟨fun td hl hf => ?_, fun td hl => ?_, hinv.pinned, ?_, frees_add_lives hrun, ?_, ?_⟩
  · have hfl := hinv.exiting td hl
    have hmem : td ∈ s.sched.sqExiting ↔ s.life td = .exiting :=
      (hinv.mem_exiting td).trans (and_iff_left hf)
    refine ⟨?_, hmem.trans hfl.symm⟩
    by_cases hx : s.life td = .exiting
    · have ho : td ∉ s.sched.sqQueue := fun hq => ((hinv.mem_queue td).mp hq).2 hx
      rw [count_eq_zero_of_not_mem ho, count_eq_one_of_mem hinv.exitingNodup (hmem.mpr hx)]
    · have hin : td ∈ s.sched.sqQueue := (hinv.mem_queue td).mpr ⟨hl, hx⟩
      rw [count_eq_one_of_mem hinv.queueNodup hin, count_eq_zero_of_not_mem (mt hmem.mp hx)]
  · rw [hinv.running td hl]
    refine ⟨?_, ExistsUnique.exists⟩
    rintro ⟨c, hc⟩
    exact ⟨c, hc, fun c' hc' => hinv.current_inj c' c td hc' hc⟩
  · intro e s' td hs hl hp
    exact ((hinv.entry_step hs hl).1 hp).2
  · intro t c td hmem
    obtain ⟨h₁, _, t', -, hr, hs⟩ := hrun.step_of_mem hmem
    have hinv' := schedulerInv_run hr
    cases hs with
    | @free _ _ want canrun hph =>
      obtain ⟨hl, hrun'⟩ := hinv'.frees c td ⟨want, canrun, hph⟩
      exact ⟨(hinv'.exiting td (by rw [hl]; nofun)).mpr hl, hrun'⟩
  · intro e s' c td hs he hph hl
    exact hinv.returns hs he hph hl

/-- Two threads on one processor: the first one exits, and the second one runs. -/
def exitedRun : { x : List _ × SchedulerMachine (Fin 1) (Fin 2) //
    Run SchedulerStep SchedulerMachine.boot x.1 x.2 } := by
  have h₁ := Run.nil.snoc (@SchedulerStep.setup (Fin 1) (Fin 2) _ _ SchedulerMachine.boot 0 rfl)
  have h₂ := h₁.snoc (@SchedulerStep.setup _ _ _ _ _ 1 rfl)
  have h₃ := h₂.snoc (@SchedulerStep.runnable _ _ _ _ _ 0 (.inl rfl))
  have h₄ := h₃.snoc (@SchedulerStep.runnable _ _ _ _ _ 1 (.inl rfl))
  have h₅ := h₄.snoc (@SchedulerStep.schedule _ _ _ _ _ 0 none _ .outside rfl rfl)
  have h₆ := h₅.snoc (@SchedulerStep.exiting _ _ _ _ _ 0 0 _ ⟨rfl, rfl⟩ rfl rfl)
  exact ⟨(_, _), h₆.snoc (@SchedulerStep.schedule _ _ _ _ _ 0 none _ .outside rfl rfl)⟩

/-- The second thread frees the first one when it calls `scheduler_schedule` itself. -/
theorem scheduler_sound_exit :
    ∃ (h : List (SchedulerMachine (Fin 1) (Fin 2) × SchedulerEvent (Fin 1) (Fin 2)))
      (s : SchedulerMachine (Fin 1) (Fin 2)),
      Run SchedulerStep SchedulerMachine.boot h s ∧ setups h 0 = 1 ∧ frees h 0 = 1 ∧
        s.sched.currentThread 0 = some 1 ∧
        (s.sched.sqQueue.count 1 + s.sched.sqExiting.count 1 = 1 ∧
          (1 ∈ s.sched.sqExiting ↔ (s.sched.entry 1).exiting = true)) := by
  have h₈ := exitedRun.2.snoc
    (@SchedulerStep.schedule _ _ _ _ _ 0 none _ (.freeing 0 none true) rfl rfl)
  have h₉ := h₈.snoc (@SchedulerStep.free _ _ _ _ _ 0 0 _ _ rfl)
  have h₁₀ := h₉.snoc (@SchedulerStep.resume _ _ _ _ _ 0 none true _ .outside rfl rfl)
  refine ⟨_, _, h₁₀, rfl, rfl, rfl, (scheduler_sound h₁₀).1 1 (by decide) ?_⟩
  rintro c ⟨want, canrun, hf⟩
  obtain rfl : c = 0 := Subsingleton.elim c 0
  cases hf

end Steps

end Glatt
