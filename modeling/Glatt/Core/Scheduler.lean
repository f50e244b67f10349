import Glatt.Lib.Outcome
import Glatt.Lib.Transition

/-!
# The scheduler

The functions of `core_scheduler.c`, and the scheduler in operation on any number of processors. All
threads are linked in one queue, and those that exit in another one. A function is one section under
the lock of the scheduler, except `scheduler_schedule`, which drops the lock to free a thread and
then starts its search again.

## Main definitions

* `SchedulerState`: the queues, the entries of threads and the current threads
* `SchedulerMachine`, `SchedulerStep`: processors that call the functions

## Main results

* `schedulerSection_spec`: what a section of `scheduler_schedule` can do
-/

namespace Glatt

open Imperative Transition Function

variable {κ θ : Type} [DecidableEq κ] [DecidableEq θ]

/-! ## Entries and queues -/

/-- `struct scheduler_entry`: the bits of `se_flags`, and the processor, where `none` is
`CPU_ID_INVALID`. -/
structure SchedulerEntry (κ : Type) where
  running : Bool
  pinned : Bool
  sleeping : Bool
  runnable : Bool
  exiting : Bool
  oncpu : Option κ
  deriving DecidableEq

def SchedulerEntry.default : SchedulerEntry κ := ⟨false, false, false, false, false, none⟩

/-- The entries of the threads, the queues, and the current thread of each processor. -/
structure SchedulerState (κ θ : Type) where
  entry : θ → SchedulerEntry κ
  sqQueue : List θ
  sqExiting : List θ
  currentThread : κ → Option θ

def SchedulerState.modify (s : SchedulerState κ θ) (td : θ)
    (f : SchedulerEntry κ → SchedulerEntry κ) : SchedulerState κ θ :=
  { s with entry := update s.entry td (f (s.entry td)) }

/-- `TAILQ_REMOVE` for the entries of threads, which needs one that is linked. -/
def threadqRemove (l : List θ) (td : θ) : Outcome (List θ) :=
  if td ∈ l then pure (l.erase td) else .error .fault

/-! ## The functions for one thread -/

def schedulerThreadSetup (td : θ) (s : SchedulerState κ θ) : SchedulerState κ θ :=
  let s := s.modify td fun _ => .default
  { s with sqQueue := s.sqQueue ++ [td] }

def schedulerThreadRunnable (td : θ) (s : SchedulerState κ θ) : SchedulerState κ θ :=
  s.modify td fun se => { se with sleeping := false, runnable := true }

def schedulerThreadSleeping (td : θ) (s : SchedulerState κ θ) : Outcome (SchedulerState κ θ) :=
  if (s.entry td).sleeping then .error .panic
  else pure (s.modify td fun se => { se with runnable := false, sleeping := true })

def schedulerCpuPin (cpu : κ) (td : θ) (s : SchedulerState κ θ) : Outcome (SchedulerState κ θ) :=
  if (s.entry td).running ∨ (s.entry td).runnable then .error .panic
  else if (s.entry td).pinned then .error .panic
  else pure (s.modify td fun se => { se with pinned := true, oncpu := some cpu })

/-- `scheduler_thread_exiting`, called on the processor `cpu` by its current thread. -/
def schedulerThreadExiting (cpu : κ) (s : SchedulerState κ θ) : Outcome (SchedulerState κ θ) :=
  match s.currentThread cpu with
  | none => .error .fault
  | some td =>
    if (s.entry td).exiting then .error .panic
    else do
      let s := s.modify td fun se => { se with runnable := false, exiting := true }
      let sqQueue ← threadqRemove s.sqQueue td
      pure { s with sqQueue, sqExiting := s.sqExiting ++ [td] }

/-! ## Switching -/

/-- The part of `scheduler_switch` for the old thread, if there is one. Where that is not pinned, it
is the processor of the new thread that is reset. -/
def schedulerLeave (cpu : κ) (td : θ) (s : SchedulerState κ θ) : SchedulerState κ θ :=
  match s.currentThread cpu with
  | none => s
  | some otd =>
    let s := s.modify otd fun ose => { ose with running := false }
    if (s.entry otd).pinned then s else s.modify td fun se => { se with oncpu := none }

/-- The part of `scheduler_switch` for the new thread, to which the processor switches. -/
def schedulerEnter (cpu : κ) (td : θ) (s : SchedulerState κ θ) : SchedulerState κ θ :=
  let s := s.modify td fun se => { se with running := true }
  let s := s.modify td fun se => { se with oncpu := some cpu }
  { s with currentThread := update s.currentThread cpu (some td) }

def schedulerSwitch (cpu : κ) (td : θ) (s : SchedulerState κ θ) : Outcome (SchedulerState κ θ) := do
  let sqQueue ← threadqRemove s.sqQueue td
  let s := { s with sqQueue := sqQueue ++ [td] }
  pure (schedulerEnter cpu td (schedulerLeave cpu td s))

/-- The thread may be chosen on the processor: it is runnable, it does not run, and it is not pinned
to another processor. -/
def SchedulerState.eligible (s : SchedulerState κ θ) (cpu : κ) (td : θ) : Bool :=
  (s.entry td).runnable && !(s.entry td).running &&
    (!(s.entry td).pinned || decide ((s.entry td).oncpu = some cpu))

/-- `scheduler_idle`, called on the processor `cpu`: no thread but the current one may be chosen
there. -/
def schedulerIdle (cpu : κ) (s : SchedulerState κ θ) : Bool :=
  s.sqQueue.all fun td => decide (s.currentThread cpu = some td) || !s.eligible cpu td

/-- Where a processor is: outside of `scheduler_schedule`, in its call of `thread_free`, or about to
take the lock again. -/
inductive SchedulePhase (θ : Type)
  | outside
  | freeing (td : θ) (want : Option θ) (canrun : Bool)
  | relocking (want : Option θ) (canrun : Bool)
  deriving DecidableEq

/-- `scheduler_schedule` from its label `restart` until it drops the lock: it takes an exiting
thread that does not run, to free it; or switches to a thread, `want` where that is given; or else
goes on with the current thread. -/
def schedulerSection (cpu : κ) (want : Option θ) (canrun : Bool) (s : SchedulerState κ θ) :
    Outcome (SchedulerState κ θ × SchedulePhase θ) :=
  match s.sqExiting.find? fun td => !(s.entry td).running with
  | some td => do
    let sqExiting ← threadqRemove s.sqExiting td
    pure ({ s with sqExiting }, .freeing td want canrun)
  | none =>
    match s.sqQueue.find? fun td => s.eligible cpu td && want.all fun t => decide (td = t) with
    | some td => do
      let s ← schedulerSwitch cpu td s
      pure (s, .outside)
    | none =>
      if canrun then
        match s.currentThread cpu with
        | some otd => do
          let s ← schedulerSwitch cpu otd s
          pure (s, .outside)
        | none => .error .fault
      else .error .panic

/-- The current thread can go on: the value of `canrun` at the start of `scheduler_schedule`. -/
def SchedulerState.canrun (s : SchedulerState κ θ) (cpu : κ) : Bool :=
  match s.currentThread cpu with
  | none => false
  | some otd => (s.entry otd).runnable

/-! ## The scheduler in operation -/

/-- The life of a thread: its record is not in use; it has been set up and has not run yet; it runs
or may run; it is in `sleepq_enter`, linked in a sleep queue; or it has called `thread_exit`. -/
inductive ThreadLife
  | unused
  | fresh
  | awake
  | queued
  | exiting
  deriving DecidableEq

/-- The scheduler, where each processor is in `scheduler_schedule`, and the lives of the threads. -/
structure SchedulerMachine (κ θ : Type) where
  sched : SchedulerState κ θ
  phase : κ → SchedulePhase θ
  life : θ → ThreadLife

/-- What a step does. -/
inductive SchedulerEvent (κ θ : Type)
  | setup (td : θ)
  | runnable (td : θ)
  | pin (cpu : κ) (td : θ)
  | enqueue (cpu : κ) (td : θ)
  | sleeping (td : θ)
  | dequeue (cpu : κ) (td : θ)
  | exiting (cpu : κ) (td : θ)
  | schedule (cpu : κ) (want : Option θ)
  | free (cpu : κ) (td : θ)
  | resume (cpu : κ)
  deriving DecidableEq

def ThreadLife.started : ThreadLife → ThreadLife
  | fresh => awake
  | life => life

def SchedulerMachine.after (s : SchedulerMachine κ θ) (cpu : κ) (sched : SchedulerState κ θ)
    (phase : SchedulePhase θ) : SchedulerMachine κ θ where
  sched := sched
  phase := update s.phase cpu phase
  life :=
    match phase, sched.currentThread cpu with
    | .outside, some td => update s.life td (s.life td).started
    | _, _ => s.life

/-- The thread is the current one of the processor, which is not in `scheduler_schedule`. -/
def SchedulerMachine.Runs (s : SchedulerMachine κ θ) (cpu : κ) (td : θ) : Prop :=
  s.sched.currentThread cpu = some td ∧ s.phase cpu = .outside

/-- **One step**, as callers make it: `scheduler_thread_setup` gets a record that is not in use,
`scheduler_thread_runnable` a new thread or one that is linked in a sleep queue, and a thread exits
outside of `sleepq_enter`. -/
inductive SchedulerStep : SchedulerMachine κ θ → SchedulerEvent κ θ → SchedulerMachine κ θ → Prop
  | setup {s td} : s.life td = .unused →
      SchedulerStep s (.setup td) { s with
        sched := schedulerThreadSetup td s.sched, life := update s.life td .fresh }
  | runnable {s td} : s.life td = .fresh ∨ s.life td = .queued →
      SchedulerStep s (.runnable td) { s with sched := schedulerThreadRunnable td s.sched }
  | pin {s cpu td sched} : s.life td ≠ .unused → schedulerCpuPin cpu td s.sched = .ok sched →
      SchedulerStep s (.pin cpu td) { s with sched }
  | enqueue {s cpu td} : s.Runs cpu td → s.life td = .awake →
      SchedulerStep s (.enqueue cpu td) { s with life := update s.life td .queued }
  | sleeping {s td sched} : s.life td ≠ .unused → schedulerThreadSleeping td s.sched = .ok sched →
      SchedulerStep s (.sleeping td) { s with sched }
  | dequeue {s cpu td} : s.Runs cpu td → s.life td = .queued →
      SchedulerStep s (.dequeue cpu td) { s with life := update s.life td .awake }
  | exiting {s cpu td sched} : s.Runs cpu td → s.life td = .awake →
      schedulerThreadExiting cpu s.sched = .ok sched →
      SchedulerStep s (.exiting cpu td) { s with
        sched, life := update s.life td .exiting }
  | schedule {s cpu want sched phase} : s.phase cpu = .outside →
      schedulerSection cpu want (s.sched.canrun cpu) s.sched = .ok (sched, phase) →
      SchedulerStep s (.schedule cpu want) (s.after cpu sched phase)
  | free {s cpu td want canrun} : s.phase cpu = .freeing td want canrun →
      SchedulerStep s (.free cpu td) { s with
        phase := update s.phase cpu (.relocking want canrun)
        life := update s.life td .unused }
  | resume {s cpu want canrun sched phase} : s.phase cpu = .relocking want canrun →
      schedulerSection cpu want canrun s.sched = .ok (sched, phase) →
      SchedulerStep s (.resume cpu) (s.after cpu sched phase)

/-! ## What the functions do -/

section Functions

variable {s : SchedulerState κ θ} {cpu : κ} {td : θ} {f : SchedulerEntry κ → SchedulerEntry κ}

section

omit [DecidableEq κ]

@[simp] theorem modify_entry (t : θ) :
    (s.modify td f).entry t = if t = td then f (s.entry td) else s.entry t := by
  simp only [SchedulerState.modify, update_apply]

@[simp] theorem modify_sqQueue : (s.modify td f).sqQueue = s.sqQueue := rfl

@[simp] theorem modify_sqExiting : (s.modify td f).sqExiting = s.sqExiting := rfl

@[simp] theorem modify_currentThread : (s.modify td f).currentThread = s.currentThread := rfl

@[simp] theorem schedulerThreadSetup_currentThread :
    (schedulerThreadSetup td s).currentThread = s.currentThread := rfl

@[simp] theorem schedulerThreadSetup_sqExiting :
    (schedulerThreadSetup td s).sqExiting = s.sqExiting := rfl

@[simp] theorem schedulerThreadSetup_sqQueue :
    (schedulerThreadSetup td s).sqQueue = s.sqQueue ++ [td] := rfl

end

/-- The state after a switch: the new thread is the last one of the queue and runs on the processor,
and the old thread does not run any more. -/
structure Switched (s s' : SchedulerState κ θ) (cpu : κ) (td : θ) : Prop where
  linked : td ∈ s.sqQueue
  queue : s'.sqQueue = s.sqQueue.erase td ++ [td]
  exitingQueue : s'.sqExiting = s.sqExiting
  current : s'.currentThread = update s.currentThread cpu (some td)
  entry : ∀ t, s'.entry t =
    if t = td then { s.entry td with running := true, oncpu := some cpu }
    else if s.currentThread cpu = some t then { s.entry t with running := false }
    else s.entry t

section

omit [DecidableEq κ]

theorem schedulerLeave_queues (s : SchedulerState κ θ) :
    (schedulerLeave cpu td s).sqQueue = s.sqQueue ∧
      (schedulerLeave cpu td s).sqExiting = s.sqExiting ∧
      (schedulerLeave cpu td s).currentThread = s.currentThread := by
  rw [schedulerLeave]
  split
  · exact ⟨rfl, rfl, rfl⟩
  · dsimp only
    split <;> exact ⟨rfl, rfl, rfl⟩

theorem schedulerLeave_entry {t : θ} (s : SchedulerState κ θ) (ht : t ≠ td) :
    (schedulerLeave cpu td s).entry t =
      if s.currentThread cpu = some t then { s.entry t with running := false } else s.entry t := by
  rw [schedulerLeave]
  split
  · rename_i hc
    simp [hc]
  · rename_i otd hc
    have hcur : s.currentThread cpu = some t ↔ t = otd := by
      rw [hc, Option.some_inj, eq_comm]
    simp only [hcur]
    split
    · rw [modify_entry]
      split
      · rw [‹t = otd›]
      · rfl
    · rw [modify_entry, if_neg ht, modify_entry]
      split
      · rw [‹t = otd›]
      · rfl

theorem schedulerLeave_entry_self (cpu : κ) (td : θ) (s : SchedulerState κ θ) :
    { (schedulerLeave cpu td s).entry td with running := true, oncpu := some cpu } =
      { s.entry td with running := true, oncpu := some cpu } := by
  rw [schedulerLeave]
  split
  · rfl
  · rename_i otd hc
    by_cases ht : td = otd
    · subst ht
      dsimp only
      split <;> simp
    · dsimp only
      split <;> simp [ht]

end

theorem schedulerSwitch_spec :
    Yields (schedulerSwitch cpu td s) fun s' => Switched s s' cpu td := by
  rw [schedulerSwitch, threadqRemove]
  split
  · rename_i hl
    rw [pure_bind]
    obtain ⟨hq, he, hc⟩ := schedulerLeave_queues { s with sqQueue := s.sqQueue.erase td ++ [td] }
    refine .ret ⟨hl, hq, he, ?_, fun t => ?_⟩
    · exact congrArg (fun f => update f cpu (some td)) hc
    · by_cases ht : t = td
      · subst ht
        have hs := schedulerLeave_entry_self cpu t { s with sqQueue := s.sqQueue.erase t ++ [t] }
        rw [if_pos rfl]
        refine Eq.trans ?_ hs
        simp [schedulerEnter]
      · rw [if_neg ht]
        refine Eq.trans ?_
          (schedulerLeave_entry { s with sqQueue := s.sqQueue.erase td ++ [td] } ht)
        simp [schedulerEnter, ht]
  · exact yields_error

theorem schedulerSection_spec {want : Option θ} {canrun : Bool} :
    Yields (schedulerSection cpu want canrun s) fun p =>
      (∃ td ∈ s.sqExiting, (s.entry td).running = false ∧
        p = ({ s with sqExiting := s.sqExiting.erase td }, .freeing td want canrun)) ∨
      (∃ td, p.2 = .outside ∧ Switched s p.1 cpu td ∧
        (s.eligible cpu td = true ∨ s.currentThread cpu = some td ∧ canrun = true)) := by
  rw [schedulerSection]
  split
  · rename_i td hf
    have hmem := List.mem_of_find?_eq_some hf
    have hid := List.find?_some hf
    rw [threadqRemove, if_pos hmem]
    exact .ret (.inl ⟨td, hmem, by simpa using hid, rfl⟩)
  split
  · rename_i td hf
    have he := List.find?_some hf
    rw [Bool.and_eq_true] at he
    refine schedulerSwitch_spec.bind fun s' hs' => ?_
    exact .ret (.inr ⟨td, rfl, hs', .inl he.1⟩)
  split
  · rename_i hcn
    split
    · rename_i otd hc
      refine schedulerSwitch_spec.bind fun s' hs' => ?_
      exact .ret (.inr ⟨otd, rfl, hs', .inr ⟨hc, hcn⟩⟩)
    · exact yields_error
  · exact yields_error

end Functions

end Glatt
