import Glatt.Core.Dispatch
import Glatt.Core.Exec
import Glatt.Core.Scheduler
import Glatt.Core.Task
import Glatt.Vm.IndexUse
import Glatt.Vm.Refill

/-!
# Executing a program in a new task

`exec_task` creates a task with its address space and its port, then a thread with its stacks, which
is entered in the queue of the scheduler, and only then looks at the file. An error of a later step
is returned as it is: nothing that has been created is destroyed.

## Main definitions

* `execTask`: the function
* `NoTrace`: the tasks, threads, ports and pages that were there before

## Main results

* `failed_exec_leaves_task`: every call that fails leaves the task that it has created
* `failed_exec_leaves`: a file without the magic number leaves a task with all its parts
-/

namespace Glatt

open Imperative

/-! ## The call -/

section Exec

variable {κ θ τ ν ι : Type} [DecidableEq θ] [LinearOrder τ] [DecidableEq ν] [DecidableEq ι]

/-- `vm_setup` of the address space of a user task. `vm` and `pm` are what the pools return. -/
def vmSetup (vm : Option ν) (pm : Bool) (new : Option ι) (s : VmState ν ι) :
    Outcome (VmState ν ι × Except Errno ν) :=
  match vm, pm with
  | none, _ => pure (s, .error .exhausted)
  | some vm, false => pure (s.setIndex vm (vmSetup2 (s.index vm)), .error .exhausted)
  | some vm, true => do
    let s := { s with mem := s.mem.setPmap vm userPmap }
    let (index, r) ← vmInsertRange new (userBase + pageSize) userEnd (vmSetup2 (s.index vm))
    pure (s.setIndex vm index, r.map fun _ => vm)

/-- The tasks and their ports, the scheduler, and the address spaces. -/
structure ExecSystem (κ θ τ ν ι : Type) [LinearOrder τ] where
  tasks : TaskMachine θ τ
  sched : SchedulerState κ θ
  vm : VmState ν ι

/-- What the pools return to a call, in the order in which it asks them. The code tests for `NULL`,
which `pool_allocate` never returns. -/
structure ExecEnv (θ τ ν ι : Type) extends Supply ι where
  task : Option τ
  vm : Option ν
  pm : Bool
  range : Option ι
  thread : Option θ
  (load₁ load₂ load₃ load₄ : Option ι)

def taskDefault : UInt32 := 0

variable (kernelVm : ν) (env : ExecEnv θ τ ν ι)

def execTaskCreate (current : τ) (parent : UInt32) (s : ExecSystem κ θ τ ν ι) :
    Outcome (ExecSystem κ θ τ ν ι × Except Errno (τ × ν)) :=
  match env.task with
  | none => pure (s, .error .exhausted)
  | some task => do
    match ← vmSetup env.vm env.pm env.range s.vm with
    | (_, .error _) => .error .panic
    | (vm, .ok tVm) =>
      let (tasks, r) ← taskCreate env.mem (some task) (.ok ()) current parent taskDefault s.tasks
      pure ({ s with tasks, vm }, r.map fun task => (task, tVm))

def execThreadCreate (task : τ) (vm : ν) (s : ExecSystem κ θ τ ν ι) :
    Outcome (ExecSystem κ θ τ ν ι × Except Errno θ) :=
  match env.thread with
  | none => pure (s, .error .exhausted)
  | some td => do
    let sched := schedulerThreadSetup td s.sched
    let (vm, r) ← cpuThreadSetup kernelVm env.toSupply vm s.vm
    let (tasks, td) ← threadCreate (some td) r task s.tasks
    pure (⟨tasks, sched, vm⟩, td)

/-- `exec_task`: what it has written to `*childp`, and the address at which the thread will enter
the program. -/
def execTask (f : FileReader) (current : τ) (parent : UInt32) (s : ExecSystem κ θ τ ν ι) :
    Outcome (ExecSystem κ θ τ ν ι × Option UInt32 × Except Errno UInt64) := do
  match ← execTaskCreate env current parent s with
  | (s, .error e) => pure (s, none, .error e)
  | (s, .ok (task, vm)) =>
    let childp := (s.tasks.taskList task).bind Task.ipctTaskPort
    match ← execThreadCreate kernelVm env task vm s with
    | (s, .error e) => pure (s, childp, .error e)
    | (s, .ok td) =>
      let load := execElf64Load kernelVm f env.load₁ env.load₂ env.load₃ env.load₄ vm s.vm
      match ← load.outcome with
      | (vm, .error e) => pure ({ s with vm }, childp, .error e)
      | (vm, .ok entry) =>
        pure ({ s with vm, sched := schedulerThreadRunnable td s.sched }, childp, .ok entry)

/-- **No trace**: the tasks, the threads, the queue of the scheduler, the registered ports and the
addresses in use of the kernel are the same. -/
structure NoTrace (s s' : ExecSystem κ θ τ ν ι) : Prop where
  tasks : ∀ t, (s'.tasks.taskList t).isSome = (s.tasks.taskList t).isSome
  threads : ∀ td, (s'.tasks.tdTask td).isSome = (s.tasks.tdTask td).isSome
  queue : s'.sched.sqQueue = s.sched.sqQueue
  ports : ∀ p, (s'.tasks.ipc.ipc.ipcPorts p).isSome = (s.tasks.ipc.ipc.ipcPorts p).isSome
  kernel : ∀ v, InUseAt (s'.vm.index kernelVm) v ↔ InUseAt (s.vm.index kernelVm) v

variable {kernelVm env} {s : ExecSystem κ θ τ ν ι} {task : τ}

/-! ## What an error leaves -/

omit [DecidableEq θ] in
theorem execTaskCreate_listed (ht : env.task = some task) (current : τ) (parent : UInt32) :
    Yields (execTaskCreate env current parent s) fun p =>
      (∃ vm, p.2 = .ok (task, vm)) ∧ (p.1.tasks.taskList task).isSome := by
  rw [execTaskCreate, ht]
  refine yields_bind_of_forall ?_
  rintro ⟨-, r⟩
  cases r with
  | error e => exact yields_error
  | ok tVm =>
    refine Yields.bind (P := fun p => p.2 = .ok task ∧ (p.1.taskList task).isSome) ?_ ?_
    · rw [taskCreate]
      refine yields_bind_of_forall ?_
      rintro ⟨-, r⟩
      cases r with
      | error e => exact yields_error
      | ok port => exact .ret ⟨rfl, by simp⟩
    · rintro ⟨tasks, r⟩ ⟨rfl, hl⟩
      exact .ret ⟨⟨tVm, rfl⟩, hl⟩

theorem execThreadCreate_listed (hl : (s.tasks.taskList task).isSome) (vm : ν) :
    Yields (execThreadCreate kernelVm env task vm s) fun p =>
      (p.1.tasks.taskList task).isSome := by
  rw [execThreadCreate]
  split
  · exact .ret hl
  refine yields_bind_of_forall ?_
  rintro ⟨-, r⟩
  refine Yields.bind ?_ fun _ h => .ret h
  rw [threadCreate.eq_def]
  split
  · exact .ret hl
  · exact yields_error
  · exact yields_error
  · exact .ret (by simp)

/-- **Every failed exec leaves a trace**: the pool hands out an item that is not in use, and once a
task has been created there no error takes it away. -/
theorem failed_exec_leaves_task {f : FileReader} {current : τ} {parent : UInt32}
    {s' : ExecSystem κ θ τ ν ι} {childp : Option UInt32} {e : Errno} (ht : env.task = some task)
    (hfresh : s.tasks.taskList task = none)
    (hcall : execTask kernelVm env f current parent s = .ok (s', childp, .error e)) :
    (s'.tasks.taskList task).isSome ∧ ¬ NoTrace kernelVm s s' := by
  have hlf : Yields (execTask kernelVm env f current parent s) fun p =>
      (p.1.tasks.taskList task).isSome := by
    rw [execTask]
    refine (execTaskCreate_listed ht current parent).bind ?_
    rintro ⟨s₁, r₁⟩ ⟨⟨vm, hr⟩, hl⟩
    subst hr
    refine (execThreadCreate_listed hl vm).bind ?_
    rintro ⟨s₂, r₂⟩ hl₂
    cases r₂ with
    | error e => exact .ret hl₂
    | ok td =>
      refine yields_bind_of_forall ?_
      rintro ⟨-, r₃⟩
      cases r₃ with
      | error e | ok entry => exact .ret hl₂
  have hl : (s'.tasks.taskList task).isSome = true := hlf _ hcall
  refine ⟨hl, fun h => ?_⟩
  rw [h.tasks task, hfresh] at hl
  cases hl

end Exec

/-! ## A file of zeros -/

def zeroReader : FileReader where
  read _ len := .ok (.ok (List.replicate len 0))
  length_le _ _ _ h := by
    cases h
    simp

/-- A machine with eight pages of memory, four of them with addresses, and no task. -/
def emptyMachine : ExecSystem ℕ ℕ ℕ ℕ ℕ where
  tasks := .boot
  sched := ⟨fun _ => .default, [], [], fun _ => none⟩
  vm := ⟨freshTables, fun _ => ((vmInsertRange (some 0) (kernelBase + pageSize)
    (kernelBase + 5 * pageSize) (vmSetup2 blankIndex)).toOption.map Prod.fst).getD blankIndex⟩

/-- The pools have what the call needs, with the task at 3 and the thread at 5. -/
def bootEnv : ExecEnv ℕ ℕ ℕ ℕ :=
  ⟨⟨some 1, some 2, some 1, some 2, true⟩, some 3, some 1, true, some 0, some 5,
    none, none, none, none⟩

def brokenReader : FileReader := ⟨fun _ _ => .ok (.error .invalid), nofun⟩

/-- The error of the file is returned, and the task is there. -/
theorem failed_exec_leaves_task_broken : ∃ s' port,
    execTask 0 bootEnv brokenReader 7 ipcPortUnknown emptyMachine =
      .ok (s', some port, .error .invalid) ∧
    (s'.tasks.taskList 3).isSome ∧ ¬ NoTrace 0 emptyMachine s' := by
  obtain ⟨s', port, hc⟩ : ∃ s' port, execTask 0 bootEnv brokenReader 7 ipcPortUnknown
      emptyMachine = .ok (s', some port, .error .invalid) := ⟨_, _, rfl⟩
  exact ⟨s', port, hc, failed_exec_leaves_task rfl rfl hc⟩

/-- **A file without the magic number** leaves a task with its port, and its thread in the queue of
the scheduler. -/
theorem failed_exec_leaves : ∃ s' port,
    execTask 0 bootEnv zeroReader 7 ipcPortUnknown emptyMachine =
      .ok (s', some port, .error .invalid) ∧
    (s'.tasks.taskList 3).map Task.tThreads = some [5] ∧ s'.sched.sqQueue = [5] ∧
    (s'.tasks.ipc.ipc.ipcPorts port).isSome ∧ ¬ NoTrace 0 emptyMachine s' := by
  refine ⟨_, _, rfl, rfl, rfl, rfl, fun h => ?_⟩
  have hq : [5] = [] := h.queue
  cases hq

end Glatt
