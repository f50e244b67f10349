import Glatt.Ipc.Machine

/-!
# Tasks and threads

`core_task.c`, `core_thread.c` and `ipc_task.c`: a task is created with a task port of its own and
freed with its last thread. Tasks and threads are known by their addresses, which come from pools:
the address of a task that has been freed may be given to a new one. The rights on the ports are
kept by the address of the task, and `ipc_task_free` leaves them as they are.

## Main definitions

* `TaskMachine`, `TaskStep`: tasks that create, exit and use their ports
* `LeavesNothing`: a task that is freed has no rights

## Main results

* `new_task_owns_its_port`: a new task has the receive right on its port and no other right, where
  tasks are freed without rights
* `new_task_inherits`: a new task has the rights of a freed task at the same address
-/

namespace Glatt

open Imperative Transition Function List

variable {θ τ : Type} [DecidableEq θ] [LinearOrder τ]

def taskKernel : UInt32 := 1

def ipcPortFlagDefault : UInt32 := 0

/-- `struct task`: its flags, its threads, and its task port, which a kernel task does not have. -/
structure Task (θ : Type) where
  tFlags : UInt32
  tThreads : List θ
  ipctTaskPort : Option UInt32

/-- The ports and the calls under way, the tasks by address, and the task of each thread. -/
structure TaskMachine (θ τ : Type) [LinearOrder τ] where
  ipc : IpcMachine θ τ
  taskList : τ → Option (Task θ)
  tdTask : θ → Option τ

/-! ## Creating and freeing -/

def ipcTaskParent (mem : Bool) (current : τ) (parent port : UInt32) (s : IpcState τ) :
    Outcome (IpcState τ) :=
  if parent ≠ ipcPortUnknown then
    orPanic (ipcPortRightSend mem current parent port ipcPortRightSendBit s)
  else pure s

/-- `ipc_task_setup`: the task port is allocated by the creating task, which passes the receive
right on to the new task. -/
def ipcTaskSetup (mem : Bool) (current : τ) (parent : UInt32) (task : τ) (flags : UInt32)
    (s : IpcState τ) : Outcome (IpcState τ × Except Errno (Option UInt32)) :=
  if flags &&& taskKernel ≠ 0 then
    if parent ≠ ipcPortUnknown then .error .panic else pure (s, .ok none)
  else do
    match ← ipcPortAllocate mem current ipcPortFlagDefault s with
    | (s, .error e) => pure (s, .error e)
    | (s, .ok port) =>
      let s ← ipcTaskParent mem current parent port s
      let s ← orPanic (ipcPortRightGrant mem current task port ipcPortRightReceiveBit s)
      let s ← orPanic (ipcPortRightDrop current port ipcPortRightReceiveBit s)
      pure (s, .ok (some port))

/-- `ipc_task_free`, which needs to be implemented. -/
def ipcTaskFree (_task : τ) (s : IpcState τ) : IpcState τ := s

/-- `task_create`. `pool` is what `pool_allocate` returns, `cpu` what `cpu_task_setup` returns. -/
def taskCreate (mem : Bool) (pool : Option τ) (cpu : Except Errno Unit) (current : τ)
    (parent flags : UInt32) (s : TaskMachine θ τ) : Outcome (TaskMachine θ τ × Except Errno τ) :=
  match pool, cpu with
  | none, _ => pure (s, .error .exhausted)
  | some _, .error _ => .error .panic
  | some task, .ok () => do
    match ← ipcTaskSetup mem current parent task flags s.ipc.ipc with
    | (_, .error _) => .error .panic
    | (ipc, .ok port) =>
      pure ({ s with
        ipc := { s.ipc with ipc }
        taskList := update s.taskList task (some ⟨flags, [], port⟩) }, .ok task)

def taskFree (task : τ) (s : TaskMachine θ τ) : TaskMachine θ τ :=
  { s with
    ipc := { s.ipc with ipc := ipcTaskFree task s.ipc.ipc }
    taskList := update s.taskList task none }

/-- `thread_create`. `pool` is what `pool_allocate` returns, `cpu` what `cpu_thread_setup`
returns. -/
def threadCreate (pool : Option θ) (cpu : Except Errno Unit) (task : τ) (s : TaskMachine θ τ) :
    Outcome (TaskMachine θ τ × Except Errno θ) :=
  match pool, cpu, s.taskList task with
  | none, _, _ => pure (s, .error .exhausted)
  | some _, _, none => .error .fault
  | some _, .error _, some _ => .error .panic
  | some td, .ok (), some t =>
    pure ({ s with
      taskList := update s.taskList task (some { t with tThreads := t.tThreads ++ [td] })
      tdTask := update s.tdTask td (some task) }, .ok td)

/-- `thread_free`: the last thread of a task takes the task with it. -/
def threadFree (td : θ) (s : TaskMachine θ τ) : Outcome (TaskMachine θ τ) :=
  match s.tdTask td with
  | none => .error .fault
  | some task =>
    match s.taskList task with
    | none => .error .fault
    | some t =>
      let t := { t with tThreads := t.tThreads.erase td }
      let s := { s with
        taskList := update s.taskList task (some t)
        tdTask := update s.tdTask td none }
      if t.tThreads = [] then pure (taskFree task s) else pure s

/-! ## Runs -/

/-- What a step does, and what the call returns. -/
inductive TaskEvent (θ τ : Type)
  | ipc (e : IpcEvent θ τ)
  | taskCreate (r : Except Errno τ)
  | threadCreate (r : Except Errno θ)
  | threadFree (td : θ)

def Running (s : TaskMachine θ τ) (t : τ) : Prop := ∃ td, s.tdTask td = some t

/-- The call is made by a thread of the task that makes it, and a right is granted to a task that
exists. -/
def CalledBy (s : TaskMachine θ τ) : IpcEvent θ τ → Prop
  | .allocate u _ => Running s u
  | .rightGrant u t _ _ _ => Running s u ∧ (s.taskList t).isSome
  | .rightSend u _ _ _ _ => Running s u
  | .rightDrop u _ _ _ => Running s u
  | .sendPage u _ _ _ => Running s u
  | .dequeue td u _ _ => s.tdTask td = some u
  | .accept _ => True
  | .deliver _ _ => True

/-- **One step.** A pool hands out an address that is not in use, and a thread that exits is not in
the middle of a call. -/
inductive TaskStep : TaskMachine θ τ → TaskEvent θ τ → TaskMachine θ τ → Prop
  | ipc {s : TaskMachine θ τ} {e ipc} : CalledBy s e → IpcStep s.ipc e ipc →
      TaskStep s (.ipc e) { s with ipc }
  | taskCreate {s s' : TaskMachine θ τ} {mem pool cpu current parent flags r} :
      (∀ t, pool = some t → s.taskList t = none) →
      (flags &&& taskKernel = 0 → Running s current) →
      taskCreate mem pool cpu current parent flags s = .ok (s', r) →
      TaskStep s (.taskCreate r) s'
  | threadCreate {s s' : TaskMachine θ τ} {pool cpu task r} :
      (∀ td, pool = some td → s.tdTask td = none) →
      threadCreate pool cpu task s = .ok (s', r) → TaskStep s (.threadCreate r) s'
  | threadFree {s s' : TaskMachine θ τ} {td} : s.ipc.receiving td = none →
      threadFree td s = .ok s' → TaskStep s (.threadFree td) s'

def TaskMachine.boot : TaskMachine θ τ :=
  ⟨⟨⟨fun _ => none, ipcPortUnreservedStart⟩, fun _ => none⟩, fun _ => none, fun _ => none⟩

/-- If the thread is the last one of its task, the task has no right on any port. -/
def LeavesNothing (s : TaskMachine θ τ) (td : θ) : Prop :=
  ∀ task t, s.tdTask td = some task → s.taskList task = some t → t.tThreads.erase td = [] →
    ∀ p i, ¬ Holds s.ipc.ipc task p i

/-- **All rights belong to tasks that exist**, a receive under way to a thread of its task, and
threads to the tasks that list them. -/
structure RightsLive (s : TaskMachine θ τ) : Prop where
  rights : ∀ t p i, Holds s.ipc.ipc t p i → (s.taskList t).isSome
  receiving : ∀ td rc, s.ipc.receiving td = some rc → s.tdTask td = some rc.task
  threads : ∀ td task, s.tdTask td = some task → ∃ t, s.taskList task = some t ∧ td ∈ t.tThreads

variable {s s' : TaskMachine θ τ} {h : List (TaskMachine θ τ × TaskEvent θ τ)}

omit [DecidableEq θ] in
theorem RightsLive.running (hl : RightsLive s) {t : τ} (ht : Running s t) :
    (s.taskList t).isSome := by
  obtain ⟨td, htd⟩ := ht
  obtain ⟨t', ht', -⟩ := hl.threads td t htd
  rw [ht']
  rfl

theorem ipcTaskSetup_spec {mem : Bool} {current : τ} {parent : UInt32} {task : τ} {flags : UInt32}
    {s : IpcState τ} :
    Yields (ipcTaskSetup mem current parent task flags s) fun p =>
      ∀ t q i, Holds p.1 t q i → Holds s t q i ∨ (flags &&& taskKernel = 0 ∧ t = current) ∨
        Holds s t parent receiveBit ∨ (t = task ∧ p.2 = .ok (some q) ∧ i = receiveBit) := by
  rw [ipcTaskSetup]
  split
  · split
    · exact yields_error
    · exact .ret fun _ _ _ hh => .inl hh
  · rename_i hk
    have hu : flags &&& taskKernel = 0 := not_not.mp hk
    refine (ipcPortAllocate_spec mem current ipcPortFlagDefault s).bind ?_
    rintro ⟨s₁, r⟩ ⟨hs₁, -⟩
    have hold₁ : ∀ t q i, Holds s₁ t q i → Holds s t q i ∨ t = current :=
      fun t q i hh => (hs₁ t q i hh).imp_right And.left
    cases r with
    | error e =>
      exact .ret fun t q i hh =>
        (hold₁ t q i hh).imp_right fun hc => .inl ⟨hu, hc⟩
    | ok port =>
      -- the parent gets the send right only where it holds the receive right already
      have hpr : Yields (ipcTaskParent mem current parent port s₁) fun s₂ =>
          ∀ t q i, Holds s₂ t q i → Holds s t q i ∨ t = current ∨ Holds s t parent receiveBit := by
        rw [ipcTaskParent]
        split
        · refine yields_orPanic ((ipcPortRightSend_spec _ _).mono ?_)
          rintro ⟨s₂, r⟩ ⟨hs₂, -⟩ - t q i hh
          rcases hs₂ t q i hh with hh | ⟨-, -, -, hh, -⟩
          · exact (hold₁ t q i hh).imp_right .inl
          · exact .inr ((hold₁ t _ _ hh).symm)
        · exact .ret fun t q i hh => (hold₁ t q i hh).imp_right .inl
      refine hpr.bind fun s₂ hs₂ => ?_
      refine (yields_orPanic (P := fun s₃ => ∀ t q i, Holds s₃ t q i → Holds s₂ t q i ∨
        t = task ∧ q = port ∧ i = receiveBit) ?_).bind fun s₃ hs₃ => ?_
      · refine (ipcPortRightGrant_spec _).mono ?_
        rintro ⟨s₃, r⟩ ⟨hs₃, -⟩ - t q i hh
        exact (hs₃ t q i hh).imp_right fun ⟨ht, hq, hi, _⟩ => ⟨ht, hq, testBit_receive hi⟩
      refine (yields_orPanic (P := fun s₄ => ∀ t q i, Holds s₄ t q i → Holds s₃ t q i) ?_).bind
        fun s₄ hs₄ => ?_
      · exact ipcPortRightDrop_spec.mono fun p hp _ t q i hh => ((hp.1 t q i).mp hh).1
      refine .ret fun t q i hh => ?_
      rcases hs₃ t q i (hs₄ t q i hh) with hh | ⟨rfl, rfl, rfl⟩
      · rcases hs₂ t q i hh with hh | rfl | hh
        · exact .inl hh
        · exact .inr (.inl ⟨hu, rfl⟩)
        · exact .inr (.inr (.inl hh))
      · exact .inr (.inr (.inr ⟨rfl, rfl, rfl⟩))

/-! ## What a step keeps -/

omit [DecidableEq θ] in
theorem isSome_update {f : τ → Option (Task θ)} {t : τ} (task : τ) (r : Task θ)
    (ht : (f t).isSome) : (update f task (some r) t).isSome := by
  rw [update_apply]
  split
  · rfl
  · exact ht

theorem RightsLive.ipc (hl : RightsLive s) {e : IpcEvent θ τ} {ipc : IpcMachine θ τ}
    (hb : CalledBy s e) (hs : IpcStep s.ipc e ipc) : RightsLive { s with ipc } := by
  constructor
  · intro t p i hn
    by_cases hold : Holds s.ipc.ipc t p i
    · exact hl.rights t p i hold
    · rcases right_added_cases hs hold hn with ⟨rfl, -⟩ | ⟨u, right, rfl, -⟩ |
        ⟨u, dst, right, rfl, -, -, hd⟩ | ⟨td, rc, rfl, hr, rfl, -⟩
      · exact hl.running hb
      · exact hb.2
      · exact hl.rights t dst _ hd
      · exact hl.running ⟨td, hl.receiving td rc hr⟩
  · intro td rc hr
    rcases receiving_step hs hr with ⟨rc₁, hr₁, ht, -, -⟩ | rfl
    · rw [← ht]
      exact hl.receiving td rc₁ hr₁
    · exact hb
  · exact hl.threads

omit [DecidableEq θ] in
theorem taskCreate_spec {mem : Bool} {pool : Option τ} {cpu : Except Errno Unit} {current : τ}
    {parent flags : UInt32} :
    Yields (taskCreate mem pool cpu current parent flags s) fun p =>
      (p.1 = s ∧ ∃ e, p.2 = .error e) ∨ ∃ task port ipc, pool = some task ∧ p.2 = .ok task ∧
        p.1 = { s with
          ipc := { s.ipc with ipc }
          taskList := update s.taskList task (some ⟨flags, [], port⟩) } ∧
        ∀ t q i, Holds ipc t q i → Holds s.ipc.ipc t q i ∨
          (flags &&& taskKernel = 0 ∧ t = current) ∨ Holds s.ipc.ipc t parent receiveBit ∨
          (t = task ∧ port = some q ∧ i = receiveBit) := by
  unfold taskCreate
  split
  · exact .ret (.inl ⟨rfl, _, rfl⟩)
  · exact yields_error
  · rename_i task
    refine ipcTaskSetup_spec.bind ?_
    rintro ⟨ipc, r⟩ hr
    cases r with
    | error e => exact yields_error
    | ok port =>
      refine .ret (.inr ⟨task, port, ipc, rfl, rfl, rfl, fun t q i hh => ?_⟩)
      simpa using hr t q i hh

omit [DecidableEq θ] in
theorem RightsLive.taskCreate (hl : RightsLive s) {mem : Bool} {pool : Option τ}
    {cpu : Except Errno Unit} {current : τ} {parent flags : UInt32} {r : Except Errno τ}
    (hf : ∀ t, pool = some t → s.taskList t = none)
    (hrun : flags &&& taskKernel = 0 → Running s current)
    (hs : Glatt.taskCreate mem pool cpu current parent flags s = .ok (s', r)) :
    RightsLive s' := by
  rcases taskCreate_spec _ hs with ⟨rfl, -⟩ | ⟨task, port, ipc, hp, -, rfl, hr⟩
  · exact hl
  · constructor
    · intro t q i hh
      rcases hr t q i hh with hh | ⟨hu, rfl⟩ | hh | ⟨rfl, -⟩
      · exact isSome_update _ _ (hl.rights t q i hh)
      · exact isSome_update _ _ (hl.running (hrun hu))
      · exact isSome_update _ _ (hl.rights t _ _ hh)
      · simp
    · exact hl.receiving
    · intro td task' htd
      obtain ⟨t, ht, hmem⟩ := hl.threads td task' htd
      have hne : task' ≠ task := by
        rintro rfl
        rw [hf task' hp] at ht
        cases ht
      exact ⟨t, by simpa [hne] using ht, hmem⟩

theorem RightsLive.threadCreate (hl : RightsLive s) {pool : Option θ} {cpu : Except Errno Unit}
    {task : τ} {r : Except Errno θ} (hf : ∀ td, pool = some td → s.tdTask td = none)
    (hs : Glatt.threadCreate pool cpu task s = .ok (s', r)) : RightsLive s' := by
  unfold Glatt.threadCreate at hs
  split at hs
  · cases hs
    exact hl
  · cases hs
  · cases hs
  · rename_i td t hts
    cases hs
    constructor
    · intro t' p i hh
      exact isSome_update _ _ (hl.rights t' p i hh)
    · intro td' rc hr
      have htd := hl.receiving td' rc hr
      have hne : td' ≠ td := by
        rintro rfl
        rw [hf td' rfl] at htd
        cases htd
      simpa [hne] using htd
    · intro td' task' htd'
      dsimp only at htd'
      rw [update_apply] at htd'
      split at htd'
      · cases htd'
        subst td'
        exact ⟨_, update_self .., by simp⟩
      · obtain ⟨t', ht', hmem⟩ := hl.threads td' task' htd'
        by_cases hne : task' = task
        · subst hne
          rw [hts] at ht'
          cases ht'
          exact ⟨_, update_self .., mem_append_left _ hmem⟩
        · exact ⟨t', by simpa [hne] using ht', hmem⟩

theorem RightsLive.threadFree (hl : RightsLive s) {td : θ} (hid : s.ipc.receiving td = none)
    (hc : LeavesNothing s td) (hs : Glatt.threadFree td s = .ok s') : RightsLive s' := by
  unfold Glatt.threadFree at hs
  split at hs
  · cases hs
  rename_i task hts
  split at hs
  · cases hs
  rename_i t ht
  -- the other threads keep their tasks, and the tasks that list them
  have hr : ∀ td' rc, s.ipc.receiving td' = some rc →
      update s.tdTask td none td' = some rc.task := by
    intro td' rc hrc
    have hne : td' ≠ td := by
      rintro rfl
      rw [hid] at hrc
      cases hrc
    simpa [hne] using hl.receiving td' rc hrc
  have hth : ∀ td' task', update s.tdTask td none td' = some task' →
      ∃ t', s.taskList task' = some t' ∧ td' ∈ t'.tThreads.erase td := by
    intro td' task' htd'
    have hne : td' ≠ td := by
      rintro rfl
      simp at htd'
    obtain ⟨t', ht', hmem⟩ := hl.threads td' task' (by simpa [hne] using htd')
    exact ⟨t', ht', (mem_erase_of_ne hne).mpr hmem⟩
  dsimp only at hs
  split at hs
  · rename_i hls
    cases hs
    constructor
    · intro t' p i hh
      have hne : t' ≠ task := by
        rintro rfl
        exact hc t' t hts ht hls p i hh
      simpa [taskFree, hne] using hl.rights t' p i hh
    · exact hr
    · intro td' task' htd'
      obtain ⟨t', ht', hmem⟩ := hth td' task' htd'
      have hne : task' ≠ task := by
        rintro rfl
        rw [ht] at ht'
        cases ht'
        rw [hls] at hmem
        cases hmem
      exact ⟨t', by simpa [taskFree, hne] using ht', mem_of_mem_erase hmem⟩
  · cases hs
    constructor
    · intro t' p i hh
      exact isSome_update _ _ (hl.rights t' p i hh)
    · exact hr
    · intro td' task' htd'
      obtain ⟨t', ht', hmem⟩ := hth td' task' htd'
      by_cases hne : task' = task
      · subst hne
        rw [ht] at ht'
        cases ht'
        exact ⟨_, update_self .., hmem⟩
      · exact ⟨t', by simpa [hne] using ht', mem_of_mem_erase hmem⟩

theorem RightsLive.run (hr : Run TaskStep TaskMachine.boot h s) :
    (∀ t td, (t, TaskEvent.threadFree td) ∈ h → LeavesNothing t td) → RightsLive s := by
  refine hr.invariant ?_ ?_
  · intro _
    constructor
    · rintro t p i ⟨ipcp, hp, -⟩
      cases hp
    · intro td rc hrc
      cases hrc
    · intro td task ht
      cases ht
  · intro h s e s' _ ih hs hcl
    have hl := ih fun t td hm => hcl t td (mem_append_left _ hm)
    cases hs with
    | ipc hb hst => exact hl.ipc hb hst
    | taskCreate hf hrun hc => exact hl.taskCreate hf hrun hc
    | threadCreate hf hc => exact hl.threadCreate hf hc
    | threadFree hid hc => exact hl.threadFree hid (hcl s _ (by simp)) hc

/-- **A new task owns its port and nothing else**, in every run in which every task that is freed
has no right left: after `task_create` has returned a task, the only right it has on any port is
the receive right on its task port. -/
theorem new_task_owns_its_port (hr : Run TaskStep TaskMachine.boot h s)
    (hclean : ∀ t td, (t, TaskEvent.threadFree td) ∈ h → LeavesNothing t td)
    {task : τ} (hs : TaskStep s (.taskCreate (.ok task)) s') :
    ∃ t, s'.taskList task = some t ∧ ∀ p i, Holds s'.ipc.ipc task p i →
      t.ipctTaskPort = some p ∧ i = receiveBit := by
  have hl := RightsLive.run hr hclean
  cases hs with
  | @taskCreate _ mem pool cpu current parent flags _ hf hrun hc =>
    rcases taskCreate_spec _ hc with ⟨-, e, he⟩ | ⟨task', port, ipc, hp, ht, rfl, hrg⟩
    · cases he
    · cases ht
      -- nothing has rights without a task
      have hn : ∀ q i, ¬ Holds s.ipc.ipc task q i := by
        intro q i hh
        have := hl.rights task q i hh
        rw [hf task hp] at this
        cases this
      refine ⟨_, update_self .., fun p i hh => ?_⟩
      rcases hrg task p i hh with hh | ⟨hu, rfl⟩ | hh | ⟨-, hpr, hi⟩
      · exact absurd hh (hn p i)
      · have := hl.running (hrun hu)
        rw [hf task hp] at this
        cases this
      · exact absurd hh (hn _ _)
      · exact ⟨hpr, hi⟩

def booted : TaskMachine ℕ ℕ where
  ipc := ⟨⟨fun _ => none, ipcPortUnreservedStart⟩, fun _ => none⟩
  taskList := update (update (fun _ => none) 1 (some ⟨taskKernel, [], none⟩)) 1
    (some ⟨taskKernel, [10], none⟩)
  tdTask := update (fun _ => none) 10 (some 1)

theorem exists_run_booted :
    ∃ h, Run TaskStep TaskMachine.boot h booted ∧ ∀ t td, (t, TaskEvent.threadFree td) ∉ h := by
  refine ⟨_, (Run.nil.snoc (.taskCreate (fun _ _ => rfl) (fun h => by cases h)
    (rfl : taskCreate true (some 1) (.ok ()) 0 ipcPortUnknown taskKernel _ = .ok (_, .ok 1)))).snoc
    (.threadCreate (fun _ _ => rfl)
      (rfl : threadCreate (some 10) (.ok ()) 1 _ = .ok (_, .ok 10))), ?_⟩
  intro t td hm
  simp at hm

theorem exists_run_again :
    ∃ (h : List (TaskMachine ℕ ℕ × TaskEvent ℕ ℕ)) (s₁ s₂ s' : TaskMachine ℕ ℕ),
      Run TaskStep TaskMachine.boot h s₁ ∧ (∀ t td, (t, TaskEvent.threadFree td) ∉ h) ∧
      s₁.tdTask 20 = some 2 ∧ TaskStep s₁ (.threadFree 20) s₂ ∧ s₂.taskList 2 = none ∧
      TaskStep s₂ (.taskCreate (.ok 2)) s' ∧
      (∃ ipcp, s₁.ipc.ipc.ipcPorts 3 = some ipcp ∧ ipcp.right 2 = 0) ∧
      ∀ p ≠ 3, s₁.ipc.ipc.ipcPorts p = none := by
  obtain ⟨h, hr, hno⟩ := exists_run_booted
  have hd : ∀ {s : TaskMachine ℕ ℕ} {ipc}, s.tdTask 20 = some 2 →
      ipcPortRightDrop 2 3 ipcPortRightReceiveBit s.ipc.ipc = .ok (ipc, .ok ()) →
      TaskStep s (.ipc (.rightDrop 2 3 ipcPortRightReceiveBit (.ok ())))
        { s with ipc := { s.ipc with ipc } } :=
    fun htd hc => .ipc ⟨20, htd⟩ (.rightDrop hc)
  have hr := ((hr.snoc (.taskCreate (fun t ht => by cases ht; rfl) (fun _ => ⟨10, rfl⟩)
      (rfl : taskCreate true (some 2) (.ok ()) 1 ipcPortUnknown 0 _ = .ok (_, .ok 2)))).snoc
    (.threadCreate (fun td htd => by cases htd; rfl)
      (rfl : threadCreate (some 20) (.ok ()) 2 _ = .ok (_, .ok 20)))).snoc (hd rfl rfl)
  refine ⟨_, _, _, _, hr, fun t td hm => ?_, rfl,
    .threadFree rfl (rfl : threadFree 20 _ = .ok _), rfl,
    .taskCreate (fun t ht => by cases ht; rfl) (fun _ => ⟨10, rfl⟩)
      (rfl : taskCreate true (some 2) (.ok ()) 1 ipcPortUnknown 0 _ = .ok (_, .ok 2)), ?_,
    fun p hp => ?_⟩
  · simp [hno] at hm
  · exact ⟨_, rfl, rfl⟩
  · simp [IpcState.setPort, booted, ipcPortUnreservedStart, hp]

/-- The second task at an address owns its port only, if the first has left nothing. -/
theorem new_task_owns_its_port_again :
    ∃ (h : List (TaskMachine ℕ ℕ × TaskEvent ℕ ℕ)) (s s' : TaskMachine ℕ ℕ),
      Run TaskStep TaskMachine.boot h s ∧ (∃ t, (t, TaskEvent.threadFree 20) ∈ h ∧
        t.tdTask 20 = some 2) ∧ s.taskList 2 = none ∧ TaskStep s (.taskCreate (.ok 2)) s' ∧
      ∃ t, s'.taskList 2 = some t ∧
        ∀ p i, Holds s'.ipc.ipc 2 p i → t.ipctTaskPort = some p ∧ i = receiveBit := by
  obtain ⟨h, s₁, s₂, s', hr, hno, ht, hf, hnone, hs, ⟨ipcp, hport, hright⟩, hother⟩ :=
    exists_run_again
  refine ⟨_, s₂, s', hr.snoc hf, ⟨s₁, by simp, ht⟩, hnone, hs,
    new_task_owns_its_port (hr.snoc hf) (fun t td hm => ?_) hs⟩
  simp only [List.mem_append, hno, false_or, List.mem_singleton, Prod.mk.injEq,
    TaskEvent.threadFree.injEq] at hm
  obtain ⟨rfl, rfl⟩ := hm
  rintro task _ htask - - p i ⟨x, hx, hi⟩
  obtain rfl := Option.some.inj (ht.symm.trans htask)
  by_cases hp : p = 3
  · obtain rfl := Option.some.inj (hport.symm.trans (hp ▸ hx))
    rw [IpcPort.HasRight, hright] at hi
    simp at hi
  · rw [hother p hp] at hx
    cases hx

/-- **A new task inherits**: a user task allocates a port and exits with its thread, and the next
task is created at its address. It has the receive right on the port that the first one allocated,
and on the task port of the first one. -/
theorem new_task_inherits :
    ∃ (h : List (TaskMachine ℕ ℕ × TaskEvent ℕ ℕ)) (s s' : TaskMachine ℕ ℕ) (t : Task ℕ),
      Run TaskStep TaskMachine.boot h s ∧ s.taskList 2 = none ∧
      TaskStep s (.taskCreate (.ok 2)) s' ∧ s'.taskList 2 = some t ∧ t.ipctTaskPort = some 5 ∧
      Holds s'.ipc.ipc 2 3 receiveBit ∧ Holds s'.ipc.ipc 2 4 receiveBit := by
  obtain ⟨h, hr, -⟩ := exists_run_booted
  have ha : ∀ {s : TaskMachine ℕ ℕ} {ipc}, s.tdTask 20 = some 2 →
      ipcPortAllocate true 2 0 s.ipc.ipc = .ok (ipc, .ok 4) →
      TaskStep s (.ipc (.allocate 2 (.ok 4))) { s with ipc := { s.ipc with ipc } } :=
    fun htd hc => .ipc ⟨20, htd⟩ (.allocate hc)
  have hr := (((hr.snoc (.taskCreate (fun t ht => by cases ht; rfl) (fun _ => ⟨10, rfl⟩)
      (rfl : taskCreate true (some 2) (.ok ()) 1 ipcPortUnknown 0 _ = .ok (_, .ok 2)))).snoc
    (.threadCreate (fun td htd => by cases htd; rfl)
      (rfl : threadCreate (some 20) (.ok ()) 2 _ = .ok (_, .ok 20)))).snoc
    (ha rfl rfl)).snoc
    (.threadFree rfl (rfl : threadFree 20 _ = .ok _))
  refine ⟨_, _, _, _, hr, rfl, .taskCreate (fun t ht => by cases ht; rfl) (fun _ => ⟨10, rfl⟩)
    (rfl : taskCreate true (some 2) (.ok ()) 1 ipcPortUnknown 0 _ = .ok (_, .ok 2)), rfl, rfl,
    ⟨_, rfl, ?_⟩, _, rfl, ?_⟩
  · decide
  · decide

end Glatt
