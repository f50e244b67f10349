import Glatt.Core.Task

/-!
# The file system services

The handlers of `fs/fs_ipc.c`, `fs/fs_ipc_file.c` and `fs/fs_ipc_directory.c`, and the loop of
`ipc/ipc_service.c` that calls them. An open file or directory is a service of its own, with a port
and a thread; the context that the file system has returned for it is the argument of its handler.

The operations of the file system are parameters. Every successful open gets a number, and the calls
that the handlers make of the operations are recorded under it; the record is kept when a handler
ends in a panic.

## Main definitions

* `FsOps`, `FsHandler`, `FsWorld`: operations, handlers, and services with their state
* `ipcServiceRound`: a message is taken and handled

## Main results

* `service_calls`: a handler of a file or directory calls the operation that its message asks for,
  and no other
* `fsIpcHandler_opens`: an open makes one context, and either a service for it or one close
-/

namespace Glatt

open Imperative

/-! ## Headers -/

def Errno.code : Errno → UInt64
  | notFound => 1
  | notPermitted => 2
  | exhausted => 3
  | notImplemented => 4
  | again => 5
  | invalid => 6
  | unexpected => 7
  | notFree => 8
  | noRight => 9
  | argCount => 10
  | notAvailable => 11
  | full => 12
  | wrongKind => 13

def ipcHeaderReply (reqh : IpcHeader) : IpcHeader :=
  ⟨reqh.ipchdrDst, reqh.ipchdrSrc, ipcPortRightNone, 0x1000 ||| (reqh.ipchdrMsg &&& 0x0fff),
    reqh.ipchdrCookie, 0⟩

def ipcHeaderError (reqh : IpcHeader) (error : Errno) : IpcHeader :=
  ⟨reqh.ipchdrDst, reqh.ipchdrSrc, ipcPortRightNone, 0x2000 ||| (reqh.ipchdrMsg &&& 0x0fff),
    reqh.ipchdrCookie, error.code⟩

/-! ## File systems -/

/-- The fields that the handlers find in the page of a message: the path of an open request, and the
offset and length of a read request. -/
structure FsRequest where
  path : List UInt8
  offset : Int64
  length : UInt64

/-- `struct fs_ops`, on the state `σ` of the file system and contexts `κ`, with `exec_task`, which
is handed the read operation and the context. A read returns a length; what it read is in the
page. -/
structure FsOps (σ κ : Type) where
  fsFileOpen : List UInt8 → σ → σ × Except Errno κ
  fsFileRead : κ → Int64 → UInt64 → σ → σ × Except Errno UInt64
  fsFileClose : κ → σ → σ × Except Errno Unit
  fsDirectoryOpen : List UInt8 → σ → σ × Except Errno κ
  fsDirectoryRead : κ → Int64 → σ → σ × Except Errno (Int64 × UInt64)
  fsDirectoryClose : κ → σ → σ × Except Errno Unit
  execTask : UInt32 → List UInt8 → κ → σ → σ × Except Errno UInt32

/-- What the handlers do with an open context. -/
inductive FsUse
  | read
  | exec
  | close
  deriving DecidableEq, Repr

/-- The calls of the operations, by the number of the open. -/
inductive FsCall
  | opened (n : ℕ)
  | used (n : ℕ) (u : FsUse)
  deriving DecidableEq, Repr

/-- `struct fs_file` and `struct fs_directory`, with the number of the open that they are from. -/
structure FsNode (κ : Type) where
  path : List UInt8
  context : κ
  number : ℕ

/-- The handlers of services, with their arguments. -/
inductive FsHandler (κ : Type)
  | fs
  | file (fsf : FsNode κ)
  | directory (fsd : FsNode κ)

def FsHandler.number {κ : Type} : FsHandler κ → Option ℕ
  | fs => none
  | file fsf => some fsf.number
  | directory fsd => some fsd.number

/-- `struct ipc_service_context`. -/
structure IpcServiceContext (κ τ : Type) where
  ipcscHandler : FsHandler κ
  ipcscPort : UInt32
  ipcscTask : τ

/-- What the handlers work on: the ports, the file system, the calls made of its operations, the
number of the next open, and the services. -/
structure FsWorld (σ κ τ : Type) [LinearOrder τ] where
  ipc : IpcState τ
  fs : σ
  calls : List FsCall
  opens : ℕ
  services : List (IpcServiceContext κ τ)

variable {σ κ τ α β : Type} [LinearOrder τ] {port : UInt32} {n : ℕ}

/-- Code of a service: the state is kept when it ends in a panic. -/
abbrev FsM (σ κ τ : Type) [LinearOrder τ] (α : Type) := ExceptT Halt (StateM (FsWorld σ κ τ)) α

def FsM.after (x : FsM σ κ τ α) (w : FsWorld σ κ τ) : FsWorld σ κ τ := (x.run.run w).2

def ipcCall (f : IpcState τ → Outcome (IpcState τ × α)) : FsM σ κ τ α := do
  let w ← get
  match f w.ipc with
  | .ok (ipc, a) =>
    set { w with ipc }
    pure a
  | .error h => throw h

def useContext (n : ℕ) (u : FsUse) (op : σ → σ × α) : FsM σ κ τ α := do
  let w ← get
  let (fs, a) := op w.fs
  set { w with fs, calls := w.calls ++ [FsCall.used n u] }
  pure a

/-- The call of an open operation; a context that it returns gets the next number. -/
def openContext (op : σ → σ × Except Errno κ) : FsM σ κ τ (Except Errno (κ × ℕ)) := do
  let w ← get
  match op w.fs with
  | (fs, .error e) =>
    set { w with fs }
    pure (.error e)
  | (fs, .ok context) =>
    set { w with fs, calls := w.calls ++ [FsCall.opened w.opens], opens := w.opens + 1 }
    pure (.ok (context, w.opens))

def expectOk : Except Errno α → FsM σ κ τ α
  | .ok a => pure a
  | .error _ => throw .panic

/-! ## Services -/

/-- What the calls in a round of a service return that are not modelled: `malloc` of the IPC code
and of the handlers, `task_create` and `thread_create`, `page_map_direct` and `page_free_direct`. -/
structure FsSupply (τ : Type) where
  mem : Bool
  node : Bool
  task : Except Errno τ
  thread : Except Errno Unit
  map : Except Errno UInt64
  free : Except Errno Unit

/-- A page received with a message, and the fields in it. -/
structure FsPage extends FsRequest where
  page : UInt64

def IpcMessage.fsPage (msg : IpcMessage) (req : FsRequest) : Option FsPage :=
  msg.ipcmsgPage.map fun page => ⟨req, page⟩

def ipcPortSendNothing (sup : FsSupply τ) (current : τ) (ipch : IpcHeader) :
    FsM σ κ τ (Except Errno Unit) :=
  ipcCall (ipcPortSendPage sup.mem current ipch none)

def ipcPortSendMapped (sup : FsSupply τ) (current : τ) (ipch : IpcHeader) (page : FsPage) :
    FsM σ κ τ (Except Errno Unit) :=
  ipcCall (ipcPortSendPage sup.mem current ipch (some page.page))

/-- `ipc_service` for a port that the caller has allocated: a kernel task with a receive right on
the port. It does not return an error. -/
def ipcService (sup : FsSupply τ) (current : τ) (port : UInt32) (handler : FsHandler κ) :
    FsM σ κ τ (Except Errno Unit) := do
  let task ← expectOk sup.task
  expectOk sup.thread
  if port = ipcPortUnknown then throw .panic
  let r ← ipcCall (ipcPortRightGrant sup.mem current task port ipcPortRightReceiveBit)
  expectOk r
  modify fun w => { w with services := w.services ++ [⟨handler, port, task⟩] }
  pure (.ok ())

def fsServiceStart (sup : FsSupply τ) (current : τ) (handler : FsHandler κ) :
    FsM σ κ τ (Except Errno UInt32) := do
  match ← ipcCall (ipcPortAllocate sup.mem current ipcPortFlagDefault) with
  | .error e => pure (.error e)
  | .ok port =>
    match ← ipcService sup current port handler with
    | .error e =>
      let r ← ipcCall (ipcPortRightDrop current port ipcPortRightReceiveBit)
      expectOk r
      pure (.error e)
    | .ok () => pure (.ok port)

/-! ## Opens -/

/-- The end of an open handler, when the service runs: the requesting task gets a send right, and
the file system keeps no right. -/
def fsOpenGrant (sup : FsSupply τ) (current : τ) (reqh : IpcHeader) (port : UInt32) :
    FsM σ κ τ (Except Errno Unit) := do
  match ← ipcCall (ipcPortRightSend sup.mem current reqh.ipchdrSrc port ipcPortRightSendBit) with
  | .error e => pure (.error e)
  | .ok () =>
    let r ← ipcCall (ipcPortRightDrop current port ipcPortRightReceiveBit)
    expectOk r
    ipcPortSendNothing sup current { ipcHeaderReply reqh with ipchdrParam := port.toUInt64 }

/-- The two open handlers: the operations and the handler of the new service are their
parameters. -/
def fsIpcOpenHandler (openOp : List UInt8 → σ → σ × Except Errno κ)
    (closeOp : κ → σ → σ × Except Errno Unit) (handler : FsNode κ → FsHandler κ) (sup : FsSupply τ)
    (current : τ) (reqh : IpcHeader) : Option FsPage → FsM σ κ τ (Except Errno Unit)
  | none => pure (.error .invalid)
  | some req => do
    match ← openContext (openOp req.path) with
    | .error e => ipcPortSendNothing sup current (ipcHeaderError reqh e)
    | .ok (context, number) =>
      if sup.node then
        match ← fsServiceStart sup current (handler ⟨req.path.take 63, context, number⟩) with
        | .error e =>
          let r ← useContext number .close (closeOp context)
          expectOk r
          ipcPortSendNothing sup current (ipcHeaderError reqh e)
        | .ok port => fsOpenGrant sup current reqh port
      else pure (.error .exhausted)

def fsIpcOpenFileHandler (ops : FsOps σ κ) (sup : FsSupply τ) (current : τ) (reqh : IpcHeader)
    (pagep : Option FsPage) : FsM σ κ τ (Except Errno Unit) :=
  fsIpcOpenHandler ops.fsFileOpen ops.fsFileClose .file sup current reqh pagep

def fsIpcOpenDirectoryHandler (ops : FsOps σ κ) (sup : FsSupply τ) (current : τ) (reqh : IpcHeader)
    (pagep : Option FsPage) : FsM σ κ τ (Except Errno Unit) :=
  fsIpcOpenHandler ops.fsDirectoryOpen ops.fsDirectoryClose .directory sup current reqh pagep

def fsMsgOpenFile : UInt16 := 1

def fsMsgOpenDirectory : UInt16 := 2

def fsIpcHandler (ops : FsOps σ κ) (sup : FsSupply τ) (current : τ) (ipch : IpcHeader)
    (pagep : Option FsPage) : FsM σ κ τ (Option FsPage × Except Errno Unit) := do
  if ipch.ipchdrMsg = fsMsgOpenFile then
    let r ← fsIpcOpenFileHandler ops sup current ipch pagep
    pure (pagep, r)
  else if ipch.ipchdrMsg = fsMsgOpenDirectory then
    let r ← fsIpcOpenDirectoryHandler ops sup current ipch pagep
    pure (pagep, r)
  else pure (pagep, .error .invalid)

/-! ## Open files and directories -/

def fsReadMax : UInt64 := 8192

/-- `fs_file_ipc_read_handler`. The page of the request is filled and sent back. -/
def fsFileIpcReadHandler (ops : FsOps σ κ) (sup : FsSupply τ) (current : τ) (fsf : FsNode κ)
    (reqh : IpcHeader) : Option FsPage → FsM σ κ τ (Option FsPage × Except Errno Unit)
  | none => pure (none, .error .invalid)
  | some req =>
    if req.length = 0 then pure (some req, .error .invalid)
    else do
      let length := if fsReadMax < req.length then fsReadMax else req.length
      match ← useContext fsf.number .read (ops.fsFileRead fsf.context req.offset length) with
      | .error e =>
        let r ← ipcPortSendNothing sup current (ipcHeaderError reqh e)
        pure (some req, r)
      | .ok length =>
        let ipch := { ipcHeaderReply reqh with ipchdrParam := length }
        if length = 0 then
          let r ← ipcPortSendNothing sup current ipch
          pure (some req, r)
        else
          let r ← ipcPortSendMapped sup current ipch req
          pure (none, r)

def fsDirectoryIpcReadHandler (ops : FsOps σ κ) (sup : FsSupply τ) (current : τ) (fsd : FsNode κ)
    (reqh : IpcHeader) : Option FsPage → FsM σ κ τ (Option FsPage × Except Errno Unit)
  | none => pure (none, .error .invalid)
  | some req => do
    match ← useContext fsd.number .read (ops.fsDirectoryRead fsd.context req.offset) with
    | .error e =>
      let r ← ipcPortSendNothing sup current (ipcHeaderError reqh e)
      pure (some req, r)
    | .ok (_, cnt) =>
      let r ← ipcPortSendMapped sup current { ipcHeaderReply reqh with ipchdrParam := cnt } req
      pure (none, r)

def fsNodeCloseHandler (closeOp : κ → σ → σ × Except Errno Unit) (sup : FsSupply τ) (current : τ)
    (node : FsNode κ) (reqh : IpcHeader) :
    Option FsPage → FsM σ κ τ (Option FsPage × Except Errno Unit)
  | some page => pure (some page, .error .invalid)
  | none => do
    match ← useContext node.number .close (closeOp node.context) with
    | .error e =>
      let r ← ipcPortSendNothing sup current (ipcHeaderError reqh e)
      pure (none, r)
    | .ok () =>
      let r ← ipcPortSendNothing sup current (ipcHeaderReply reqh)
      pure (none, r)

def fsFileIpcCloseHandler (ops : FsOps σ κ) (sup : FsSupply τ) (current : τ) (fsf : FsNode κ)
    (reqh : IpcHeader) (pagep : Option FsPage) : FsM σ κ τ (Option FsPage × Except Errno Unit) :=
  fsNodeCloseHandler ops.fsFileClose sup current fsf reqh pagep

def fsDirectoryIpcCloseHandler (ops : FsOps σ κ) (sup : FsSupply τ) (current : τ) (fsd : FsNode κ)
    (reqh : IpcHeader) (pagep : Option FsPage) : FsM σ κ τ (Option FsPage × Except Errno Unit) :=
  fsNodeCloseHandler ops.fsDirectoryClose sup current fsd reqh pagep

def fsFileIpcExecHandler (ops : FsOps σ κ) (sup : FsSupply τ) (current : τ) (fsf : FsNode κ)
    (reqh : IpcHeader) : Option FsPage → FsM σ κ τ (Option FsPage × Except Errno Unit)
  | some page => pure (some page, .error .invalid)
  | none => do
    match ← useContext fsf.number .exec (ops.execTask reqh.ipchdrSrc fsf.path fsf.context) with
    | .error e =>
      let r ← ipcPortSendNothing sup current (ipcHeaderError reqh e)
      pure (none, r)
    | .ok child =>
      let ipch := { ipcHeaderReply reqh with ipchdrParam := child.toUInt64 }
      let r ← ipcPortSendNothing sup current ipch
      pure (none, r)

def fsMsgRead : UInt16 := 1

def fsMsgClose : UInt16 := 2

def fsFileMsgExec : UInt16 := 3

def fsFileIpcHandler (ops : FsOps σ κ) (sup : FsSupply τ) (current : τ) (fsf : FsNode κ)
    (ipch : IpcHeader) (pagep : Option FsPage) : FsM σ κ τ (Option FsPage × Except Errno Unit) :=
  if ipch.ipchdrMsg = fsMsgRead then fsFileIpcReadHandler ops sup current fsf ipch pagep
  else if ipch.ipchdrMsg = fsMsgClose then fsFileIpcCloseHandler ops sup current fsf ipch pagep
  else if ipch.ipchdrMsg = fsFileMsgExec then fsFileIpcExecHandler ops sup current fsf ipch pagep
  else pure (pagep, .error .invalid)

def fsDirectoryIpcHandler (ops : FsOps σ κ) (sup : FsSupply τ) (current : τ) (fsd : FsNode κ)
    (ipch : IpcHeader) (pagep : Option FsPage) : FsM σ κ τ (Option FsPage × Except Errno Unit) :=
  if ipch.ipchdrMsg = fsMsgRead then fsDirectoryIpcReadHandler ops sup current fsd ipch pagep
  else if ipch.ipchdrMsg = fsMsgClose then
    fsDirectoryIpcCloseHandler ops sup current fsd ipch pagep
  else pure (pagep, .error .invalid)

def FsHandler.handle (ops : FsOps σ κ) (sup : FsSupply τ) (current : τ) (ipch : IpcHeader)
    (pagep : Option FsPage) : FsHandler κ → FsM σ κ τ (Option FsPage × Except Errno Unit)
  | fs => fsIpcHandler ops sup current ipch pagep
  | file fsf => fsFileIpcHandler ops sup current fsf ipch pagep
  | directory fsd => fsDirectoryIpcHandler ops sup current fsd ipch pagep

/-! ## The loop of a service -/

/-- `ipc_port_receive` by a kernel task; a message that is dequeued has its rights inserted. -/
def ipcServiceReceive (sup : FsSupply τ) (svc : IpcServiceContext κ τ) :
    FsM σ κ τ (Except Errno (IpcMessage × Option UInt64)) := do
  match ← ipcCall (ipcPortDequeue svc.ipcscTask svc.ipcscPort) with
  | .error e => pure (.error e)
  | .ok msg =>
    ipcCall fun s => do
      let s ← ipcPortAccept sup.mem svc.ipcscTask msg s
      pure (s, ())
    let r ← ipcCall fun s => do
      let r ← ipcPortDeliver true (.kernel sup.map) msg
      pure (s, r)
    pure (r.map fun (_, p) => (msg, p))

/-- One round of the loop of `ipc_service_main`, after the wait: what the page of the message holds
is `req`. A handler's error is printed. -/
def ipcServiceRound (ops : FsOps σ κ) (sup : FsSupply τ) (req : FsRequest)
    (svc : IpcServiceContext κ τ) : FsM σ κ τ Unit := do
  match ← ipcServiceReceive sup svc with
  | .error .again => pure ()
  | .error _ => throw .panic
  | .ok (msg, _) =>
    let (p, _) ← svc.ipcscHandler.handle ops sup svc.ipcscTask msg.ipcmsgHeader (msg.fsPage req)
    match p with
    | none => pure ()
    | some _ => expectOk sup.free

/-! ## What the handlers call -/

def FsHandler.asks (ipch : IpcHeader) (pagep : Option FsPage) : FsHandler κ → Option FsUse
  | fs => none
  | file _ =>
    if ipch.ipchdrMsg = fsMsgRead then
      pagep.bind fun req => if req.length = 0 then none else some .read
    else if ipch.ipchdrMsg = fsMsgClose then if pagep.isSome then none else some .close
    else if ipch.ipchdrMsg = fsFileMsgExec then if pagep.isSome then none else some .exec
    else none
  | directory _ =>
    if ipch.ipchdrMsg = fsMsgRead then pagep.map fun _ => .read
    else if ipch.ipchdrMsg = fsMsgClose then if pagep.isSome then none else some .close
    else none

/-- Nothing of the file system changes. -/
structure FsFrame (w w' : FsWorld σ κ τ) : Prop where
  calls : w'.calls = w.calls
  opens : w'.opens = w.opens
  services : w'.services = w.services

theorem FsFrame.rfl {w : FsWorld σ κ τ} : FsFrame w w := ⟨Eq.refl _, Eq.refl _, Eq.refl _⟩

variable {w w' w'' : FsWorld σ κ τ}

theorem FsFrame.trans (h : FsFrame w w') (h' : FsFrame w' w'') :
    FsFrame w w'' :=
  ⟨h'.calls.trans h.calls, h'.opens.trans h.opens, h'.services.trans h.services⟩

/-- Whichever way the code ends, it leaves a world related by `R` to the one before. -/
def FsM.Does (x : FsM σ κ τ α) (R : FsWorld σ κ τ → FsWorld σ κ τ → Prop) : Prop :=
  ∀ w, R w (x.after w)

variable {x : FsM σ κ τ α} {f : α → FsM σ κ τ β} {R : FsWorld σ κ τ → FsWorld σ κ τ → Prop}

theorem FsM.run_bind (w : FsWorld σ κ τ) : (x >>= f).run.run w = match x.run.run w with
    | (.ok a, w') => (f a).run.run w'
    | (.error e, w') => (.error e, w') := by
  rw [ExceptT.run_bind, StateT.run_bind]
  rcases x.run.run w with ⟨_ | a, -⟩ <;> rfl

theorem FsM.Does.bind {Q : FsWorld σ κ τ → FsWorld σ κ τ → Prop} (hx : x.Does Q)
    (hp : ∀ w w', Q w w' → R w w')
    (hf : ∀ w w' a, x.run.run w = (.ok a, w') → Q w w' → R w ((f a).after w')) :
    FsM.Does (x >>= f) R := by
  intro w
  have hxw : Q w (x.run.run w).2 := hx w
  rw [after, run_bind]
  rcases hrun : x.run.run w with ⟨_ | a, w'⟩
  · rw [hrun] at hxw
    exact hp w w' hxw
  · rw [hrun] at hxw
    exact hf w w' a hrun hxw

theorem FsM.run_bind_ok {b : β} (hrun : (x >>= f).run.run w = (.ok b, w'')) :
    ∃ a w', x.run.run w = (.ok a, w') ∧ (f a).run.run w' = (.ok b, w'') := by
  rw [run_bind] at hrun
  rcases hx : x.run.run w with ⟨_ | a, w'⟩
  · rw [hx] at hrun
    cases hrun
  · rw [hx] at hrun
    exact ⟨a, w', rfl, hrun⟩

theorem FsM.Does.seq (hx : x.Does FsFrame) (hf : ∀ a, (f a).Does FsFrame) :
    FsM.Does (x >>= f) FsFrame :=
  hx.bind (fun _ _ h => h) fun _ w' a _ h => h.trans (hf a w')

theorem ipcCall_frame (g : IpcState τ → Outcome (IpcState τ × α)) :
    (ipcCall g : FsM σ κ τ α).Does FsFrame := by
  intro w
  show FsFrame w (FsM.after (match g w.ipc with | .ok (ipc, a) => _ | .error h => _) w)
  rcases g w.ipc with h | ⟨ipc, a⟩
  · exact .rfl
  · exact ⟨rfl, rfl, rfl⟩

variable {g : IpcState τ → Outcome (IpcState τ × α)} {w w' : FsWorld σ κ τ}

theorem ipcCall_run {a : α} (hrun : (ipcCall g).run.run w = (.ok a, w')) :
    ∃ ipc, g w.ipc = .ok (ipc, a) := by
  change StateT.run (ExceptT.run (match g w.ipc with | .ok (ipc, a) => _ | .error h => _)) w = _
    at hrun
  rcases hg : g w.ipc with h | ⟨ipc, b⟩
  · rw [hg] at hrun
    cases hrun
  · rw [hg] at hrun
    cases hrun
    exact ⟨ipc, rfl⟩

theorem expectOk_frame (r : Except Errno α) : (expectOk r : FsM σ κ τ α).Does FsFrame := by
  intro w
  cases r <;> exact .rfl

/-- The context is used once. -/
structure Uses (n : ℕ) (u : FsUse) (w w' : FsWorld σ κ τ) : Prop where
  calls : w'.calls = w.calls ++ [.used n u]
  opens : w'.opens = w.opens
  services : w'.services = w.services

theorem useContext_uses {u : FsUse} {g : σ → σ × α} (hf : ∀ a, (f a).Does FsFrame) :
    FsM.Does (useContext n u g >>= f) (Uses n u) := by
  have hu : (useContext n u g : FsM σ κ τ α).Does (Uses n u) := fun w => ⟨rfl, rfl, rfl⟩
  refine hu.bind (fun _ _ h => h) fun w w' a _ h => ?_
  have hfr := hf a w'
  exact ⟨hfr.calls.trans h.calls, hfr.opens.trans h.opens, hfr.services.trans h.services⟩

def Follows (n : ℕ) : Option FsUse → FsWorld σ κ τ → FsWorld σ κ τ → Prop
  | none => FsFrame
  | some u => Uses n u

variable {ops : FsOps σ κ} {sup : FsSupply τ} {current : τ} {reqh ipch : IpcHeader}
  {pagep : Option FsPage} {node : FsNode κ}

theorem FsM.Does.ite {y : FsM σ κ τ α} {c : Prop} [Decidable c] {u v : Option FsUse}
    (hx : x.Does (Follows n u)) (hy : y.Does (Follows n v)) :
    FsM.Does (if c then x else y) (Follows n (if c then u else v)) := by
  split_ifs
  · exact hx
  · exact hy

theorem send_frame {p : β} :
    FsM.Does (do let r ← ipcCall g; pure (p, r) : FsM σ κ τ (β × α)) FsFrame :=
  (ipcCall_frame g).seq fun _ _ => .rfl

variable {closeOp : κ → σ → σ × Except Errno Unit}

theorem fsNodeCloseHandler_follows :
    (fsNodeCloseHandler closeOp sup current node reqh pagep : FsM σ κ τ _).Does
      (Follows node.number (if pagep.isSome then none else some .close)) := by
  cases pagep with
  | some page => exact fun _ => .rfl
  | none =>
    refine useContext_uses fun r => ?_
    cases r <;> exact send_frame

theorem fsFileIpcReadHandler_follows :
    (fsFileIpcReadHandler ops sup current node reqh pagep : FsM σ κ τ _).Does
      (Follows node.number
        (pagep.bind fun req => if req.length = 0 then none else some .read)) := by
  cases pagep with
  | none => exact fun _ => .rfl
  | some req =>
    refine FsM.Does.ite (fun _ => .rfl) (useContext_uses fun r => ?_)
    cases r with
    | error e => exact send_frame
    | ok length =>
      dsimp only
      split_ifs <;> exact send_frame

theorem fsDirectoryIpcReadHandler_follows :
    (fsDirectoryIpcReadHandler ops sup current node reqh pagep : FsM σ κ τ _).Does
      (Follows node.number (pagep.map fun _ => .read)) := by
  cases pagep with
  | none => exact fun _ => .rfl
  | some req =>
    refine useContext_uses fun r => ?_
    cases r <;> exact send_frame

theorem fsFileIpcExecHandler_follows :
    (fsFileIpcExecHandler ops sup current node reqh pagep : FsM σ κ τ _).Does
      (Follows node.number (if pagep.isSome then none else some .exec)) := by
  cases pagep with
  | some page => exact fun _ => .rfl
  | none =>
    refine useContext_uses fun r => ?_
    cases r <;> exact send_frame

variable {handler : FsHandler κ}

theorem service_calls (hn : handler.number = some n) :
    (handler.handle ops sup current ipch pagep : FsM σ κ τ _).Does
      (Follows n (handler.asks ipch pagep)) := by
  cases handler with
  | fs => cases hn
  | file fsf =>
    cases hn
    exact fsFileIpcReadHandler_follows.ite
      (fsNodeCloseHandler_follows.ite (fsFileIpcExecHandler_follows.ite fun _ => .rfl))
  | directory fsd =>
    cases hn
    exact fsDirectoryIpcReadHandler_follows.ite (fsNodeCloseHandler_follows.ite fun _ => .rfl)

/-! ## What opens do -/

def Starts (handler : FsHandler κ) (w w' : FsWorld σ κ τ) : Prop :=
  w'.calls = w.calls ∧ w'.opens = w.opens ∧ (w'.services = w.services ∨
    ∃ port task, w'.services = w.services ++ [⟨handler, port, task⟩])

theorem FsFrame.starts (h : FsFrame w w') :
    Starts handler w w' :=
  ⟨h.calls, h.opens, .inl h.services⟩

theorem Starts.frame (h : Starts handler w w') (h' : FsFrame w' w'') : Starts handler w w'' :=
  ⟨h'.calls.trans h.1, h'.opens.trans h.2.1, h'.services ▸ h.2.2⟩

theorem FsFrame.trans_starts (h : FsFrame w w') (h' : Starts handler w' w'') :
    Starts handler w w'' :=
  ⟨h'.1.trans h.calls, h'.2.1.trans h.opens, h.services ▸ h'.2.2⟩

theorem FsM.Does.seq_starts (hx : x.Does FsFrame) (hf : ∀ a, (f a).Does (Starts handler)) :
    FsM.Does (x >>= f) (Starts handler) :=
  hx.bind (fun _ _ h => h.starts) fun _ w' a _ h => h.trans_starts (hf a w')

theorem ipcService_starts :
    (ipcService sup current port handler : FsM σ κ τ _).Does (Starts handler) := by
  refine (expectOk_frame _).seq_starts fun task => ?_
  refine (expectOk_frame _).seq_starts fun _ => ?_
  by_cases hp : port = ipcPortUnknown
  · rw [if_pos hp]
    exact fun _ => FsFrame.rfl.starts
  · rw [if_neg hp]
    refine (ipcCall_frame _).seq_starts fun r => (expectOk_frame r).seq_starts fun _ => ?_
    exact fun w => ⟨rfl, rfl, .inr ⟨port, task, rfl⟩⟩

def FsM.Returns (x : FsM σ κ τ α) (P : α → Prop) : Prop := ∀ w w' a, x.run.run w = (.ok a, w') → P a

theorem FsM.Returns.bind {P : β → Prop} (hf : ∀ a, (f a).Returns P) : FsM.Returns (x >>= f) P := by
  intro w w'' b hrun
  obtain ⟨a, w', -, hrun⟩ := run_bind_ok hrun
  exact hf a w' w'' b hrun

theorem ipcService_ok :
    (ipcService sup current port handler : FsM σ κ τ _).Returns (· = .ok ()) := by
  refine .bind fun task => .bind fun _ => ?_
  by_cases hp : port = ipcPortUnknown
  · rw [if_pos hp]
    rintro _ _ _ ⟨⟩
  · rw [if_neg hp]
    refine .bind fun r => .bind fun _ => .bind fun _ => ?_
    rintro _ _ _ ⟨⟩
    rfl

theorem fsServiceStart_starts :
    (fsServiceStart sup current handler : FsM σ κ τ _).Does (Starts handler) := by
  refine (ipcCall_frame _).seq_starts fun r => ?_
  cases r with
  | error e => exact fun _ => FsFrame.rfl.starts
  | ok port =>
    refine ipcService_starts.bind (fun _ _ h => h) fun w w' r hrun h => ?_
    obtain rfl := ipcService_ok w w' r hrun
    exact h

theorem fsServiceStart_error {e : Errno}
    (hrun : (fsServiceStart sup current handler).run.run w = (.ok (.error e), w')) :
    FsFrame w w' := by
  obtain ⟨r, w₁, hx, hrun⟩ := FsM.run_bind_ok hrun
  have ha := ipcCall_frame (ipcPortAllocate sup.mem current ipcPortFlagDefault) w
  rw [FsM.after, hx] at ha
  cases r with
  | error e' =>
    cases hrun
    exact ha
  | ok port =>
    -- the port is there, and the service starts or panics
    obtain ⟨r, w₂, hs, hrun⟩ := FsM.run_bind_ok hrun
    obtain rfl := ipcService_ok w₁ w₂ r hs
    cases hrun

/-- What an open may do: nothing; or one open, after which there is a service for the context or
none; or one open and one close, and no service. -/
inductive Opens (w w' : FsWorld σ κ τ) : Prop
  | nothing (h : FsFrame w w')
  | opened (hcalls : w'.calls = w.calls ++ [.opened w.opens]) (hopens : w'.opens = w.opens + 1)
      (hservices : w'.services = w.services ∨
        ∃ svc, w'.services = w.services ++ [svc] ∧ svc.ipcscHandler.number = some w.opens)
  | closed (hcalls : w'.calls = w.calls ++ [.opened w.opens, .used w.opens .close])
      (hopens : w'.opens = w.opens + 1) (hservices : w'.services = w.services)

theorem Opens.of_starts {w w₁ w' : FsWorld σ κ τ} (hc : w₁.calls = w.calls ++ [.opened w.opens])
    (ho : w₁.opens = w.opens + 1) (hs : w₁.services = w.services)
    (hn : handler.number = some w.opens) (h : Starts handler w₁ w') : Opens w w' := by
  obtain ⟨hc', ho', hs'⟩ := h
  refine .opened (hc'.trans hc) (ho'.trans ho) ?_
  rw [hs] at hs'
  rcases hs' with hs' | ⟨port, task, hs'⟩
  · exact .inl hs'
  · exact .inr ⟨_, hs', hn⟩

theorem openContext_run {op : σ → σ × Except Errno κ} (w : FsWorld σ κ τ) :
    (∃ e w', (openContext op).run.run w = (.ok (.error e), w') ∧ FsFrame w w') ∨
      ∃ context w', (openContext op).run.run w = (.ok (.ok (context, w.opens)), w') ∧
        w'.calls = w.calls ++ [.opened w.opens] ∧ w'.opens = w.opens + 1 ∧
        w'.services = w.services := by
  rcases ho : op w.fs with ⟨fs, e | context⟩
  · refine .inl ⟨e, { w with fs }, ?_, rfl, rfl, rfl⟩
    show StateT.run
      (ExceptT.run (match op w.fs with | (fs, .error e) => _ | (fs, .ok c) => _)) w = _
    rw [ho]
    rfl
  · refine .inr ⟨context,
      { w with fs, calls := w.calls ++ [.opened w.opens], opens := w.opens + 1 }, ?_, rfl, rfl, rfl⟩
    show StateT.run
      (ExceptT.run (match op w.fs with | (fs, .error e) => _ | (fs, .ok c) => _)) w = _
    rw [ho]
    rfl

theorem fsOpenGrant_frame : (fsOpenGrant sup current reqh port : FsM σ κ τ _).Does FsFrame := by
  refine (ipcCall_frame _).seq fun r => ?_
  cases r with
  | error e => exact fun _ => .rfl
  | ok u => exact (ipcCall_frame _).seq fun r => (expectOk_frame r).seq fun _ => ipcCall_frame _

theorem fsServiceStart_or_close {context : κ} :
    FsM.Does (do
      match ← fsServiceStart sup current handler with
      | .error e =>
        let r ← useContext n .close (closeOp context)
        expectOk r
        ipcPortSendNothing sup current (ipcHeaderError reqh e)
      | .ok port => fsOpenGrant sup current reqh port : FsM σ κ τ (Except Errno Unit))
      fun w w' => Starts handler w w' ∨ Uses n .close w w' := by
  refine fsServiceStart_starts.bind (fun _ _ h => .inl h) fun w w₁ r hrun h => ?_
  cases r with
  | error e =>
    have hf := fsServiceStart_error hrun
    obtain ⟨hc, ho, hs⟩ := useContext_uses
      (fun r => (expectOk_frame r).seq fun _ =>
        ipcCall_frame (ipcPortSendPage sup.mem current (ipcHeaderError reqh e) none)) w₁
    refine .inr ⟨hc.trans ?_, ho.trans hf.opens, hs.trans hf.services⟩
    rw [hf.calls]
  | ok port => exact .inl (h.frame (fsOpenGrant_frame w₁))

theorem fsIpcOpenHandler_opens {openOp : List UInt8 → σ → σ × Except Errno κ}
    {handler : FsNode κ → FsHandler κ} (hn : ∀ node, (handler node).number = some node.number) :
    (fsIpcOpenHandler openOp closeOp handler sup current reqh pagep : FsM σ κ τ _).Does Opens := by
  cases pagep with
  | none => exact fun _ => .nothing .rfl
  | some req =>
    intro w
    rw [fsIpcOpenHandler, FsM.after, FsM.run_bind]
    rcases openContext_run w with
      ⟨e, w₁, hrun, hf⟩ | ⟨context, w₁, hrun, hc, ho, hs⟩
    · rw [hrun]
      exact .nothing (hf.trans (ipcCall_frame _ w₁))
    rw [hrun]
    dsimp only
    by_cases hnd : sup.node = true
    · rw [if_pos hnd]
      rcases fsServiceStart_or_close w₁ with hst | hu
      · exact .of_starts hc ho hs (hn _) hst
      · refine .closed (hu.calls.trans ?_) (hu.opens.trans ho) (hu.services.trans hs)
        rw [hc, List.append_assoc]
        rfl
    · rw [if_neg hnd]
      exact .opened hc ho (.inl hs)

theorem fsIpcHandler_opens :
    (fsIpcHandler ops sup current ipch pagep : FsM σ κ τ _).Does Opens := by
  have ho : ∀ {y : FsM σ κ τ (Except Errno Unit)}, y.Does Opens →
      FsM.Does (do let r ← y; pure (pagep, r) : FsM σ κ τ _) Opens := fun hy =>
    hy.bind (fun _ _ h => h) fun _ _ _ _ h => h
  rw [fsIpcHandler]
  split_ifs
  · exact ho (fsIpcOpenHandler_opens fun _ => rfl)
  · exact ho (fsIpcOpenHandler_opens fun _ => rfl)
  · exact fun _ => .nothing .rfl

/-! ## Rounds -/

variable {svc : IpcServiceContext κ τ}

theorem ipcServiceReceive_frame : (ipcServiceReceive sup svc : FsM σ κ τ _).Does FsFrame := by
  refine (ipcCall_frame _).seq fun r => ?_
  cases r with
  | error e => exact fun _ => .rfl
  | ok msg =>
    exact (ipcCall_frame _).seq fun _ => (ipcCall_frame _).seq fun r _ => .rfl

theorem ipcServiceReceive_head {msg : IpcMessage} {p : Option UInt64}
    (hrun : (ipcServiceReceive sup svc).run.run w = (.ok (.ok (msg, p)), w')) :
    (queueOf w.ipc svc.ipcscPort).head? = some msg := by
  obtain ⟨r, w₁, hx, hrun⟩ := FsM.run_bind_ok hrun
  obtain ⟨ipc, hd⟩ := ipcCall_run hx
  cases r with
  | error e => cases hrun
  | ok msg' =>
    have hq := ((ipcPortDequeue_spec _ hd).2.1 msg' rfl).2
    -- what follows hands on the message
    obtain ⟨_, w₂, -, hrun⟩ := FsM.run_bind_ok hrun
    obtain ⟨r, w₃, -, hrun⟩ := FsM.run_bind_ok hrun
    cases r with
    | error e => cases hrun
    | ok q =>
      cases hrun
      rw [hq]
      rfl

def IpcServiceContext.asked (svc : IpcServiceContext κ τ) (ipc : IpcState τ) (req : FsRequest) :
    Option FsUse :=
  (queueOf ipc svc.ipcscPort).head?.bind fun msg =>
    svc.ipcscHandler.asks msg.ipcmsgHeader (msg.fsPage req)

theorem ipcServiceRound_cases (svc : IpcServiceContext κ τ) (req : FsRequest) (w : FsWorld σ κ τ) :
    FsFrame w ((ipcServiceRound ops sup req svc).after w) ∨
      ∃ msg w₁, (queueOf w.ipc svc.ipcscPort).head? = some msg ∧ FsFrame w w₁ ∧
        FsFrame ((svc.ipcscHandler.handle ops sup svc.ipcscTask msg.ipcmsgHeader
          (msg.fsPage req)).after w₁) ((ipcServiceRound ops sup req svc).after w) := by
  have hr : FsFrame w ((ipcServiceReceive sup svc).run.run w).2 := ipcServiceReceive_frame w
  rw [FsM.after, ipcServiceRound, FsM.run_bind]
  rcases hrun : (ipcServiceReceive sup svc : FsM σ κ τ _).run.run w with ⟨_ | r, w₁⟩
  · rw [hrun] at hr
    exact .inl hr
  rw [hrun] at hr
  cases r with
  | error e => cases e <;> exact .inl hr
  | ok r =>
    obtain ⟨msg, p⟩ := r
    refine .inr ⟨msg, w₁, ipcServiceReceive_head hrun, hr, ?_⟩
    dsimp only
    rw [FsM.run_bind, FsM.after]
    rcases (svc.ipcscHandler.handle ops sup svc.ipcscTask msg.ipcmsgHeader
      (msg.fsPage req)).run.run w₁ with ⟨_ | ⟨p', r⟩, w₂⟩
    · exact .rfl
    · cases p' with
      | none => exact .rfl
      | some page => exact expectOk_frame sup.free w₂

theorem ipcServiceRound_node {req : FsRequest} (hn : svc.ipcscHandler.number = some n) :
    FsFrame w ((ipcServiceRound ops sup req svc).after w) ∨
      ∃ u, svc.asked w.ipc req = some u ∧
        Uses n u w ((ipcServiceRound ops sup req svc).after w) := by
  rcases ipcServiceRound_cases svc req w with hfr | ⟨msg, w₁, hh, hb, ha⟩
  · exact .inl hfr
  have has : svc.asked w.ipc req = svc.ipcscHandler.asks msg.ipcmsgHeader (msg.fsPage req) := by
    rw [IpcServiceContext.asked, hh, Option.bind_some]
  have hf : Follows n _ w₁ ((svc.ipcscHandler.handle ops sup svc.ipcscTask
      msg.ipcmsgHeader (msg.fsPage req)).after w₁) := service_calls hn w₁
  rw [← has] at hf
  cases hask : svc.asked w.ipc req with
  | none =>
    rw [hask] at hf
    exact .inl ((hb.trans hf).trans ha)
  | some u =>
    rw [hask] at hf
    refine .inr ⟨u, rfl, ?_, ?_, ?_⟩
    · rw [ha.calls, hf.calls, hb.calls]
    · rw [ha.opens, hf.opens, hb.opens]
    · rw [ha.services, hf.services, hb.services]

theorem Opens.frame {w w₁ w₂ w' : FsWorld σ κ τ} (hb : FsFrame w w₁) (h : Opens w₁ w₂)
    (ha : FsFrame w₂ w') : Opens w w' := by
  cases h with
  | nothing h => exact .nothing ((hb.trans h).trans ha)
  | opened hc ho hs =>
    rw [hb.calls, hb.opens] at hc
    rw [hb.opens] at ho
    rw [hb.services, hb.opens] at hs
    exact .opened (ha.calls.trans hc) (ha.opens.trans ho) (ha.services ▸ hs)
  | closed hc ho hs =>
    rw [hb.calls, hb.opens] at hc
    rw [hb.opens] at ho
    rw [hb.services] at hs
    exact .closed (ha.calls.trans hc) (ha.opens.trans ho) (ha.services.trans hs)

theorem ipcServiceRound_fs {req : FsRequest} (hn : svc.ipcscHandler.number = none) :
    (ipcServiceRound ops sup req svc : FsM σ κ τ _).Does Opens := by
  intro w
  rcases ipcServiceRound_cases svc req w with hf | ⟨msg, w₁, -, hb, ha⟩
  · exact .nothing hf
  cases hh : svc.ipcscHandler with
  | fs =>
    rw [hh] at ha
    exact .frame hb (fsIpcHandler_opens w₁) ha
  | file fsf | directory fsd =>
    rw [hh] at hn
    cases hn

end Glatt
