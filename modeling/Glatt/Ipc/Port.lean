import Glatt.Core.Error
import Glatt.Lib.KeyedList

/-!
# IPC ports

The functions of `ipc_port.c` on the state they share. A task is its address; the rights on a port
are listed as the port's tree lists them, by task; the ports are found by number.

A function that blocks only on the locks of the ports it works on is one step of the kernel. The
receive call unlocks the port before it installs the rights a message carries, so its parts are
functions of their own: `ipcPortDequeue` is the part under the lock of the port, `ipcPortAccept`
the part under the lock of the source port, and `ipcPortDeliver` maps the page.

The memory allocator is the environment's: `mem` says whether the allocations of a call succeed.
The code does not check them, so a failed one faults.

## Main definitions

* `IpcPort`, `IpcMessage`, `IpcState`: ports with their rights and queues
* `ipcPortAllocate`, `ipcPortSendPage`, `ipcPortRightGrant`, `ipcPortRightSend`,
  `ipcPortRightDrop`: the calls
-/

namespace Glatt

open Imperative

/-! ## Messages, rights and ports -/

/-- `struct ipc_header`. -/
structure IpcHeader where
  ipchdrSrc : UInt32
  ipchdrDst : UInt32
  ipchdrRight : UInt16
  ipchdrMsg : UInt16
  ipchdrCookie : UInt64
  ipchdrParam : UInt64
  deriving DecidableEq

/-- `struct ipc_message`: a header, and the page that goes with it. -/
structure IpcMessage where
  ipcmsgHeader : IpcHeader
  ipcmsgPage : Option UInt64
  deriving DecidableEq

/-- `struct ipc_port`, less its lock and condition variable. -/
structure IpcPort (τ : Type) [LinearOrder τ] where
  ipcpFlags : UInt32
  ipcpMsgs : List IpcMessage
  ipcpRights : KeyedList τ UInt16

/-- The registered ports `ipc_ports`, and `ipc_port_next`. -/
structure IpcState (τ : Type) [LinearOrder τ] where
  ipcPorts : UInt32 → Option (IpcPort τ)
  ipcPortNext : UInt32

def ipcPortUnknown : UInt32 := 0

def ipcPortUnreservedStart : UInt32 := 3

def ipcPortRightNone : UInt16 := 0

def ipcPortRightSendBit : UInt16 := 1

def ipcPortRightSendOnceBit : UInt16 := 2

def ipcPortRightReceiveBit : UInt16 := 4

def ipcPortFlagNew : UInt32 := 1

def ipcPortFlagPublic : UInt32 := 2

def ipcMsgNone : UInt16 := 0

variable {τ : Type} [LinearOrder τ]

def IpcState.setPort (s : IpcState τ) (port : UInt32) (ipcp : IpcPort τ) : IpcState τ :=
  { s with ipcPorts := Function.update s.ipcPorts port (some ipcp) }

/-! ## The rights of a port -/

def ipcPortRightLookup (ipcp : IpcPort τ) (task : τ) : Option UInt16 :=
  KeyedList.get task ipcp.ipcpRights

def IpcPort.modifyRight (ipcp : IpcPort τ) (task : τ) (f : UInt16 → UInt16) : IpcPort τ :=
  { ipcp with ipcpRights := KeyedList.modify task f ipcp.ipcpRights }

/-- `ipc_port_right_check`: a receive right allows anything, a send right or else a send-once right,
which is consumed, allows to send. -/
def ipcPortRightCheck (ipcp : IpcPort τ) (task : τ) (right : UInt16) : Outcome (IpcPort τ × Bool) :=
  if right &&& ipcPortRightSendOnceBit ≠ 0 then .error .panic
  else
    match ipcPortRightLookup ipcp task with
    | none => pure (ipcp, false)
    | some r =>
      if r &&& ipcPortRightReceiveBit ≠ 0 then pure (ipcp, true)
      else if right ≠ ipcPortRightSendBit then pure (ipcp, false)
      else if r &&& ipcPortRightSendBit ≠ 0 then pure (ipcp, true)
      else if r &&& ipcPortRightSendOnceBit ≠ 0 then
        pure (ipcp.modifyRight task fun r => r &&& ~~~ ipcPortRightSendOnceBit, true)
      else pure (ipcp, false)

def ipcPortRightInsert (mem : Bool) (ipcp : IpcPort τ) (task : τ) (right : UInt16) :
    Outcome (IpcPort τ) :=
  if right &&& ipcPortRightReceiveBit = 0 ∧ ipcp.ipcpFlags &&& ipcPortFlagPublic ≠ 0 then pure ipcp
  else
    match ipcPortRightLookup ipcp task with
    | some _ => pure (ipcp.modifyRight task fun r => r ||| right)
    | none =>
      if mem then pure { ipcp with ipcpRights := KeyedList.put task right ipcp.ipcpRights }
      else .error .fault

def ipcPortRightRemove (ipcp : IpcPort τ) (task : τ) (right : UInt16) :
    IpcPort τ × Except Errno Unit :=
  match ipcPortRightLookup ipcp task with
  | none => (ipcp, .error .noRight)
  | some _ => (ipcp.modifyRight task fun r => r &&& ~~~ right, .ok ())

/-! ## Ports -/

/-- `ipc_port_alloc`: a port that is not registered, with a receive right for the task. -/
def ipcPortAlloc (mem : Bool) (task : τ) : Outcome (IpcPort τ) :=
  if mem then ipcPortRightInsert mem ⟨ipcPortFlagNew, [], .empty⟩ task ipcPortRightReceiveBit
  else .error .fault

def ipcPortRegister (ipcp : IpcPort τ) (port flags : UInt32) (s : IpcState τ) :
    IpcState τ × Except Errno Unit :=
  match s.ipcPorts port with
  | some _ => (s, .error .notFree)
  | none =>
    (s.setPort port { ipcp with ipcpFlags := (ipcp.ipcpFlags &&& ~~~ ipcPortFlagNew) ||| flags },
      .ok ())

/-- The search of `ipc_port_allocate` for a free number, from `ipc_port_next` on: the number, and
the next value of the counter. -/
def ipcPortNumber (s : IpcState τ) : Outcome (UInt32 × UInt32) :=
  loop (fun next : UInt32 =>
    if next < ipcPortUnreservedStart then pure (.inl ipcPortUnreservedStart)
    else
      match s.ipcPorts next with
      | some _ => pure (.inl (next + 1))
      | none => pure (.inr (next, next + 1))) (2 ^ 32 + 2) s.ipcPortNext

def ipcPortAllocate (mem : Bool) (task : τ) (flags : UInt32) (s : IpcState τ) :
    Outcome (IpcState τ × Except Errno UInt32) := do
  let ipcp ← ipcPortAlloc mem task
  let (port, next) ← ipcPortNumber s
  match ipcPortRegister ipcp port flags { s with ipcPortNext := next } with
  | (_, .error _) => .error .panic
  | (s, .ok ()) => pure (s, .ok port)

/-! ## Rights across ports -/

def ipcPortRightDrop (task : τ) (port : UInt32) (right : UInt16) (s : IpcState τ) :
    Outcome (IpcState τ × Except Errno Unit) :=
  match s.ipcPorts port with
  | none => pure (s, .error .notFound)
  | some ipcp =>
    let (ipcp, r) := ipcPortRightRemove ipcp task right
    pure (s.setPort port ipcp, r)

def ipcPortRightGrant (mem : Bool) (current task : τ) (src : UInt32) (right : UInt16)
    (s : IpcState τ) : Outcome (IpcState τ × Except Errno Unit) :=
  match s.ipcPorts src with
  | none => pure (s, .error .notFound)
  | some ipcp => do
    let (ipcp, ok) ← ipcPortRightCheck ipcp current ipcPortRightReceiveBit
    if ok then
      let ipcp ← ipcPortRightInsert mem ipcp task right
      pure (s.setPort src ipcp, .ok ())
    else pure (s.setPort src ipcp, .error .noRight)

/-- The loop of `ipc_port_right_send`: every task with a receive right on the destination gets the
right on the source port. -/
def ipcPortRightSendAll (mem : Bool) (right : UInt16) :
    List (τ × UInt16) → IpcPort τ → Outcome (IpcPort τ)
  | [], srcp => pure srcp
  | (task, r) :: rights, srcp =>
    if r &&& ipcPortRightReceiveBit ≠ 0 then do
      let srcp ← ipcPortRightInsert mem srcp task right
      ipcPortRightSendAll mem right rights srcp
    else ipcPortRightSendAll mem right rights srcp

/-- `ipc_port_right_send`. The source port is locked when the destination is looked up, so a port
that is sent to itself is locked twice. -/
def ipcPortRightSend (mem : Bool) (current : τ) (dst src : UInt32) (right : UInt16)
    (s : IpcState τ) : Outcome (IpcState τ × Except Errno Unit) :=
  match s.ipcPorts src with
  | none => pure (s, .error .notFound)
  | some srcp => do
    let (srcp, ok) ← ipcPortRightCheck srcp current ipcPortRightReceiveBit
    if ok then
      match s.ipcPorts dst with
      | none => pure (s.setPort src srcp, .error .notFound)
      | some dstp =>
        if dst = src then .error .panic
        else
          let srcp ← ipcPortRightSendAll mem right dstp.ipcpRights.entries srcp
          pure (s.setPort src srcp, .ok ())
    else pure (s.setPort src srcp, .error .noRight)

/-! ## Sending -/

/-- The second check of `ipc_port_send_page`: a send right on the destination is needed unless the
port is public or the message is `IPC_MSG_NONE`. -/
def ipcPortSendCheck (current : τ) (ipch : IpcHeader) (ipcp : IpcPort τ) :
    Outcome (IpcPort τ × Bool) :=
  if ipcp.ipcpFlags &&& ipcPortFlagPublic = 0 ∧ ipch.ipchdrMsg ≠ ipcMsgNone then
    ipcPortRightCheck ipcp current ipcPortRightSendBit
  else pure (ipcp, true)

def ipcPortEnqueue (mem : Bool) (current : τ) (ipch : IpcHeader) (page : Option UInt64)
    (ipcp : IpcPort τ) : Outcome (IpcPort τ × Except Errno Unit) := do
  let (ipcp, ok) ← ipcPortSendCheck current ipch ipcp
  if ok then
    if mem then pure ({ ipcp with ipcpMsgs := ipcp.ipcpMsgs ++ [⟨ipch, page⟩] }, .ok ())
    else .error .fault
  else pure (ipcp, .error .noRight)

/-- `ipc_port_send_page`: the sender needs a receive right on the source port. -/
def ipcPortSendPage (mem : Bool) (current : τ) (ipch : IpcHeader) (page : Option UInt64)
    (s : IpcState τ) : Outcome (IpcState τ × Except Errno Unit) :=
  if ipch.ipchdrMsg = ipcMsgNone ∧ page ≠ none then pure (s, .error .invalid)
  else
    match s.ipcPorts ipch.ipchdrSrc with
    | none => pure (s, .error .invalid)
    | some srcp => do
      let (srcp, ok) ← ipcPortRightCheck srcp current ipcPortRightReceiveBit
      let s := s.setPort ipch.ipchdrSrc srcp
      if ok then
        match s.ipcPorts ipch.ipchdrDst with
        | none => pure (s, .error .notFound)
        | some dstp =>
          let (dstp, r) ← ipcPortEnqueue mem current ipch page dstp
          pure (s.setPort ipch.ipchdrDst dstp, r)
      else pure (s, .error .noRight)

/-! ## Receiving -/

def ipcPortDequeue (current : τ) (port : UInt32) (s : IpcState τ) :
    Outcome (IpcState τ × Except Errno IpcMessage) :=
  match s.ipcPorts port with
  | none => pure (s, .error .notFound)
  | some ipcp => do
    let (ipcp, ok) ← ipcPortRightCheck ipcp current ipcPortRightReceiveBit
    if ok then
      match ipcp.ipcpMsgs with
      | [] => pure (s.setPort port ipcp, .error .again)
      | ipcmsg :: msgs => pure (s.setPort port { ipcp with ipcpMsgs := msgs }, .ok ipcmsg)
    else pure (s.setPort port ipcp, .error .noRight)

/-- The second part of `ipc_port_receive`: the rights the message carries are inserted on its
source port. -/
def ipcPortAccept (mem : Bool) (current : τ) (ipcmsg : IpcMessage) (s : IpcState τ) :
    Outcome (IpcState τ) :=
  if ipcmsg.ipcmsgHeader.ipchdrRight ≠ ipcPortRightNone then
    match s.ipcPorts ipcmsg.ipcmsgHeader.ipchdrSrc with
    | none => .error .panic
    | some ipcp => do
      let ipcp ← ipcPortRightInsert mem ipcp current ipcmsg.ipcmsgHeader.ipchdrRight
      pure (s.setPort ipcmsg.ipcmsgHeader.ipchdrSrc ipcp)
  else pure s

/-- What the address space of the receiver answers to the last part of `ipc_port_receive`: a user
task allocates an address and maps the page there, a kernel task maps it directly. -/
inductive MapReply
  | user (alloc : Except Errno UInt64) (map : Except Errno Unit)
  | kernel (map : Except Errno UInt64)

/-- The last part of `ipc_port_receive`: the page is refused or mapped, and the header copied out.
When the page of a user task cannot be mapped, the message is freed and used all the same. -/
def ipcPortDeliver (vpagep : Bool) (reply : MapReply) (ipcmsg : IpcMessage) :
    Outcome (Except Errno (IpcHeader × Option UInt64)) :=
  match ipcmsg.ipcmsgPage with
  | none => pure (.ok (ipcmsg.ipcmsgHeader, none))
  | some _ =>
    if vpagep then
      match reply with
      | .user (.error e) _ => pure (.error e)
      | .user (.ok _) (.error _) => .error .fault
      | .user (.ok vaddr) (.ok ()) => pure (.ok (ipcmsg.ipcmsgHeader, some vaddr))
      | .kernel (.error e) => pure (.error e)
      | .kernel (.ok vaddr) => pure (.ok (ipcmsg.ipcmsgHeader, some vaddr))
    else pure (.ok (ipcmsg.ipcmsgHeader, none))

end Glatt
