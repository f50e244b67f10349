import Glatt.Ipc.Port
import Glatt.Vm.Alloc
import Glatt.Vm.PageLookup

/-!
# System calls

The system calls of `core_syscall.c` that work on memory, with `ipc_port_send` and
`ipc_port_receive` as they move pages between address spaces.

A call runs to its end before the next one starts. The header of a message is read from and written
to memory that the user can write at any time; it is an argument and a result here. What the calls
of `pool_allocate` return is given with a call, and so is `mem`, which says whether `malloc` has
memory for messages and rights. In the source `pool_allocate` panics where it has nothing to return,
so `none` stands for a call that is not made, or for a branch that is never taken.

## Main definitions

* `System`: the memory and the ports
* `Syscall`, `Syscall.run`: the calls with their parameters
-/

namespace Glatt

open Imperative

/-- The memory with its address spaces, and the ports. -/
structure System (ν ι τ : Type) [LinearOrder τ] where
  vm : VmState ν ι
  ipc : IpcState τ

/-- What the allocators return to a call: the results of `pool_allocate` for the indices of the
user and of the kernel, and whether messages and rights can be allocated. -/
structure Supply (ι : Type) where
  user₁ : Option ι
  user₂ : Option ι
  kernel₁ : Option ι
  kernel₂ : Option ι
  mem : Bool

def sizeofIpcHeader : UInt64 := 32

variable {ν ι τ : Type} [DecidableEq ν] [DecidableEq ι] [LinearOrder τ] (kernelVm : ν)

/-! ## Pages in messages -/

/-- The first part of `ipc_port_send`: the page at an address leaves the address space, and its
address becomes free. -/
def ipcTakePage (vm : ν) (vpage : UInt64) (s : VmState ν ι) :
    Outcome (VmState ν ι × Except Errno UInt64) := do
  match ← pageExtract kernelVm vm vpage s.mem with
  | .error e => pure (s, .error e)
  | .ok page =>
    if vm = kernelVm then
      let s ← s.onMem (MemState.onPages (pageUnmapDirect page))
      pure (s, .ok page)
    else
      let s ← s.onMem fun mem => orPanic (pageUnmap vm vpage page mem)
      let s ← vmReleaseAddress vm vpage s
      pure (s, .ok page)

/-- The part of `ipc_port_send` behind it: a page that cannot be sent is released. -/
def ipcSendTaken (mem : Bool) (current : τ) (ipch : IpcHeader) (page : Option UInt64)
    (s : System ν ι τ) : Outcome (System ν ι τ × Except Errno Unit) := do
  match ← ipcPortSendPage mem current ipch page s.ipc, page with
  | (ipc, .ok ()), _ => pure ({ s with ipc }, .ok ())
  | (ipc, .error e), none => pure ({ s with ipc }, .error e)
  | (ipc, .error e), some page =>
    let vm ← s.vm.onMem (MemState.onPages (pageRelease page))
    pure (⟨vm, ipc⟩, .error e)

/-- `ipc_port_send`; `vm` is the address space of the task, `kernel_vm` for a kernel task. -/
def ipcPortSend (mem : Bool) (current : τ) (vm : ν) (ipch : IpcHeader) (vpage : UInt64)
    (s : System ν ι τ) : Outcome (System ν ι τ × Except Errno Unit) :=
  if vpage = 0 then ipcSendTaken mem current ipch none s
  else do
    match ← ipcTakePage kernelVm vm vpage s.vm with
    | (vm, .error e) => pure ({ s with vm }, .error e)
    | (vm, .ok page) => ipcSendTaken mem current ipch (some page) { s with vm }

/-- The part of `ipc_port_receive` that maps the page of a message, with the answers of the address
space. -/
def ipcMapPage (new₁ new₂ : Option ι) (vm : ν) (page : UInt64) (s : VmState ν ι) :
    Outcome (VmState ν ι × MapReply) :=
  if vm = kernelVm then do
    match ← pageMapDirect true page s.mem.pages with
    | (pages, .ok vaddr) => pure ({ s with mem := { s.mem with pages } }, .kernel (.ok vaddr))
    | (pages, .error e) =>
      let s ← VmState.onMem (MemState.onPages (pageRelease page))
        { s with mem := { s.mem with pages } }
      pure (s, .kernel (.error e))
  else do
    match ← vmAllocAddress new₁ new₂ 1 false (s.index vm) with
    | (index, .error e) =>
      let s ← (s.setIndex vm index).onMem (MemState.onPages (pageRelease page))
      pure (s, .user (.error e) (.ok ()))
    | (index, .ok vaddr) =>
      match ← pageMap kernelVm vm vaddr page s.mem with
      | (mem, .ok ()) => pure ({ s.setIndex vm index with mem }, .user (.ok vaddr) (.ok ()))
      | (mem, .error e) =>
        let s ← vmReleaseAddress vm vaddr { s.setIndex vm index with mem }
        let s ← s.onMem (MemState.onPages (pageRelease page))
        pure (s, .user (.ok vaddr) (.error e))

def ipcReceivePage (new₁ new₂ : Option ι) (vm : ν) (ipcmsg : IpcMessage) (s : VmState ν ι) :
    Outcome (VmState ν ι × Except Errno (IpcHeader × Option UInt64)) :=
  match ipcmsg.ipcmsgPage with
  | none => pure (s, .ok (ipcmsg.ipcmsgHeader, none))
  | some page => do
    let (s, reply) ← ipcMapPage kernelVm new₁ new₂ vm page s
    let r ← ipcPortDeliver true reply ipcmsg
    pure (s, r)

def ipcPortReceive (supply : Supply ι) (current : τ) (vm : ν) (port : UInt32) (s : System ν ι τ) :
    Outcome (System ν ι τ × Except Errno (IpcHeader × Option UInt64)) := do
  match ← ipcPortDequeue current port s.ipc with
  | (ipc, .error e) => pure ({ s with ipc }, .error e)
  | (ipc, .ok ipcmsg) =>
    let ipc ← ipcPortAccept supply.mem current ipcmsg ipc
    let (vm, r) ← ipcReceivePage kernelVm supply.user₁ supply.user₂ vm ipcmsg s.vm
    pure (⟨vm, ipc⟩, r)

/-! ## The calls -/

/-- The system calls on memory, with their parameters. -/
inductive Syscall
  | vmPageGet
  | vmPageFree (vaddr : UInt64)
  | vmAlloc (size : UInt64)
  | vmFree (vaddr size : UInt64)
  | ipcPortSend (uvaddr vpage : UInt64) (ipch : IpcHeader)
  | ipcPortReceive (port : UInt32) (uvaddr : UInt64)

def System.onVm {α : Type} (s : System ν ι τ)
    (x : Outcome (VmState ν ι × Except Errno α)) (f : α → UInt64) :
    Outcome (System ν ι τ × Except Errno UInt64) := do
  let (vm, r) ← x
  pure ({ s with vm }, r.map f)

/-- `syscall_ipc_port_send`: the header is wired while it is used, but stays wired when the message
cannot be sent. -/
def syscallIpcPortSend (supply : Supply ι) (current : τ) (vm : ν) (uvaddr vpage : UInt64)
    (ipch : IpcHeader) (s : System ν ι τ) :
    Outcome (System ν ι τ × Except Errno UInt64) := do
  let (v, kvaddr, _) ← vmWire kernelVm supply.kernel₁ supply.kernel₂ vm uvaddr sizeofIpcHeader
    false s.vm
  match ← ipcPortSend kernelVm supply.mem current vm ipch vpage { s with vm := v } with
  | (s, .error e) => pure (s, .error e)
  | (s, .ok ()) =>
    let v ← vmUnwire kernelVm vm uvaddr sizeofIpcHeader kvaddr s.vm
    pure ({ s with vm := v }, .ok 0)

def syscallIpcPortReceive (supply : Supply ι) (current : τ) (vm : ν) (port : UInt32)
    (uvaddr : UInt64) (s : System ν ι τ) :
    Outcome (System ν ι τ × Except Errno UInt64) := do
  let (v, kvaddr, _) ← vmWire kernelVm supply.kernel₁ supply.kernel₂ vm uvaddr sizeofIpcHeader
    true s.vm
  match ← ipcPortReceive kernelVm supply current vm port { s with vm := v } with
  | (s, .error e) => pure (s, .error e)
  | (s, .ok (_, page)) =>
    let v ← vmUnwire kernelVm vm uvaddr sizeofIpcHeader kvaddr s.vm
    pure ({ s with vm := v }, .ok (page.getD 0))

def Syscall.run (supply : Supply ι) (current : τ) (vm : ν) (s : System ν ι τ) :
    Syscall → Outcome (System ν ι τ × Except Errno UInt64)
  | vmPageGet => s.onVm (vmAllocPage kernelVm supply.user₁ supply.user₂ vm s.vm) id
  | vmPageFree vaddr => s.onVm (vmFreePage kernelVm vm vaddr s.vm) fun _ => 0
  | vmAlloc size =>
    s.onVm (Glatt.vmAlloc kernelVm supply.user₁ supply.user₂ vm size vmAllocDefault s.vm) id
  | vmFree vaddr size => s.onVm (Glatt.vmFree kernelVm vm size vaddr s.vm) fun _ => 0
  | ipcPortSend uvaddr vpage ipch =>
    syscallIpcPortSend kernelVm supply current vm uvaddr vpage ipch s
  | ipcPortReceive port uvaddr =>
    syscallIpcPortReceive kernelVm supply current vm port uvaddr s

/-- A system call of a task, with what the allocators return to it. -/
structure SyscallEvent (ι τ : Type) where
  task : τ
  supply : Supply ι
  call : Syscall

/-- The system at its start: the pages of a range, over memory of zeros, address spaces as
`vm_setup` leaves them, and no ports. -/
def startSystem (r : PageRange) : System ℕ ℕ ℕ where
  vm :=
    { mem :=
        { pages := (r.insert (pageInit blankPages)).toOption.getD blankPages
          pmap := fun _ => userPmap
          ptPages := [] }
      index := fun _ => ((vmInsertRange (some 0) (userBase + pageSize) userEnd
        (vmSetup2 ⟨fun _ => ⟨0, 0, 0⟩, LinkedTree.empty, LinkedTree.empty⟩)).toOption.map
          Prod.fst).getD ⟨fun _ => ⟨0, 0, 0⟩, LinkedTree.empty, LinkedTree.empty⟩ }
  ipc := ⟨fun _ => none, ipcPortUnreservedStart⟩

end Glatt
