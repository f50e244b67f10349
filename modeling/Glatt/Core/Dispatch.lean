import Glatt.Core.Syscall

/-!
# The table of system calls

`syscall` of `core_syscall.c` with all its handlers: a number is looked up in the table, the number
of parameters is compared, and the handler is called with the registers. A thread that exits does
not come back; one that waits for a message sleeps until it is woken, and has changed nothing.

The kernel's stack of a new thread is wired in the TLB. That sets a bit of the page table entries
which no function here reads; the bit is not modelled, only that the entries are found.

## Main definitions

* `SyscallHandler`, `syscallVector`: the handlers and the table
* `syscall`, `vmFaultStack`: a call, and a fault on a user's stack
-/

namespace Glatt

open Imperative

/-- The functions of `core_syscall.c` that the table names. -/
inductive SyscallHandler
  | threadExit
  | threadCreate
  | ipcPortAllocate
  | ipcPortSend
  | ipcPortWait
  | ipcPortReceive
  | ipcTaskPort
  | vmPageGet
  | vmPageFree
  | vmAlloc
  | vmFree
  | vmAllocRange
  deriving DecidableEq

/-- `struct syscall_vector`. -/
structure SyscallVector where
  svInputs : UInt64
  svOutputs : UInt64
  svHandler : SyscallHandler

def syscallLast : UInt32 := 0x34

def syscallVector : List (UInt32 × SyscallVector) := [(0x00, ⟨0, 0, .threadExit⟩),
   (0x01, ⟨2, 0, .threadCreate⟩),
   (0x10, ⟨1, 1, .ipcPortAllocate⟩),
   (0x11, ⟨2, 0, .ipcPortSend⟩),
   (0x12, ⟨1, 0, .ipcPortWait⟩),
   (0x13, ⟨2, 1, .ipcPortReceive⟩),
   (0x14, ⟨0, 1, .ipcTaskPort⟩),
   (0x30, ⟨0, 1, .vmPageGet⟩),
   (0x31, ⟨1, 0, .vmPageFree⟩),
   (0x32, ⟨1, 1, .vmAlloc⟩),
   (0x33, ⟨2, 0, .vmFree⟩),
   (0x34, ⟨2, 0, .vmAllocRange⟩)]

/-- What a call finds besides its parameters: what the allocators return, those of a second
`vm_alloc_range` and of `thread_create` included, the task port, and the header that the user's
memory has when it is read. -/
structure SyscallEnv (ι : Type) extends Supply ι where
  range₁ : Option ι
  range₂ : Option ι
  thread : Bool
  ipctTaskPort : UInt32
  ipch : IpcHeader

/-- How a call ends: with an error code or none, `*cnt`, and the first register; or not at all,
because its thread has exited. -/
inductive SyscallEnd
  | returned (error : Option Errno) (cnt param : UInt64)
  | exited
  deriving DecidableEq

def kstackSize : UInt64 := 2 * pageSize

def ustackSize : UInt64 := 128 * pageSize

variable {ν ι τ : Type} [DecidableEq ν] [DecidableEq ι] [LinearOrder τ] (kernelVm : ν)

/-! ## Threads -/

/-- `tlb_wired_wire` of the kernel, less the bit that it sets. A new context has enough slots for
the pages of a stack. -/
def tlbWiredWire (vaddr : UInt64) (mem : MemState ν) : Outcome (MemState ν) :=
  match pmapFind (mem.pmap kernelVm) (pageFloor vaddr) with
  | none => .error .panic
  | some _ => pure mem

/-- `cpu_thread_setup` of a thread with a user stack: the kernel's stack has pages, that of the user
has addresses. -/
def cpuThreadSetup (supply : Supply ι) (vm : ν) (s : VmState ν ι) :
    Outcome (VmState ν ι × Except Errno Unit) := do
  match ← vmAlloc kernelVm supply.kernel₁ supply.kernel₂ kernelVm kstackSize
      (vmAllocDefault ||| vmAllocHigh) s with
  | (s, .error e) => pure (s, .error e)
  | (s, .ok kstack) =>
    let s ← s.onMem fun mem => forRange (fun o mem => tlbWiredWire kernelVm (pageAt kstack o) mem)
      (kstackSize / pageSize).toNat mem
    let (index, r) ← vmAllocAddress supply.user₁ supply.user₂ (ustackSize / pageSize) true
      (s.index vm)
    pure (s.setIndex vm index, r.map fun _ => ())

def syscallThreadCreate (env : SyscallEnv ι) (vm : ν) (s : VmState ν ι) :
    Outcome (VmState ν ι × Except Errno Unit) :=
  if env.thread then do
    let s ← orPanic (cpuThreadSetup kernelVm env.toSupply vm s)
    pure (s, .ok ())
  else pure (s, .error .exhausted)

/-! ## Ports and ranges -/

/-- `ipc_port_wait`, which sleeps where it returns success for a port without messages. -/
def ipcPortWait (current : τ) (port : UInt32) (s : IpcState τ) :
    Outcome (IpcState τ × Except Errno Unit) :=
  match s.ipcPorts port with
  | none => pure (s, .error .notFound)
  | some ipcp =>
    if ipcp.ipcpMsgs ≠ [] then pure (s, .ok ())
    else do
      let (ipcp, ok) ← ipcPortRightCheck ipcp current ipcPortRightReceiveBit
      if ok then pure (s.setPort port ipcp, .ok ()) else pure (s.setPort port ipcp, .error .noRight)

/-- `syscall_vm_alloc_range`: the range is allocated twice. -/
def syscallVmAllocRange (env : SyscallEnv ι) (vm : ν) (begin end_ : UInt64) (s : VmState ν ι) :
    Outcome (VmState ν ι × Except Errno Unit) :=
  let pages := pageCount (end_ - begin)
  if pageOffset begin ≠ 0 ∨ pageOffset end_ ≠ 0 ∨ end_ ≤ begin then pure (s, .error .invalid)
  else do
    match ← vmAllocRange env.user₁ env.user₂ begin end_ (s.index vm) with
    | (index, .error e) => pure (s.setIndex vm index, .error e)
    | (index, .ok ()) =>
      if vm = kernelVm then .error .panic
      else
        match ← vmAllocRange env.range₁ env.range₂ begin end_ index with
        | (index, .error e) => pure (s.setIndex vm index, .error e)
        | (index, .ok ()) =>
          let s ← (s.setIndex vm index).onMem (vmMapPages kernelVm vm begin pages)
          pure (s, .ok ())

/-! ## Dispatch -/

def System.onIpc {α : Type} (s : System ν ι τ)
    (x : Outcome (IpcState τ × Except Errno α)) (f : α → UInt64) :
    Outcome (System ν ι τ × Except Errno UInt64) := do
  let (ipc, r) ← x
  pure ({ s with ipc }, r.map f)

def SyscallHandler.run (env : SyscallEnv ι) (current : τ) (vm : ν) (params : UInt64 × UInt64)
    (s : System ν ι τ) : SyscallHandler → Outcome (System ν ι τ × Except Errno UInt64)
  | threadExit => pure (s, .ok params.1)
  | threadCreate => s.onVm (syscallThreadCreate kernelVm env vm s.vm) fun _ => params.1
  | ipcPortAllocate =>
    s.onIpc (Glatt.ipcPortAllocate env.mem current params.1.toUInt32 s.ipc) UInt32.toUInt64
  | ipcPortSend => do
    let (s, r) ← Syscall.run kernelVm env.toSupply current vm s
      (.ipcPortSend params.1 params.2 env.ipch)
    pure (s, r.map fun _ => params.1)
  | ipcPortWait => s.onIpc (Glatt.ipcPortWait current params.1.toUInt32 s.ipc) fun _ => params.1
  | ipcPortReceive =>
    Syscall.run kernelVm env.toSupply current vm s (.ipcPortReceive params.1.toUInt32 params.2)
  | ipcTaskPort => pure (s, .ok env.ipctTaskPort.toUInt64)
  | vmPageGet => Syscall.run kernelVm env.toSupply current vm s .vmPageGet
  | vmPageFree => do
    let (s, r) ← Syscall.run kernelVm env.toSupply current vm s (.vmPageFree params.1)
    pure (s, r.map fun _ => params.1)
  | vmAlloc => Syscall.run kernelVm env.toSupply current vm s (.vmAlloc params.1)
  | vmFree => do
    let (s, r) ← Syscall.run kernelVm env.toSupply current vm s (.vmFree params.1 params.2)
    pure (s, r.map fun _ => params.1)
  | vmAllocRange =>
    s.onVm (syscallVmAllocRange kernelVm env vm params.1 params.2 s.vm) fun _ => params.1

def SyscallVector.finish (sv : SyscallVector) (params : UInt64 × UInt64) :
    Except Errno UInt64 → SyscallEnd
  | .error e => .returned (some e) 0 params.1
  | .ok param => if sv.svHandler = .threadExit then .exited else .returned none sv.svOutputs param

def syscall (env : SyscallEnv ι) (current : τ) (vm : ν) (number : UInt32) (cnt : UInt64)
    (params : UInt64 × UInt64) (s : System ν ι τ) : Outcome (System ν ι τ × SyscallEnd) :=
  if number > syscallLast then pure (s, .returned (some .notAvailable) 0 params.1)
  else
    match syscallVector.lookup number with
    | none => pure (s, .returned (some .notAvailable) 0 params.1)
    | some sv =>
      if cnt ≠ sv.svInputs then pure (s, .returned (some .argCount) 0 params.1)
      else do
        let (s, r) ← sv.svHandler.run kernelVm env current vm params s
        pure (s, sv.finish params r)

def vmFaultStack (vm : ν) (vaddr : UInt64) (mem : MemState ν) :
    Outcome (MemState ν × Except Errno Unit) :=
  pageAllocMap kernelVm vm pageFlagZero (pageFloor vaddr) mem

end Glatt
