import Glatt.Core.Pool
import Glatt.Vm.Index
import Glatt.Vm.Pmap

/-!
# Allocation of virtual memory

The functions of `vm_alloc.c`: they take addresses from the indices of an address space and map
pages there. An address space is its name; the state has the page tables and the indices of all of
them.

A function that claims addresses takes the results of its two calls of `pool_allocate`, as those on
the indices do.

## Main definitions

* `VmState`: page tables and indices of all address spaces
* `vmAlloc`, `vmFree`, `vmWire`, `vmUnwire`: the functions
-/

namespace Glatt

open Imperative Function

/-- The memory, and the indices of every address space. -/
structure VmState (ν ι : Type) where
  mem : MemState ν
  index : ν → IndexMap ι

variable {ν ι : Type} [DecidableEq ν]

def VmState.setIndex (s : VmState ν ι) (vm : ν) (index : IndexMap ι) : VmState ν ι :=
  { s with index := update s.index vm index }

@[simp] theorem VmState.setIndex_self (s : VmState ν ι) (vm : ν) (index : IndexMap ι) :
    (s.setIndex vm index).index vm = index := update_self _ _ _

theorem VmState.setIndex_of_ne (s : VmState ν ι) {vm u : ν} (h : u ≠ vm) (index : IndexMap ι) :
    (s.setIndex vm index).index u = s.index u := update_of_ne h _ _

def VmState.onMem (f : MemState ν → Outcome (MemState ν)) (s : VmState ν ι) :
    Outcome (VmState ν ι) := do
  let mem ← f s.mem
  pure { s with mem }

def poolMaxAlloc : UInt64 := UInt64.ofNat maxAllocSize

def vmAllocDefault : UInt32 := 0x00000000

def vmAllocHigh : UInt32 := 0x00000001

def pageAt (vaddr : UInt64) (o : ℕ) : UInt64 := vaddr + UInt64.ofNat o * pageSize

variable [DecidableEq ι] (kernelVm : ν)

/-! ## Pages with their addresses -/

def vmAllocDirect (s : VmState ν ι) : Outcome (VmState ν ι × Except Errno UInt64) := do
  let (pages, r) ← pageAllocDirect true pageFlagDefault s.mem.pages
  pure ({ s with mem := { s.mem with pages } }, r)

def vmMapPages (vm : ν) (vaddr pages : UInt64) (mem : MemState ν) : Outcome (MemState ν) :=
  forRange (fun o mem => orPanic (pageAllocMap kernelVm vm pageFlagDefault (pageAt vaddr o) mem))
    pages.toNat mem

def vmAlloc (new₁ new₂ : Option ι) (vm : ν) (size : UInt64) (flags : UInt32) (s : VmState ν ι) :
    Outcome (VmState ν ι × Except Errno UInt64) :=
  if vm = kernelVm ∧ size < poolMaxAlloc then .error .panic
  else
    let pages := pageCount size
    if vm = kernelVm ∧ pages = 1 then vmAllocDirect s
    else do
      match ← vmAllocAddress new₁ new₂ pages (flags &&& vmAllocHigh ≠ 0) (s.index vm) with
      | (index, .error e) => pure (s.setIndex vm index, .error e)
      | (index, .ok vaddr) =>
        let s ← (s.setIndex vm index).onMem (vmMapPages kernelVm vm vaddr pages)
        pure (s, .ok vaddr)

def vmAllocPage (new₁ new₂ : Option ι) (vm : ν) (s : VmState ν ι) :
    Outcome (VmState ν ι × Except Errno UInt64) :=
  if vm = kernelVm then vmAllocDirect s
  else do
    match ← vmAllocAddress new₁ new₂ 1 false (s.index vm) with
    | (index, .error e) => pure (s.setIndex vm index, .error e)
    | (index, .ok vaddr) =>
      let s ← (s.setIndex vm index).onMem fun mem =>
        orPanic (pageAllocMap kernelVm vm pageFlagDefault vaddr mem)
      pure (s, .ok vaddr)

/-- `vm_free_address` on one of the address spaces, whose error is answered with a panic. -/
def vmReleaseAddress (vm : ν) (vaddr : UInt64) (s : VmState ν ι) : Outcome (VmState ν ι) := do
  let index ← orPanic (vmFreeAddress vaddr (s.index vm))
  pure (s.setIndex vm index)

def vmFreePages (vm : ν) (vaddr pages : UInt64) (mem : MemState ν) : Outcome (MemState ν) :=
  forRange (fun o mem => orPanic (pageFreeMap kernelVm vm (pageAt vaddr o) mem)) pages.toNat mem

def vmFree (vm : ν) (size vaddr : UInt64) (s : VmState ν ι) :
    Outcome (VmState ν ι × Except Errno Unit) :=
  let pages := pageCount size
  if vm = kernelVm ∧ pages = 1 then do
    let (mem, r) ← pageFreeDirect kernelVm vm vaddr s.mem
    pure ({ s with mem }, r)
  else do
    let s ← s.onMem (vmFreePages kernelVm vm vaddr pages)
    let s ← vmReleaseAddress vm vaddr s
    pure (s, .ok ())

def vmFreePage (vm : ν) (vaddr : UInt64) (s : VmState ν ι) :
    Outcome (VmState ν ι × Except Errno Unit) :=
  vmFree kernelVm vm pageSize vaddr s

/-! ## The kernel's view of a user's pages -/

/-- What `vm_wire` does for one page: it is extracted, or with `fault` allocated and mapped when
there is none. -/
def vmWirePage (vm : ν) (vaddr : UInt64) (fault : Bool) (mem : MemState ν) :
    Outcome (MemState ν × UInt64) := do
  match ← pageExtract kernelVm vm vaddr mem with
  | .ok page => pure (mem, page)
  | .error e =>
    if fault ∧ e = .notFound then
      match ← pageAlloc pageFlagZero mem.pages with
      | (_, .error _) => .error .panic
      | (pages, .ok page) =>
        let mem ← orPanic (pageMap kernelVm vm vaddr page { mem with pages })
        pure (mem, page)
    else .error .panic

def vmWireDirect (page : UInt64) (mem : MemState ν) : Outcome (MemState ν × UInt64) := do
  match ← pageMapDirect true page mem.pages with
  | (_, .error _) => .error .panic
  | (pages, .ok kvaddr) => pure ({ mem with pages }, kvaddr)

/-- The loop of `vm_wire`: the pages are mapped in the kernel's address space. -/
def vmWirePages (vm : ν) (vaddr kvaddr pages : UInt64) (fault : Bool) (mem : MemState ν) :
    Outcome (MemState ν) :=
  forRange (fun o mem => do
    let (mem, page) ← vmWirePage kernelVm vm (pageAt vaddr o) fault mem
    orPanic (pageMap kernelVm kernelVm (pageAt kvaddr o) page mem)) pages.toNat mem

/-- `vm_wire`: the kernel's address of the pages, and the offset of the address in them. Every
error is answered with a panic. -/
def vmWire (new₁ new₂ : Option ι) (vm : ν) (uvaddr len : UInt64) (fault : Bool)
    (s : VmState ν ι) : Outcome (VmState ν ι × UInt64 × UInt64) :=
  let vaddr := pageFloor uvaddr
  let pages := pageCount (uvaddr + len - vaddr)
  if vm = kernelVm then .error .panic
  else if pages = 1 then do
    let (mem, page) ← vmWirePage kernelVm vm vaddr fault s.mem
    let (mem, kvaddr) ← vmWireDirect page mem
    pure ({ s with mem }, kvaddr, pageOffset uvaddr)
  else do
    match ← vmAllocAddress new₁ new₂ pages false (s.index kernelVm) with
    | (_, .error _) => .error .panic
    | (index, .ok kvaddr) =>
      let s ← (s.setIndex kernelVm index).onMem (vmWirePages kernelVm vm vaddr kvaddr pages fault)
      pure (s, kvaddr, pageOffset uvaddr)

def vmExtractPage (vm : ν) (vaddr : UInt64) (mem : MemState ν) : Outcome UInt64 := do
  match ← pageExtract kernelVm vm vaddr mem with
  | .error _ => .error .panic
  | .ok page => pure page

def vmUnwirePages (kvaddr pages : UInt64) (mem : MemState ν) : Outcome (MemState ν) :=
  forRange (fun o mem => do
    let page ← vmExtractPage kernelVm kernelVm (pageAt kvaddr o) mem
    orPanic (pageUnmap kernelVm (pageAt kvaddr o) page mem)) pages.toNat mem

def vmUnwire (vm : ν) (uvaddr len kvaddr : UInt64) (s : VmState ν ι) : Outcome (VmState ν ι) :=
  let vaddr := pageFloor uvaddr
  let pages := pageCount (uvaddr + len - vaddr)
  if vm = kernelVm then .error .panic
  else if pages = 1 then do
    let page ← vmExtractPage kernelVm vm vaddr s.mem
    s.onMem (MemState.onPages (pageUnmapDirect page))
  else do
    let s ← s.onMem (vmUnwirePages kernelVm kvaddr pages)
    vmReleaseAddress kernelVm kvaddr s

end Glatt
