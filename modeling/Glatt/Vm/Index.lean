import Glatt.Core.BTree
import Glatt.Core.Error
import Glatt.Vm.Address

/-!
# Address space indices

The functions of `vm_index.c`. An address space is described by its indices, each a range of pages
that is in use or free. Every index is linked in the tree `vm_index`, and the free ones in the
tree `vm_index_free` as well; an index is its address, and carries the links of both trees.

A function that calls `pool_allocate` takes what the call returns: `some` index, or `none` for the
null pointer that the source tests for and that `pool_allocate` never returns, as it panics when no
index can be had (`Vm/IndexPool.lean`). Each function runs with the address space locked, so a call
is one step.

## Main definitions

* `VmIndex`, `IndexMap`: an index, and an address space
* `vmAllocAddress`, `vmAllocRange`, `vmFreeAddress`, `vmInsertRange`: the functions
-/

namespace Glatt

open Imperative

/-- `struct vm_index`, less its links. -/
structure VmIndex where
  vmiBase : UInt64
  vmiSize : UInt64
  vmiFlags : UInt32

def vmIndexFlagDefault : UInt32 := 0

def vmIndexFlagInuse : UInt32 := 1

def VmIndex.inUse (v : VmIndex) : Prop := v.vmiFlags &&& vmIndexFlagInuse ≠ 0

instance (v : VmIndex) : Decidable v.inUse := inferInstanceAs (Decidable (_ ≠ _))

/-- The indices of an address space: their contents, and the trees of `struct vm` with the links
of `vmi_tree` and of `vmi_free_tree`. -/
structure IndexMap (ν : Type) where
  vmi : ν → VmIndex
  vmIndex : LinkedTree ν
  vmIndexFree : LinkedTree ν

variable {ν : Type} [DecidableEq ν]

def IndexMap.set (vm : IndexMap ν) (x : ν) (v : VmIndex) : IndexMap ν :=
  { vm with vmi := Function.update vm.vmi x v }

def IndexMap.setSize (vm : IndexMap ν) (x : ν) (size : UInt64) : IndexMap ν :=
  vm.set x { vm.vmi x with vmiSize := size }

def IndexMap.setFlags (vm : IndexMap ν) (x : ν) (flags : UInt32) : IndexMap ν :=
  vm.set x { vm.vmi x with vmiFlags := flags }

def vmSetup2 (vm : IndexMap ν) : IndexMap ν :=
  { vm with vmIndex := vm.vmIndex.setChild none, vmIndexFree := vm.vmIndexFree.setChild none }

def blankIndex : IndexMap ℕ := ⟨fun _ => ⟨0, 0, 0⟩, LinkedTree.empty, LinkedTree.empty⟩

/-! ## One index -/

def vmFindIndex (vaddr : UInt64) (vm : IndexMap ν) : Outcome (Option ν) :=
  btreeFind (fun iter => vaddr < (vm.vmi iter).vmiBase)
    (fun iter => vaddr = (vm.vmi iter).vmiBase ∨ vaddr > (vm.vmi iter).vmiBase ∧
      vaddr < (vm.vmi iter).vmiBase + pageToAddr (vm.vmi iter).vmiSize) vm.vmIndex

/-- `vm_free_index`: the index is linked in the tree of free indices by its size. -/
def vmFreeIndex (vmi : ν) (vm : IndexMap ν) : Outcome (IndexMap ν) := do
  let vm := vm.setFlags vmi ((vm.vmi vmi).vmiFlags &&& ~~~ vmIndexFlagInuse)
  let free ← btreeInsert (fun iter => (vm.vmi vmi).vmiSize < (vm.vmi iter).vmiSize) vmi
    vm.vmIndexFree
  pure { vm with vmIndexFree := free }

/-- `vm_insert_index`: a new free index; `vmi` is what `pool_allocate` returns. -/
def vmInsertIndex (vmi : Option ν) (base pages : UInt64) (vm : IndexMap ν) :
    Outcome (IndexMap ν × Except Errno ν) :=
  match vmi with
  | none => pure (vm, .error .exhausted)
  | some vmi => do
    let vm := vm.set vmi ⟨base, pages, vmIndexFlagDefault⟩
    let free ← btreeInsert (fun iter => (vm.vmi vmi).vmiSize < (vm.vmi iter).vmiSize) vmi
      (vm.vmIndexFree.clear vmi)
    let index ← btreeInsert (fun iter => (vm.vmi vmi).vmiBase < (vm.vmi iter).vmiBase) vmi
      (vm.vmIndex.clear vmi)
    pure ({ vm with vmIndex := index, vmIndexFree := free }, .ok vmi)

def vmUseIndex (vmi : ν) (vm : IndexMap ν) : Outcome (IndexMap ν × Except Errno Unit) := do
  let vm := vm.setFlags vmi ((vm.vmi vmi).vmiFlags ||| vmIndexFlagInuse)
  let free ← btreeRemove vmi vm.vmIndexFree
  pure ({ vm with vmIndexFree := free }, .ok ())

/-! ## Ranges -/

/-- The part of `vm_claim_range` in front of the range: `vmi` keeps the leading pages, and a new
index takes the range; without leading pages `vmi` itself is cut to the range. -/
def vmClaimLeader (new : Option ν) (begin range leader size : UInt64) (vmi : ν)
    (vm : IndexMap ν) : Outcome (IndexMap ν × Except Errno ν) :=
  if leader ≠ 0 then do
    let vm := vm.setSize vmi (addrToPage leader)
    let (vm, r) ← vmInsertIndex new begin (addrToPage range) vm
    match r with
    | .error e => pure (vm.setSize vmi (addrToPage size), .error e)
    | .ok nvmi => pure (vm, .ok nvmi)
  else pure (vm.setSize vmi (addrToPage range), .ok vmi)

/-- The part of `vm_claim_range` behind the range: a new index takes the trailing pages; when it
cannot be had, `nvmi` keeps them. -/
def vmClaimTrailer (new : Option ν) (end_ trailer : UInt64) (nvmi : ν) (vm : IndexMap ν) :
    Outcome (IndexMap ν × Except Errno Unit) :=
  if trailer ≠ 0 then do
    let (vm, r) ← vmInsertIndex new end_ (addrToPage trailer) vm
    match r with
    | .error e =>
      pure (vm.setSize nvmi ((vm.vmi nvmi).vmiSize + addrToPage trailer), .error e)
    | .ok _ => pure (vm, .ok ())
  else pure (vm, .ok ())

/-- `vm_claim_range`, with the index that holds the range: it has to be free and to reach to the
end of the range, and is split into leader, range and trailer. -/
def vmClaimIndex (new₁ new₂ : Option ν) (begin end_ : UInt64) (vmi : ν) (vm : IndexMap ν) :
    Outcome (IndexMap ν × Except Errno Unit) :=
  let range := end_ - begin
  let size := pageToAddr (vm.vmi vmi).vmiSize
  if (vm.vmi vmi).inUse then pure (vm, .error .notFree)
  else if (vm.vmi vmi).vmiBase + size < end_ then pure (vm, .error .notImplemented)
  else do
    let leader := begin - (vm.vmi vmi).vmiBase
    let trailer := size - (leader + range)
    let (vm, r) ← vmClaimLeader new₁ begin range leader size vmi vm
    match r with
    | .error e => pure (vm, .error e)
    | .ok nvmi =>
      let (vm, r) ← vmClaimTrailer new₂ end_ trailer nvmi vm
      match r with
      | .error e => pure (vm, .error e)
      | .ok () =>
        match ← vmUseIndex nvmi vm with
        | (_, .error _) => .error .panic
        | (vm, .ok ()) => pure (vm, .ok ())

/-- `vm_claim_range`: `new₁` and `new₂` are what its two calls of `pool_allocate` return. -/
def vmClaimRange (new₁ new₂ : Option ν) (begin end_ : UInt64) (vmi : Option ν) (vm : IndexMap ν) :
    Outcome (IndexMap ν × Except Errno Unit) := do
  match vmi with
  | some vmi => vmClaimIndex new₁ new₂ begin end_ vmi vm
  | none =>
    match ← vmFindIndex begin vm with
    | none => pure (vm, .error .notFound)
    | some vmi => vmClaimIndex new₁ new₂ begin end_ vmi vm

/-! ## The interface -/

/-- Where the search of `vm_alloc_address` starts: at the minimum, or at the maximum. -/
def vmFirstFree (high : Bool) (vm : IndexMap ν) : Outcome (Option ν) :=
  if high then btreeMax vm.vmIndexFree else btreeMin vm.vmIndexFree

def vmNextFree (high : Bool) (vm : IndexMap ν) (vmi : ν) : Outcome (Option ν) :=
  if high then btreePrev vm.vmIndexFree vmi else btreeNext vm.vmIndexFree vmi

/-- The search of `vm_alloc_address`: past the free indices with too few pages. -/
def vmSearchFree (pages : UInt64) (high : Bool) (vm : IndexMap ν) : Outcome (Option ν) := do
  let first ← vmFirstFree high vm
  loop (fun
    | none => pure (.inr none)
    | some vmi =>
      if (vm.vmi vmi).vmiSize < pages then do
        let next ← vmNextFree high vm vmi
        pure (.inl next)
      else pure (.inr (some vmi))) (vm.vmIndexFree.bound + 1) first

def vmAllocAddress (new₁ new₂ : Option ν) (pages : UInt64) (high : Bool) (vm : IndexMap ν) :
    Outcome (IndexMap ν × Except Errno UInt64) := do
  match ← vmSearchFree pages high vm with
  | none => pure (vm, .error .notImplemented)
  | some vmi =>
    if (vm.vmi vmi).vmiSize = pages then
      let (vm, r) ← vmUseIndex vmi vm
      match r with
      | .error e => pure (vm, .error e)
      | .ok () => pure (vm, .ok (vm.vmi vmi).vmiBase)
    else
      let start := if high then (vm.vmi vmi).vmiBase + pageToAddr ((vm.vmi vmi).vmiSize - pages)
        else (vm.vmi vmi).vmiBase
      let (vm, r) ← vmClaimRange new₁ new₂ start (start + pageToAddr pages) (some vmi) vm
      match r with
      | .error e => pure (vm, .error e)
      | .ok () => pure (vm, .ok start)

def vmAllocRange (new₁ new₂ : Option ν) (begin end_ : UInt64) (vm : IndexMap ν) :
    Outcome (IndexMap ν × Except Errno Unit) :=
  vmClaimRange new₁ new₂ (pageFloor begin) (pageRoundup end_) none vm

def vmFreeAddress (vaddr : UInt64) (vm : IndexMap ν) :
    Outcome (IndexMap ν × Except Errno Unit) := do
  match ← vmFindIndex vaddr vm with
  | none => pure (vm, .error .notFound)
  | some vmi =>
    let vm ← vmFreeIndex vmi vm
    pure (vm, .ok ())

def vmInsertRange (new : Option ν) (begin end_ : UInt64) (vm : IndexMap ν) :
    Outcome (IndexMap ν × Except Errno Unit) := do
  let (vm, r) ← vmInsertIndex new begin (pageCount (end_ - begin)) vm
  match r with
  | .error e => pure (vm, .error e)
  | .ok _ => pure (vm, .ok ())

end Glatt
