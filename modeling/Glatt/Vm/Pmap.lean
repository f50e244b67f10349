import Glatt.Vm.Page

/-!
# Page tables

The page tables of `cpu_pmap.c` on MIPS, and the functions of `vm_page.c` that map physical pages
with them. A page table has three levels: pointers to level 0 pages, pointers to level 1 pages, and
page table entries. The tables are held by value; `ptPages` lists the addresses of the pages that
hold them.

Entries are stored one at a time and the queues are locked, so a call is one step.

## Main definitions

* `Pmap`, `MemState`: the tables of an address space, and all tables with the pages
* `pmapMap`, `pmapUnmap`, `pmapExtract`, `pageMap`, `pageExtract`: the functions
-/

namespace Glatt

open Imperative Function

/-! ## Page table entries -/

def pgG : UInt64 := 0x01

def pgV : UInt64 := 0x02

def pgCCnc : UInt64 := (0x03 : UInt64) <<< 3

def tlbloPfnMask : UInt64 := 0x03FFFFFC0

def tlbloPaToPfn (pa : UInt64) : UInt64 := ((pa >>> 12) <<< 6) &&& tlbloPfnMask

def tlbloPteToPa (pte : UInt64) : UInt64 := ((pte &&& tlbloPfnMask) >>> 6) <<< 12

def pteValid (pte : UInt64) : Prop := pte &&& pgV = pgV

instance (pte : UInt64) : Decidable (pteValid pte) := inferInstanceAs (Decidable (_ = _))

def pmapIndexPte (vaddr : UInt64) : UInt64 := (vaddr >>> 13) % 1024

def pmapIndex1 (vaddr : UInt64) : UInt64 := (vaddr >>> 23) % 1024

def pmapIndex0 (vaddr : UInt64) : UInt64 := (vaddr >>> 33) % 128

/-! ## Page tables -/

abbrev PmapLev1 := UInt64 → UInt64

abbrev PmapLev0 := UInt64 → Option PmapLev1

/-- `struct pmap`: level 0 pages, and the addresses that it maps: not more than there are entries,
and none of the direct map. -/
structure Pmap where
  pmLevel0 : UInt64 → Option PmapLev0
  pmBase : UInt64
  pmEnd : UInt64
  aligned : pmBase.toNat % 2 ^ 40 = 0
  bounded : pmEnd.toNat ≤ pmBase.toNat + 2 ^ 40
  virtual : pmEnd ≤ xkphysBase ∨ xkphysEnd < pmBase

def userPmap : Pmap := ⟨fun _ => none, userBase, userEnd, by decide, by decide, by decide⟩

def kernelPmap : Pmap := ⟨fun _ => none, kernelBase, kernelEnd, by decide, by decide, by decide⟩

def Pmap.Outside (pm : Pmap) (vaddr : UInt64) : Prop := vaddr < pm.pmBase ∨ vaddr ≥ pm.pmEnd

instance (pm : Pmap) (vaddr : UInt64) : Decidable (pm.Outside vaddr) :=
  inferInstanceAs (Decidable (_ ∨ _))

def pmapFind (pm : Pmap) (vaddr : UInt64) : Option UInt64 :=
  if pm.Outside vaddr then none
  else do
    let pml0 ← pm.pmLevel0 (pmapIndex0 vaddr)
    let pml1 ← pml0 (pmapIndex1 vaddr)
    pure (pml1 (pmapIndexPte vaddr))

def Pmap.setLevel0 (pm : Pmap) (vaddr : UInt64) (pml0 : PmapLev0) : Pmap :=
  { pm with pmLevel0 := update pm.pmLevel0 (pmapIndex0 vaddr) (some pml0) }

def Pmap.setLevel1 (pm : Pmap) (vaddr : UInt64) (pml1 : PmapLev1) : Pmap :=
  match pm.pmLevel0 (pmapIndex0 vaddr) with
  | none => pm
  | some pml0 => pm.setLevel0 vaddr (update pml0 (pmapIndex1 vaddr) (some pml1))

def Pmap.setPte (pm : Pmap) (vaddr pte : UInt64) : Pmap :=
  match (pm.pmLevel0 (pmapIndex0 vaddr)).bind fun pml0 => pml0 (pmapIndex1 vaddr) with
  | none => pm
  | some pml1 => pm.setLevel1 vaddr (update pml1 (pmapIndexPte vaddr) pte)

/-- The physical pages, the page table of each address space, and the addresses of the pages that
hold page tables. -/
structure MemState (ν : Type) where
  pages : PageState
  pmap : ν → Pmap
  ptPages : List UInt64

variable {ν : Type} [DecidableEq ν] (kernelVm : ν)

def MemState.setPmap (s : MemState ν) (vm : ν) (pm : Pmap) : MemState ν :=
  { s with pmap := update s.pmap vm pm }

def pmapAllocLevel (s : MemState ν) : Outcome (MemState ν × Except Errno Unit) := do
  match ← pageAllocDirect true (pageFlagDefault ||| pageFlagZero) s.pages with
  | (pages, .error e) => pure ({ s with pages }, .error e)
  | (pages, .ok tmpaddr) => pure ({ s with pages, ptPages := tmpaddr :: s.ptPages }, .ok ())

def pmapAllocLevel0 (vm : ν) (vaddr : UInt64) (s : MemState ν) :
    Outcome (MemState ν × Except Errno Unit) :=
  match (s.pmap vm).pmLevel0 (pmapIndex0 vaddr) with
  | some _ => pure (s, .ok ())
  | none => do
    match ← pmapAllocLevel s with
    | (s, .error e) => pure (s, .error e)
    | (s, .ok ()) => pure (s.setPmap vm ((s.pmap vm).setLevel0 vaddr fun _ => none), .ok ())

def pmapAllocLevel1 (vm : ν) (vaddr : UInt64) (s : MemState ν) :
    Outcome (MemState ν × Except Errno Unit) :=
  match ((s.pmap vm).pmLevel0 (pmapIndex0 vaddr)).bind fun pml0 => pml0 (pmapIndex1 vaddr) with
  | some _ => pure (s, .ok ())
  | none => do
    match ← pmapAllocLevel s with
    | (s, .error e) => pure (s, .error e)
    | (s, .ok ()) => pure (s.setPmap vm ((s.pmap vm).setLevel1 vaddr fun _ => 0), .ok ())

def pmapAllocPte (vm : ν) (vaddr : UInt64) (s : MemState ν) :
    Outcome (MemState ν × Except Errno Unit) := do
  match ← pmapAllocLevel0 vm vaddr s with
  | (s, .error e) => pure (s, .error e)
  | (s, .ok ()) => pmapAllocLevel1 vm vaddr s

def pmapUpdate (vm : ν) (vaddr page flags : UInt64) (s : MemState ν) : Outcome (MemState ν) :=
  let paddr := pageAddress page
  let vaddr := pageFloor vaddr
  match pmapFind (s.pmap vm) vaddr with
  | none => .error .panic
  | some pte =>
    if pteValid pte ∧ tlbloPteToPa pte = paddr then .error .panic
    else pure (s.setPmap vm ((s.pmap vm).setPte vaddr (tlbloPaToPfn paddr ||| flags)))

/-- `pmap_map`. A failed allocation goes to `pmap_collect`, which panics. -/
def pmapMap (vm : ν) (vaddr page : UInt64) (s : MemState ν) :
    Outcome (MemState ν × Except Errno Unit) :=
  if (s.pmap vm).Outside vaddr then pure (s, .error .notPermitted)
  else do
    match ← pmapAllocPte vm vaddr s with
    | (_, .error _) => .error .panic
    | (s, .ok ()) =>
      let s ← pmapUpdate vm vaddr page ((pgV ||| if vm = kernelVm then pgG else 0) ||| pgCCnc) s
      pure (s, .ok ())

def pmapUnmap (vm : ν) (vaddr : UInt64) (s : MemState ν) : MemState ν × Except Errno Unit :=
  match pmapFind (s.pmap vm) vaddr with
  | none => (s, .error .notFound)
  | some pte =>
    if pteValid pte then (s.setPmap vm ((s.pmap vm).setPte vaddr 0), .ok ()) else (s, .ok ())

def pmapIsDirect (vaddr : UInt64) : Prop := vaddr ≥ xkphysBase ∧ vaddr ≤ xkphysEnd

instance (vaddr : UInt64) : Decidable (pmapIsDirect vaddr) := inferInstanceAs (Decidable (_ ∧ _))

def pmapExtract (vm : ν) (vaddr : UInt64) (s : MemState ν) : Except Errno UInt64 :=
  let vaddr := pageFloor vaddr
  if pmapIsDirect vaddr then
    if vm = kernelVm then .ok (xkphysExtract vaddr) else .error .notPermitted
  else if (s.pmap vm).Outside vaddr then .error .notPermitted
  else
    match pmapFind (s.pmap vm) vaddr with
    | none => .error .notFound
    | some pte => if pteValid pte then .ok (tlbloPteToPa pte) else .error .notFound

/-! ## Mapping pages -/

def MemState.onPages (f : PageState → Outcome PageState) (s : MemState ν) :
    Outcome (MemState ν) := do
  let pages ← f s.pages
  pure { s with pages }

def pageMap (vm : ν) (vaddr page : UInt64) (s : MemState ν) :
    Outcome (MemState ν × Except Errno Unit) := do
  let s ← s.onPages (pageRefHold page)
  match ← pmapMap kernelVm vm vaddr page s with
  | (s, .ok ()) => pure (s, .ok ())
  | (s, .error e) =>
    let s ← s.onPages (pageRefDrop page)
    pure (s, .error e)

def pageUnmap (vm : ν) (vaddr page : UInt64) (s : MemState ν) :
    Outcome (MemState ν × Except Errno Unit) :=
  match pmapUnmap vm vaddr s with
  | (s, .error e) => pure (s, .error e)
  | (s, .ok ()) => do
    let s ← s.onPages (pageRefDrop page)
    pure (s, .ok ())

def pageAllocMap (vm : ν) (flags : UInt32) (vaddr : UInt64) (s : MemState ν) :
    Outcome (MemState ν × Except Errno Unit) := do
  match ← pageAlloc flags s.pages with
  | (pages, .error e) => pure ({ s with pages }, .error e)
  | (pages, .ok page) =>
    match ← pageMap kernelVm vm vaddr page { s with pages } with
    | (s, .ok ()) => pure (s, .ok ())
    | (s, .error e) =>
      let s ← s.onPages (pageRelease page)
      pure (s, .error e)

def pageExtract (vm : ν) (vaddr : UInt64) (s : MemState ν) : Outcome (Except Errno UInt64) :=
  match pmapExtract kernelVm vm vaddr s with
  | .error e => pure (.error e)
  | .ok paddr => pageLookup paddr s.pages

def pageFreeMap (vm : ν) (vaddr : UInt64) (s : MemState ν) :
    Outcome (MemState ν × Except Errno Unit) := do
  match ← pageExtract kernelVm vm vaddr s with
  | .error e => pure (s, .error e)
  | .ok page =>
    match ← pageUnmap vm vaddr page s with
    | (s, .error e) => pure (s, .error e)
    | (s, .ok ()) =>
      let s ← s.onPages (pageRelease page)
      pure (s, .ok ())

def pageFreeDirect (vm : ν) (vaddr : UInt64) (s : MemState ν) :
    Outcome (MemState ν × Except Errno Unit) := do
  match ← pageExtract kernelVm vm vaddr s with
  | .error e => pure (s, .error e)
  | .ok page =>
    let s ← s.onPages (pageUnmapDirect page)
    let s ← s.onPages (pageRelease page)
    pure (s, .ok ())

end Glatt
