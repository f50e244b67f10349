import Glatt.Lib.Transition
import Glatt.Vm.PageLookup
import Glatt.Vm.PmapEntries

/-!
# Page tables refine finite maps

What a page table is for: it is a map from the pages of an address space to physical addresses.
`pmap_map` adds a page to the map, `pmap_unmap` removes one, and `pmap_extract` looks one up. This
module compares the three-level tables with such a map along every sequence of calls.

## Main definitions

* `Mapping`: a map from pages to physical addresses
* `PmapOp`, `PmapStep`: calls on the tables

## Main results

* `pmap_refines_mapping`: every sequence of calls does to the tables what it does to the map
-/

namespace Glatt

open Imperative Transition

variable {ν : Type} [DecidableEq ν]

/-! ## The abstract map -/

/-- The physical address at each page of each address space. -/
abbrev Mapping (ν : Type) := ν → UInt64 → Option UInt64

def Mapping.set (m : Mapping ν) (vm : ν) (vaddr : UInt64) (x : Option UInt64) : Mapping ν :=
  Function.update m vm (Function.update (m vm) vaddr x)

theorem Mapping.set_apply (m : Mapping ν) (vm vm' : ν) (v w : UInt64) (x : Option UInt64) :
    m.set vm v x vm' w = if vm' = vm ∧ w = v then x else m vm' w := by
  unfold set
  by_cases hvm : vm' = vm
  · subst hvm
    by_cases hw : w = v <;> simp [hw]
  · simp [hvm]

def Mapping.extract (m : Mapping ν) (vm : ν) (vaddr : UInt64) : Except Errno UInt64 :=
  match m vm vaddr with
  | some paddr => .ok paddr
  | none => .error .notFound

/-! ## Calls -/

/-- A call of `pmap_map` or `pmap_unmap`. -/
inductive PmapOp (ν : Type)
  | map (vm : ν) (vaddr page : UInt64)
  | unmap (vm : ν) (vaddr : UInt64)

def PmapOp.vm : PmapOp ν → ν
  | map vm _ _ => vm
  | unmap vm _ => vm

def PmapOp.vaddr : PmapOp ν → UInt64
  | map _ vaddr _ => vaddr
  | unmap _ vaddr => vaddr

def PmapOp.run (kernelVm : ν) (s : MemState ν) : PmapOp ν → Outcome (MemState ν × Except Errno Unit)
  | map vm vaddr page => pmapMap kernelVm vm vaddr page s
  | unmap vm vaddr => pure (pmapUnmap vm vaddr s)

def PmapOp.apply (m : Mapping ν) : PmapOp ν → Mapping ν
  | map vm vaddr page => m.set vm vaddr (some (pageAddress page))
  | unmap vm vaddr => m.set vm vaddr none

def Addressable (page : UInt64) : Prop :=
  PageAligned (pageAddress page) ∧ (pageAddress page).toNat < 2 ^ 36

def PmapOp.PageOk : PmapOp ν → Prop
  | map _ _ page => Addressable page
  | unmap _ _ => True

/-- A call that returns, on a page of the range of its page table. -/
inductive PmapStep (kernelVm : ν) : MemState ν → PmapOp ν → MemState ν → Prop
  | call {s c s' r} : PageAligned c.vaddr → ¬ (s.pmap c.vm).Outside c.vaddr → c.PageOk →
      c.run kernelVm s = .ok (s', r) → PmapStep kernelVm s c s'

def mappingAfter (h : List (MemState ν × PmapOp ν)) : Mapping ν :=
  h.foldl (fun m e => e.2.apply m) fun _ _ => none

omit [DecidableEq ν] in
theorem Addressable.exists_frame {page : UInt64} (h : Addressable page) :
    ∃ f < frameEnd, pageAddress page = frameAddr f := by
  obtain ⟨ha, hlt⟩ := h
  have hm := ha.toNat
  refine ⟨(pageAddress page).toNat / 8192, by rw [frameEnd]; omega, UInt64.toNat_inj.mp ?_⟩
  rw [toNat_frameAddr (by omega)]
  omega

/-! ## What is found -/

variable {kernelVm vm : ν} {v w page : UInt64} {s s' : MemState ν}

theorem pmapExtract_inside (hw : PageAligned w) (hin : ¬ (s.pmap vm).Outside w) :
    pmapExtract kernelVm vm w s =
      if pteValid ((s.pmap vm).pte w) then .ok (tlbloPteToPa ((s.pmap vm).pte w))
      else .error .notFound := by
  split
  · exact pmapExtract_of_pteValid hw ‹_›
  · rename_i hn
    simp only [pmapExtract, hw.floor, if_neg (Pmap.not_direct hin), if_neg hin]
    cases hf : pmapFind (s.pmap vm) w with
    | none => rfl
    | some x =>
      rw [Pmap.pte, hf, Option.getD_some] at hn
      simp only [if_neg hn]

theorem extract_entryFor (vm : ν) (h : Addressable page) : pteValid (entryFor kernelVm vm page) ∧
      tlbloPteToPa (entryFor kernelVm vm page) = pageAddress page := by
  obtain ⟨f, hf, hp⟩ := h.exists_frame
  rw [entryFor, hp]
  exact ⟨pteValid_entry _, tlbloPteToPa_entry hf⟩

theorem PteSet.extract {x : UInt64} (h : PteSet s s' vm v x) {vm' : ν} (hw : PageAligned w)
    (hin : ¬ (s.pmap vm').Outside w) :
    pmapExtract kernelVm vm' w s' = if vm' = vm ∧ w = v then
      if pteValid x then .ok (tlbloPteToPa x) else .error .notFound
      else pmapExtract kernelVm vm' w s := by
  rw [pmapExtract_inside hw (mt (h.outside vm' w).mp hin), pmapExtract_inside hw hin,
    h.pte vm' w hw]
  split <;> rfl

/-- `pmap_extract` finds what is in the map, in the range of every page table. -/
def Refines (kernelVm : ν) (s : MemState ν) (m : Mapping ν) : Prop :=
  ∀ vm w, PageAligned w → ¬ (s.pmap vm).Outside w → pmapExtract kernelVm vm w s = m.extract vm w

theorem refines_empty (h : ∀ vm i, (s.pmap vm).pmLevel0 i = none) :
    Refines kernelVm s fun _ _ => none := by
  intro vm w hw hin
  rw [pmapExtract_inside hw hin, Pmap.pte, pmapFind_empty (h vm)]
  exact if_neg not_pteValid_zero

theorem PmapStep.pteSet {op : PmapOp ν} (h : PmapStep kernelVm s op s') :
    (∃ x, PteSet s s' op.vm op.vaddr x ∧ ∀ m : Mapping ν,
      (if pteValid x then .ok (tlbloPteToPa x) else .error .notFound) =
        (op.apply m).extract op.vm op.vaddr) ∨
    s' = s ∧ ¬ pteValid ((s.pmap op.vm).pte op.vaddr) ∧ ∃ vm vaddr, op = .unmap vm vaddr := by
  obtain ⟨hv, hin, hp, hrun⟩ := h
  cases op with
  | map vm v page =>
    rcases pmapMap_pte hv _ hrun with ⟨-, ho⟩ | ⟨-, -, hset⟩
    · exact absurd ho hin
    · refine .inl ⟨_, hset, fun m => ?_⟩
      obtain ⟨hvl, hpa⟩ := extract_entryFor vm hp
      rw [if_pos hvl, hpa]
      simp [PmapOp.apply, Mapping.extract, Mapping.set_apply, PmapOp.vm, PmapOp.vaddr]
  | unmap vm v =>
    replace hv : PageAligned v := hv
    have hs : (pmapUnmap vm v s).1 = s' := congrArg Prod.fst (Except.ok.inj hrun)
    rcases pmapUnmap_pte vm s hv with ⟨hu, hf⟩ | ⟨hu, -, hn⟩ | ⟨-, -, -, hset⟩
    · -- there is no table for the page
      rw [hu] at hs
      refine .inr ⟨hs.symm, ?_, vm, v, rfl⟩
      simp only [PmapOp.vm, PmapOp.vaddr, Pmap.pte, hf]
      exact not_pteValid_zero
    · rw [hu] at hs
      exact .inr ⟨hs.symm, hn, vm, v, rfl⟩
    · rw [hs] at hset
      refine .inl ⟨0, hset, fun m => ?_⟩
      rw [if_neg not_pteValid_zero]
      simp [PmapOp.apply, Mapping.extract, Mapping.set_apply, PmapOp.vm, PmapOp.vaddr]

theorem pmapExtract_step_other {op : PmapOp ν} (h : PmapStep kernelVm s op s') {vm : ν}
    (hw : PageAligned w) (hin : ¬ (s.pmap vm).Outside w) (hne : ¬ (vm = op.vm ∧ w = op.vaddr)) :
    pmapExtract kernelVm vm w s' = pmapExtract kernelVm vm w s := by
  rcases h.pteSet with ⟨x, hs, -⟩ | ⟨rfl, -⟩
  · rw [hs.extract hw hin, if_neg hne]
  · rfl

omit [DecidableEq ν] in
theorem Mapping.extract_congr {m m' : Mapping ν} (h : m vm w = m' vm w) :
    m.extract vm w = m'.extract vm w := by
  rw [extract, extract, h]

theorem PmapOp.apply_other {op : PmapOp ν} {m : Mapping ν} (hne : ¬ (vm = op.vm ∧ w = op.vaddr)) :
    op.apply m vm w = m vm w := by
  cases op <;> exact (m.set_apply _ _ _ _ _).trans (if_neg hne)

theorem PmapStep.outside {op : PmapOp ν} (h : PmapStep kernelVm s op s') (vm : ν) (w : UInt64) :
    (s'.pmap vm).Outside w ↔ (s.pmap vm).Outside w := by
  rcases h.pteSet with ⟨x, hs, -⟩ | ⟨rfl, -⟩
  · exact hs.outside vm w
  · rfl

theorem Refines.step {op : PmapOp ν} {m : Mapping ν} (hm : Refines kernelVm s m)
    (h : PmapStep kernelVm s op s') : Refines kernelVm s' (op.apply m) := by
  intro vm w hw hin
  replace hin := mt (h.outside vm w).mpr hin
  by_cases heq : vm = op.vm ∧ w = op.vaddr
  · obtain ⟨rfl, rfl⟩ := heq
    rcases h.pteSet with ⟨x, hs, hx⟩ | ⟨rfl, hn, vm, v, rfl⟩
    · rw [hs.extract hw hin, if_pos ⟨rfl, rfl⟩, hx m]
    · -- nothing was mapped at the page
      rw [pmapExtract_inside hw hin, if_neg hn]
      simp [PmapOp.apply, Mapping.extract, Mapping.set_apply, PmapOp.vm, PmapOp.vaddr]
  · rw [pmapExtract_step_other h hw hin heq, hm vm w hw hin]
    exact Mapping.extract_congr (PmapOp.apply_other heq).symm

/-- **Page tables refine finite maps.** After every sequence of calls on page tables as `pmap_pinit`
leaves them, `pmap_extract` finds at each page of the range what the map has there after the same
calls: the page that was mapped last, or nothing. One more call changes what is found for its own
page only. -/
theorem pmap_refines_mapping {s₀ : MemState ν} {h : List (MemState ν × PmapOp ν)}
    (hinit : ∀ vm, s₀.pmap vm = userPmap ∨ s₀.pmap vm = kernelPmap)
    (hr : Run (PmapStep kernelVm) s₀ h s) (vm : ν) (w : UInt64) (hw : PageAligned w)
    (hin : ¬ (s₀.pmap vm).Outside w) :
    pmapExtract kernelVm vm w s = (mappingAfter h).extract vm w ∧
      ∀ op s', PmapStep kernelVm s op s' → ¬ (vm = op.vm ∧ w = op.vaddr) →
        pmapExtract kernelVm vm w s' = pmapExtract kernelVm vm w s := by
  have he : Refines kernelVm s₀ fun _ _ => none := by
    refine refines_empty fun vm i => ?_
    rcases hinit vm with h | h
    · rw [h]
      rfl
    · rw [h]
      rfl
  obtain ⟨hrf, ho⟩ : Refines kernelVm s (mappingAfter h) ∧
      ∀ vm w, (s.pmap vm).Outside w ↔ (s₀.pmap vm).Outside w := by
    refine hr.invariant ⟨he, fun _ _ => Iff.rfl⟩ ?_
    rintro h s op s' - ⟨hrf, ho⟩ hs
    refine ⟨?_, fun vm w => (hs.outside vm w).trans (ho vm w)⟩
    rw [mappingAfter, List.foldl_append]
    exact hrf.step hs
  have hin' := mt (ho vm w).mp hin
  exact ⟨hrf vm w hw hin', fun op s' hs hne => pmapExtract_step_other hs hw hin' hne⟩

def eightPages : MemState ℕ where
  pages :=
    (PageRange.insert ⟨16, 8, add_eight_le_frameEnd⟩ (pageInit blankPages)).toOption.getD blankPages
  pmap := fun _ => userPmap
  ptPages := []

/-- A page is mapped at 0 and then another one at 8192, and the first one is unmapped: the second
is found and the first is not. -/
theorem pmap_refines_mapping_two : ∃ (h : List (MemState ℕ × PmapOp ℕ)) (s : MemState ℕ),
    Run (PmapStep 0) eightPages h s ∧ h.length = 3 ∧
      pmapExtract 0 1 0 s = .error .notFound ∧ pmapExtract 0 1 8192 s = .ok (frameAddr 21) := by
  have hr₁ : Run (PmapStep 0) eightPages _ _ :=
    Run.nil.snoc (PmapStep.call (c := .map 1 0 (entryOf 16 4)) (by decide) (by decide)
      ⟨by decide, by decide⟩ rfl)
  have hr₂ := hr₁.snoc (PmapStep.call (c := .map 1 8192 (entryOf 16 5)) (by decide) (by decide)
    ⟨by decide, by decide⟩ rfl)
  have hr₃ := hr₂.snoc (PmapStep.call (c := .unmap 1 0) (by decide) (by decide) trivial rfl)
  obtain ⟨h, s, hr, hlen, h0, h1⟩ : ∃ h s, Run (PmapStep 0) eightPages h s ∧ h.length = 3 ∧
      mappingAfter h 1 0 = none ∧ mappingAfter h 1 8192 = some (frameAddr 21) :=
    ⟨_, _, hr₃, rfl, rfl, by decide⟩
  have hin : ∀ vm, eightPages.pmap vm = userPmap ∨ eightPages.pmap vm = kernelPmap :=
    fun _ => .inl rfl
  refine ⟨h, s, hr, hlen, ?_, ?_⟩
  · rw [(pmap_refines_mapping hin hr 1 0 (by decide) (by decide)).1, Mapping.extract, h0]
  · rw [(pmap_refines_mapping hin hr 1 8192 (by decide) (by decide)).1, Mapping.extract, h1]

end Glatt
