import Glatt.Vm.Alloc
import Glatt.Vm.PmapEntries

/-!
# The bytes of pages do not matter

Two states of the memory that differ in the bytes of the physical pages only. No function of
`vm_page.c`, `cpu_pmap.c` and `vm_alloc.c` looks at the bytes, and the only one that writes them is
`pmap_zero`: the functions run in lockstep, with equal results, and bytes that are equal stay equal.

The relations also follow the queues: `F` holds of the pages that are free and `U` of those in use.
A function that only takes pages keeps them for any `F` that implies `U`; a function that gives
pages back keeps them where `F` and `U` are the same.

## Main definitions

* `SamePages`, `SameMem`, `SameVm`: states that differ in bytes only

## Main results

* `SameMem.pageAllocMap`, `SameMem.pageFreeMap`: mapping and freeing pages
* `SameVm.vmAlloc`, `SameVm.vmFree`, `SameVm.vmWire`, `SameVm.vmUnwire`: the functions of
  `vm_alloc.c` for users
-/

namespace Glatt

open Imperative List

variable {F U P A : UInt64 → Prop} {vaddr page : UInt64} {flags : UInt32}

/-- The two states are equal but for bytes, and have the same bytes at the addresses in `A`. The
free pages satisfy `F`, the pages in use `U`. -/
structure SamePages (F U A : UInt64 → Prop) (p q : PageState) : Prop where
  bytes : ∃ phys, q = { p with phys } ∧ ∀ a, A a → phys a = p.phys a
  free : ∀ page ∈ p.pageFreeQueue, F page
  use : ∀ page ∈ p.pageUseQueue, U page

/-- The calls return the same, and states that differ in bytes only; if they succeed the free pages
satisfy `F`. -/
structure SameReply {σ : Type} (R Q : σ → σ → Prop) (x y : σ × Except Errno Unit) : Prop where
  reply : y.2 = x.2
  ok : x.2 = .ok () → R x.1 y.1
  any : Q x.1 y.1

theorem lockstep_orPanic {σ : Type} {R Q : σ → σ → Prop}
    {x y : Outcome (σ × Except Errno Unit)} (h : Lockstep (SameReply R Q) x y) :
    Lockstep R (orPanic x) (orPanic y) := by
  refine h.bind ?_
  rintro ⟨s, r⟩ ⟨s', r'⟩ ⟨hr, ho, -⟩
  subst hr
  cases r' with
  | ok _ => exact .ok (ho rfl)
  | error e => exact .halt _

/-! ## Physical pages -/

section Pages

variable {p q : PageState}

theorem SamePages.weaken (h : SamePages F U A p q) (hf : F ≤ U) : SamePages U U A p q :=
  ⟨h.bytes, fun page hp => hf page (h.free page hp), h.use⟩

variable {l : List UInt64}

theorem tailqRemove_yields : Yields (tailqRemove page l) fun l' => page ∈ l ∧ ∀ x ∈ l', x ∈ l := by
  unfold tailqRemove
  split
  · exact .ret ⟨‹_›, fun x hx => mem_of_mem_erase hx⟩
  · exact yields_error

theorem lockstep_tailqRemove :
    Lockstep (fun l₁ l₂ => l₂ = l₁ ∧ page ∈ l ∧ ∀ x ∈ l₁, x ∈ l) (tailqRemove page l)
      (tailqRemove page l) :=
  (lockstep_refl _).and_yields tailqRemove_yields

theorem SamePages.hold (h : SamePages F U A p q) (hFU : F ≤ U) :
    Lockstep (SamePages F U A) (pageRefHold page p) (pageRefHold page q) := by
  obtain ⟨⟨phys, rfl, hb⟩, hf, hu⟩ := h
  unfold pageRefHold
  split
  · refine lockstep_tailqRemove.bind ?_
    rintro l _ ⟨rfl, hmem, hs⟩
    refine .ok ⟨⟨phys, rfl, hb⟩, fun x hx => hf x (hs x hx), fun x hx => ?_⟩
    rcases mem_append.mp hx with hx | hx
    · exact hu x hx
    · exact mem_singleton.mp hx ▸ hFU page (hf page hmem)
  · exact .ok ⟨⟨phys, rfl, hb⟩, hf, hu⟩

theorem SamePages.drop (h : SamePages P P A p q) (page : UInt64) :
    Lockstep (SamePages P P A) (pageRefDrop page p) (pageRefDrop page q) := by
  obtain ⟨⟨phys, rfl, hb⟩, hf, hu⟩ := h
  unfold pageRefDrop
  simp only [setRefcnt_pgRefcnt, if_true]
  split
  · refine lockstep_tailqRemove.bind ?_
    rintro l _ ⟨rfl, hmem, hs⟩
    refine .ok ⟨⟨phys, rfl, hb⟩, fun x hx => ?_, fun x hx => hu x (hs x hx)⟩
    rcases mem_append.mp hx with hx | hx
    · exact hf x hx
    · exact mem_singleton.mp hx ▸ hu page hmem
  · exact .ok ⟨⟨phys, rfl, hb⟩, hf, hu⟩

section

variable (h : SamePages F U A p q)
include h

theorem SamePages.zero : SamePages F U A (pmapZero page p) (pmapZero page q) := by
  obtain ⟨⟨phys, rfl, hb⟩, hf, hu⟩ := h
  refine ⟨⟨_, rfl, fun a ha => ?_⟩, hf, hu⟩
  simp only [pmapZero, hb a ha]

theorem SamePages.alloc (hf : F ≤ U) :
    Lockstep (Paired (SamePages F U A)) (pageAlloc flags p) (pageAlloc flags q) := by
  have hq : q.pageFreeQueue = p.pageFreeQueue := by
    obtain ⟨-, rfl, -⟩ := h.bytes
    rfl
  unfold pageAlloc
  rw [hq]
  split
  · exact .ok ⟨h, rfl⟩
  · refine (h.hold hf).bind fun p' q' h' => ?_
    split
    · exact .ok ⟨h'.zero, rfl⟩
    · exact .ok ⟨h', rfl⟩

theorem SamePages.mapDirect (hf : F ≤ U) :
    Lockstep (Paired (SamePages F U A)) (pageMapDirect true page p)
      (pageMapDirect true page q) := by
  exact (h.hold hf).bind fun p' q' h' => .ok ⟨h', rfl⟩

theorem SamePages.allocDirect (hf : F ≤ U) :
    Lockstep (Paired (SamePages F U A)) (pageAllocDirect true flags p)
      (pageAllocDirect true flags q) := by
  unfold pageAllocDirect
  refine (h.alloc hf).bind_paired fun p' q' r h' => ?_
  cases r with
  | error e => exact .ok ⟨h', rfl⟩
  | ok page =>
    -- in the kernel's address space the direct map does not fail
    simp only [pageMapDirect, if_true, bind_assoc]
    exact (h'.hold hf).bind fun p'' q'' h'' => .ok ⟨h'', rfl⟩

theorem SamePages.lookup (paddr : UInt64) : pageLookup paddr q = pageLookup paddr p := by
  obtain ⟨-, rfl, -⟩ := h.bytes
  rfl

end

end Pages

/-! ## Page tables -/

/-- States of the memory that differ in bytes only. -/
structure SameMem {ν : Type} (F U A : UInt64 → Prop) (s t : MemState ν) : Prop where
  pages : SamePages F U A s.pages t.pages
  pmap : t.pmap = s.pmap
  ptPages : t.ptPages = s.ptPages

section Mem

variable {ν : Type} [DecidableEq ν] {kernelVm vm : ν} {s t : MemState ν}

section

variable (h : SameMem F U A s t)
include h

omit [DecidableEq ν] in
theorem SameMem.weaken (hf : F ≤ U) : SameMem U U A s t := ⟨h.pages.weaken hf, h.pmap, h.ptPages⟩

omit [DecidableEq ν] in
theorem SameMem.onPages {f : PageState → Outcome PageState}
    (hf : Lockstep (SamePages P P A) (f s.pages) (f t.pages)) :
    Lockstep (SameMem P P A) (s.onPages f) (t.onPages f) :=
  hf.bind fun _ _ h' => .ok ⟨h', h.pmap, h.ptPages⟩

variable {pm : Pmap → Pmap}

theorem SameMem.setPmap (pm : Pmap → Pmap) :
    SameMem F U A (s.setPmap vm (pm (s.pmap vm))) (t.setPmap vm (pm (t.pmap vm))) := by
  refine ⟨h.pages, ?_, h.ptPages⟩
  simp only [MemState.setPmap, h.pmap]

omit [DecidableEq ν] in
theorem SameMem.allocLevel (hf : F ≤ U) :
    Lockstep (Paired (SameMem F U A)) (pmapAllocLevel s) (pmapAllocLevel t) := by
  unfold pmapAllocLevel
  refine (h.pages.allocDirect hf).bind_paired fun p q r h' => ?_
  cases r with
  | error e => exact .ok ⟨⟨h', h.pmap, h.ptPages⟩, rfl⟩
  | ok tmpaddr => exact .ok ⟨⟨h', h.pmap, by rw [h.ptPages]⟩, rfl⟩

theorem SameMem.allocTable (hf : F ≤ U) (pm : Pmap → Pmap) :
    Lockstep (Paired (SameMem F U A))
      (do match ← pmapAllocLevel s with
          | (s, .error e) => pure (s, Except.error e)
          | (s, .ok ()) => pure (s.setPmap vm (pm (s.pmap vm)), Except.ok ()))
      (do match ← pmapAllocLevel t with
          | (s, .error e) => pure (s, Except.error e)
          | (s, .ok ()) => pure (s.setPmap vm (pm (s.pmap vm)), Except.ok ())) := by
  refine (h.allocLevel hf).bind_paired fun s' t' r h' => ?_
  cases r with
  | error e => exact .ok ⟨h', rfl⟩
  | ok _ => exact .ok ⟨h'.setPmap pm, rfl⟩

theorem SameMem.allocPte (hf : F ≤ U) :
    Lockstep (Paired (SameMem F U A)) (pmapAllocPte vm vaddr s) (pmapAllocPte vm vaddr t) := by
  have hl : Lockstep (Paired (SameMem F U A)) (pmapAllocLevel0 vm vaddr s)
      (pmapAllocLevel0 vm vaddr t) := by
    unfold pmapAllocLevel0
    rw [h.pmap]
    split
    · exact .ok ⟨h, rfl⟩
    · exact h.allocTable hf fun pm => pm.setLevel0 vaddr fun _ => none
  refine hl.bind_paired fun s' t' r h' => ?_
  cases r with
  | error e => exact .ok ⟨h', rfl⟩
  | ok _ =>
    change Lockstep _ (pmapAllocLevel1 vm vaddr s') (pmapAllocLevel1 vm vaddr t')
    unfold pmapAllocLevel1
    rw [h'.pmap]
    split
    · exact .ok ⟨h', rfl⟩
    · exact h'.allocTable hf fun pm => pm.setLevel1 vaddr fun _ => 0

theorem SameMem.pmapUpdate (flags : UInt64) :
    Lockstep (SameMem F U A) (pmapUpdate vm vaddr page flags s)
      (pmapUpdate vm vaddr page flags t) := by
  unfold Glatt.pmapUpdate
  rw [h.pmap]
  dsimp only
  split
  · exact .halt _
  · split
    · exact .halt _
    · have hs : SameMem F U A (s.setPmap vm _) (t.setPmap vm _) := h.setPmap fun pm =>
        pm.setPte (pageFloor vaddr) (tlbloPaToPfn (pageAddress page) ||| flags)
      rw [h.pmap] at hs
      exact .ok hs

theorem SameMem.pmapMap (hf : F ≤ U) :
    Lockstep (Paired (SameMem F U A)) (pmapMap kernelVm vm vaddr page s)
      (pmapMap kernelVm vm vaddr page t) := by
  unfold Glatt.pmapMap
  rw [h.pmap]
  split
  · exact .ok ⟨h, rfl⟩
  · refine (h.allocPte hf).bind_paired fun s' t' r h' => ?_
    cases r with
    | error e => exact .halt _
    | ok _ => exact (h'.pmapUpdate _).bind fun s'' t'' h'' => .ok ⟨h'', rfl⟩

theorem SameMem.pmapUnmap (vaddr : UInt64) :
    Paired (SameMem F U A) (pmapUnmap vm vaddr s) (pmapUnmap vm vaddr t) := by
  unfold Glatt.pmapUnmap
  rw [h.pmap]
  split
  · exact ⟨h, rfl⟩
  · split
    · have hs : SameMem F U A (s.setPmap vm _) (t.setPmap vm _) :=
        h.setPmap fun pm => pm.setPte vaddr 0
      rw [h.pmap] at hs
      exact ⟨hs, rfl⟩
    · exact ⟨h, rfl⟩

theorem SameMem.pageExtract :
    pageExtract kernelVm vm vaddr t = pageExtract kernelVm vm vaddr s := by
  have he : pmapExtract kernelVm vm vaddr t = pmapExtract kernelVm vm vaddr s := by
    simp only [pmapExtract, h.pmap]
  unfold Glatt.pageExtract
  rw [he]
  split
  · rfl
  · exact h.pages.lookup _

theorem SameMem.pageMap (hf : F ≤ U) :
    Lockstep (SameReply (SameMem F U A) (SameMem U U A)) (pageMap kernelVm vm vaddr page s)
      (pageMap kernelVm vm vaddr page t) := by
  unfold Glatt.pageMap MemState.onPages
  simp only [bind_assoc, pure_bind]
  refine (h.pages.hold hf).bind fun p q hp => ?_
  have h' : SameMem F U A { s with pages := p } { t with pages := q } := ⟨hp, h.pmap, h.ptPages⟩
  refine (h'.pmapMap hf).bind_paired fun s' t' r h'' => ?_
  cases r with
  | ok _ => exact .ok ⟨rfl, fun _ => h'', h''.weaken hf⟩
  | error e =>
    refine ((h''.weaken hf).pages.drop page).bind fun p' q' hp' => ?_
    exact .ok ⟨rfl, nofun, hp', h''.pmap, h''.ptPages⟩

end

theorem SameMem.pageUnmap (h : SameMem P P A s t) (vaddr page : UInt64) :
    Lockstep (Paired (SameMem P P A)) (pageUnmap vm vaddr page s) (pageUnmap vm vaddr page t) := by
  unfold Glatt.pageUnmap
  have hp : Paired (SameMem P P A) (Glatt.pmapUnmap vm vaddr s) _ := h.pmapUnmap vaddr
  generalize Glatt.pmapUnmap vm vaddr s = x at hp
  generalize Glatt.pmapUnmap vm vaddr t = y at hp
  obtain ⟨s', r⟩ := x
  obtain ⟨t', r'⟩ := y
  obtain ⟨hs, hr⟩ := hp
  subst hr
  cases r' with
  | error e => exact .ok ⟨hs, rfl⟩
  | ok _ => exact (hs.onPages (hs.pages.drop page)).bind fun s'' t'' h'' => .ok ⟨h'', rfl⟩

theorem SameMem.pageAllocMap (h : SameMem F U A s t) (hf : F ≤ U)
    (flags : UInt32) (vaddr : UInt64) :
    Lockstep (SameReply (SameMem F U A) (SameMem U U A))
      (pageAllocMap kernelVm vm flags vaddr s) (pageAllocMap kernelVm vm flags vaddr t) := by
  unfold Glatt.pageAllocMap
  refine (h.pages.alloc hf).bind_paired fun p q r hp => ?_
  have h' : SameMem F U A { s with pages := p } { t with pages := q } := ⟨hp, h.pmap, h.ptPages⟩
  cases r with
  | error e => exact .ok ⟨rfl, nofun, h'.weaken hf⟩
  | ok page =>
    refine (h'.pageMap hf).bind ?_
    rintro ⟨s', r⟩ ⟨t', r'⟩ ⟨hr, ho, ha⟩
    subst hr
    cases r' with
    | ok _ => exact .ok ⟨rfl, ho, ha⟩
    | error e =>
      refine (ha.onPages (ha.pages.drop page)).bind fun s'' t'' h'' => ?_
      exact .ok ⟨rfl, nofun, h''⟩

theorem SameMem.pageFreeMap (h : SameMem P P A s t) :
    Lockstep (SameReply (SameMem P P A) (SameMem P P A)) (pageFreeMap kernelVm vm vaddr s)
      (pageFreeMap kernelVm vm vaddr t) := by
  unfold Glatt.pageFreeMap
  rw [h.pageExtract]
  refine Lockstep.bind_same fun r => ?_
  cases r with
  | error e => exact .ok ⟨rfl, fun _ => h, h⟩
  | ok page =>
    refine (h.pageUnmap vaddr page).bind_paired fun s' t' r h' => ?_
    cases r with
    | error e => exact .ok ⟨rfl, fun _ => h', h'⟩
    | ok _ =>
      refine (h'.onPages (h'.pages.drop page)).bind fun s'' t'' h'' => ?_
      exact .ok ⟨rfl, fun _ => h'', h''⟩

end Mem

/-! ## Address spaces -/

/-- States of the address spaces that differ in bytes only. -/
structure SameVm {ν ι : Type} (F U A : UInt64 → Prop) (s t : VmState ν ι) : Prop where
  mem : SameMem F U A s.mem t.mem
  index : t.index = s.index

def MappedTo {ν : Type} [DecidableEq ν] (F : UInt64 → Prop) (kernelVm vm : ν) (vaddr : UInt64)
    (n : ℕ) (mem : MemState ν) : Prop :=
  ∀ o < n, ∃ page, F page ∧
    (mem.pmap vm).pte (pageFloor (pageAt vaddr o)) = entryFor kernelVm vm page

section Vm

variable {ν ι : Type} [DecidableEq ν] [DecidableEq ι] {kernelVm vm : ν} {s t : VmState ν ι}
  {new₁ new₂ : Option ι}

theorem SameMem.vmMapPages {s t : MemState ν} (h : SameMem F U A s t) (hf : F ≤ U)
    (vaddr pages : UInt64) :
    Lockstep (fun s' t' => SameMem F U A s' t' ∧ MappedTo F kernelVm vm vaddr pages.toNat s')
      (vmMapPages kernelVm vm vaddr pages s) (vmMapPages kernelVm vm vaddr pages t) := by
  refine Lockstep.forRange
    (I := fun o s' t' => SameMem F U A s' t' ∧ MappedTo F kernelVm vm vaddr o s') ?_
    ⟨h, nofun⟩
  rintro o - s' t' ⟨h', hm⟩
  have he : Yields (orPanic (Glatt.pageAllocMap kernelVm vm pageFlagDefault (pageAt vaddr o) s'))
      fun s'' => ∃ page ∈ s'.pages.pageFreeQueue,
        PteSet s' s'' vm (pageFloor (pageAt vaddr o)) (entryFor kernelVm vm page) :=
    yields_orPanic (pageAllocMap_floor_pte _)
  refine ((lockstep_orPanic (h'.pageAllocMap hf _ _)).and_yields he).mono ?_
  rintro s'' t'' ⟨h'', page, hp, hset⟩
  refine ⟨h'', fun o' ho' => ?_⟩
  rw [hset.pte vm _ (pageAligned_floor _)]
  by_cases hs : pageFloor (pageAt vaddr o') = pageFloor (pageAt vaddr o)
  · exact ⟨page, h'.pages.free page hp, if_pos ⟨rfl, hs⟩⟩
  · have hne : o' ≠ o := fun heq => hs (heq ▸ rfl)
    obtain ⟨page', hp', hpte⟩ := hm o' (by omega)
    exact ⟨page', hp', by rw [if_neg fun h => hs h.2, hpte]⟩

omit [DecidableEq ι] in
theorem SameVm.setIndex (h : SameVm F U A s t) (index : IndexMap ι) :
    SameVm F U A (s.setIndex vm index) (t.setIndex vm index) :=
  ⟨h.mem, by simp only [VmState.setIndex, h.index]⟩

omit [DecidableEq ν] [DecidableEq ι] in
theorem SameVm.onMem (h : SameVm F U A s t) {f : MemState ν → Outcome (MemState ν)}
    {R : MemState ν → MemState ν → Prop} (hf : Lockstep R (f s.mem) (f t.mem)) :
    Lockstep (fun s' t' => R s'.mem t'.mem ∧ t'.index = s'.index) (s.onMem f) (t.onMem f) :=
  hf.bind fun _ _ h' => .ok ⟨h', h.index⟩

omit [DecidableEq ν] [DecidableEq ι] in
theorem SameVm.weaken (h : SameVm F U A s t) (hf : F ≤ U) : SameVm U U A s t :=
  ⟨h.mem.weaken hf, h.index⟩

/-- What an allocation of a user does in two runs: it returns the same address, and maps free
pages. -/
structure SameAlloc (F U A : UInt64 → Prop) (kernelVm vm : ν) (n : ℕ)
    (x y : VmState ν ι × Except Errno UInt64) : Prop where
  reply : y.2 = x.2
  same : SameVm U U A x.1 y.1
  mapped : ∀ vaddr, x.2 = .ok vaddr → MappedTo F kernelVm vm vaddr n x.1.mem

theorem SameVm.vmAlloc (h : SameVm F U A s t) (hf : F ≤ U) (hvm : vm ≠ kernelVm)
    (new₁ new₂ : Option ι) (size : UInt64) (flags : UInt32) :
    Lockstep (SameAlloc F U A kernelVm vm (pageCount size).toNat)
      (vmAlloc kernelVm new₁ new₂ vm size flags s)
      (vmAlloc kernelVm new₁ new₂ vm size flags t) := by
  simp only [Glatt.vmAlloc, hvm, h.index]
  refine Lockstep.bind_same fun ⟨index, r⟩ => ?_
  have h' : SameVm F U A (s.setIndex vm index) (t.setIndex vm index) := h.setIndex index
  cases r with
  | error e => exact .ok ⟨rfl, h'.weaken hf, nofun⟩
  | ok vaddr =>
    refine (h'.onMem (h.mem.vmMapPages hf vaddr _)).bind ?_
    rintro s' t' ⟨⟨hmem, hm⟩, hin⟩
    refine .ok ⟨rfl, (mk hmem hin).weaken hf, fun v hv => ?_⟩
    cases hv
    exact hm

theorem vmAllocPage_eq (hvm : vm ≠ kernelVm) : vmAllocPage kernelVm new₁ new₂ vm s =
      Glatt.vmAlloc kernelVm new₁ new₂ vm pageSize vmAllocDefault s := by
  have ho : pageCount pageSize = 1 := by decide
  have hf : decide (vmAllocDefault &&& vmAllocHigh ≠ 0) = false := by decide
  simp only [vmAllocPage, vmAlloc, hvm, if_false, ho]
  congr 1
  funext ⟨index, r⟩
  cases r with
  | error e => rfl
  | ok vaddr =>
    have hm : vmMapPages kernelVm vm vaddr 1 =
        fun mem => orPanic (pageAllocMap kernelVm vm pageFlagDefault vaddr mem) := by
      funext mem
      simp [vmMapPages, forRange, pageAt]
    simp only [hm]

theorem SameVm.releaseAddress (h : SameVm F U A s t) :
    Lockstep (SameVm F U A) (vmReleaseAddress vm vaddr s) (vmReleaseAddress vm vaddr t) := by
  unfold vmReleaseAddress
  rw [h.index]
  exact Lockstep.bind_same fun index => .ok (h.setIndex index)

theorem SameVm.vmFree (h : SameVm P P A s t) (hvm : vm ≠ kernelVm) (size : UInt64) :
    Lockstep (Paired (SameVm P P A)) (vmFree kernelVm vm size vaddr s)
      (vmFree kernelVm vm size vaddr t) := by
  simp only [Glatt.vmFree, hvm]
  have hp : Lockstep (SameMem P P A) (vmFreePages kernelVm vm vaddr (pageCount size) s.mem)
      (vmFreePages kernelVm vm vaddr (pageCount size) t.mem) := by
    unfold vmFreePages
    refine Lockstep.forRange (I := fun _ => SameMem P P A) (fun o _ s' t' h' => ?_) h.mem
    exact lockstep_orPanic h'.pageFreeMap
  refine (h.onMem hp).bind fun s' t' h' => ?_
  refine ((mk h'.1 h'.2).releaseAddress).bind fun s'' t'' h'' => ?_
  exact .ok ⟨h'', rfl⟩

/-! ## Wiring -/

theorem SameMem.vmWirePage {s t : MemState ν} (h : SameMem P P A s t) (fault : Bool) :
    Lockstep (Paired (SameMem P P A)) (vmWirePage kernelVm vm vaddr fault s)
      (vmWirePage kernelVm vm vaddr fault t) := by
  unfold Glatt.vmWirePage
  rw [h.pageExtract]
  refine Lockstep.bind_same fun r => ?_
  cases r with
  | ok page => exact .ok ⟨h, rfl⟩
  | error e =>
    dsimp only
    split
    · refine (h.pages.alloc le_rfl).bind_paired fun p q r hp => ?_
      cases r with
      | error e => exact .halt _
      | ok page =>
        have h' : SameMem P P A { s with pages := p } { t with pages := q } :=
          ⟨hp, h.pmap, h.ptPages⟩
        refine (lockstep_orPanic (h'.pageMap le_rfl)).bind fun s' t' h'' => ?_
        exact .ok ⟨h'', rfl⟩
    · exact .halt _

omit [DecidableEq ν] in
theorem SameMem.vmWireDirect {s t : MemState ν} (h : SameMem P P A s t) :
    Lockstep (Paired (SameMem P P A)) (vmWireDirect page s) (vmWireDirect page t) := by
  unfold Glatt.vmWireDirect
  refine (h.pages.mapDirect le_rfl).bind_paired fun p q r hp => ?_
  cases r with
  | error e => exact .halt _
  | ok kvaddr => exact .ok ⟨⟨hp, h.pmap, h.ptPages⟩, rfl⟩

theorem SameVm.vmWire (h : SameVm P P A s t) (uvaddr len : UInt64) (fault : Bool) :
    Lockstep (Paired (SameVm P P A)) (vmWire kernelVm new₁ new₂ vm uvaddr len fault s)
      (vmWire kernelVm new₁ new₂ vm uvaddr len fault t) := by
  unfold Glatt.vmWire
  dsimp only
  rw [h.index]
  split
  · exact .halt _
  · split
    · refine (h.mem.vmWirePage fault).bind_paired fun s' t' page h' => ?_
      refine h'.vmWireDirect.bind_paired fun s'' t'' kvaddr h'' => ?_
      exact .ok ⟨⟨h'', rfl⟩, rfl⟩
    · refine Lockstep.bind_same fun ⟨index, r⟩ => ?_
      cases r with
      | error e => exact .halt _
      | ok kvaddr =>
        have h' : SameVm P P A (s.setIndex kernelVm index) (t.setIndex kernelVm index) :=
          h.setIndex index
        refine (h'.onMem (Lockstep.forRange (I := fun _ => SameMem P P A) ?_ h.mem)).bind
          fun s' t' h' => .ok ⟨⟨h'.1, h'.2⟩, rfl⟩
        intro o _ s' t' h'
        refine (h'.vmWirePage fault).bind_paired fun s'' t'' page h'' => ?_
        exact lockstep_orPanic (h''.pageMap le_rfl)

theorem SameMem.vmExtractPage {s t : MemState ν} (h : SameMem F U A s t) :
    vmExtractPage kernelVm vm vaddr t = vmExtractPage kernelVm vm vaddr s := by
  unfold Glatt.vmExtractPage
  rw [h.pageExtract]

theorem SameMem.pageUnmap_orPanic {s t : MemState ν} (h : SameMem P P A s t) :
    Lockstep (SameMem P P A) (orPanic (Glatt.pageUnmap vm vaddr page s))
      (orPanic (Glatt.pageUnmap vm vaddr page t)) :=
  lockstep_orPanic ((h.pageUnmap vaddr page).mono fun _ _ hr => ⟨hr.2, fun _ => hr.1, hr.1⟩)

theorem SameVm.vmUnwire (h : SameVm P P A s t) (uvaddr len kvaddr : UInt64) :
    Lockstep (SameVm P P A) (vmUnwire kernelVm vm uvaddr len kvaddr s)
      (vmUnwire kernelVm vm uvaddr len kvaddr t) := by
  unfold Glatt.vmUnwire
  dsimp only
  rw [h.mem.vmExtractPage]
  split
  · exact .halt _
  · split
    · refine Lockstep.bind_same fun page => ?_
      refine (h.onMem (h.mem.onPages (h.mem.pages.drop page))).mono fun s' t' h' => ?_
      exact ⟨h'.1, h'.2⟩
    · refine (h.onMem (Lockstep.forRange (I := fun _ => SameMem P P A) ?_ h.mem)).bind
        fun s' t' h' => (mk h'.1 h'.2).releaseAddress
      intro o _ s' t' h'
      rw [h'.vmExtractPage]
      exact Lockstep.bind_same fun page => h'.pageUnmap_orPanic

end Vm

end Glatt
