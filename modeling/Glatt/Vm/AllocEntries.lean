import Glatt.Vm.Alloc
import Glatt.Vm.IndexPlaces
import Glatt.Vm.PmapEntries

/-!
# The pages that allocation maps

Which pages the functions of `vm_alloc.c` map and unmap in the address spaces of users. The kernel
maps pages for itself as well; what it does in its own address space is left open.

## Main definitions

* `MappedAt`: a page of an address space is mapped
* `Adds`, `Clears`: what a function maps and unmaps

## Main results

* `vmMapPages_adds`, `vmMapPages_maps`, `vmFreePages_clears`: the loops of `vm_alloc` and `vm_free`
* `vmWire_adds`, `vmUnwire_adds`: a page that is wired is mapped only if it is faulted in
-/

namespace Glatt

open Imperative Yields

variable {ν ι : Type} [DecidableEq ν] {vaddr pages : UInt64}

/-- The page at the address `w` is mapped in the address space `u`. -/
def MappedAt (mem : MemState ν) (u : ν) (w : UInt64) : Prop :=
  PageAligned w ∧ pteValid ((mem.pmap u).pte w)

/-- All pages that are mapped in an index at the address are among the `n` pages from there on, and
the index is in use. -/
def Releasable (s : VmState ν ι) (vm : ν) (vaddr : UInt64) (n : ℕ) : Prop :=
  ∀ T x, (s.index vm).vmIndex.Represents T → x ∈ T.inorder → (s.index vm).Holds x vaddr →
    ((s.index vm).vmi x).inUse ∧
      ∀ w, MappedAt s.mem vm w → (s.index vm).Covers x w → ∃ o < n, w = pageFloor (pageAt vaddr o)

def OnlySpace (vm : ν) (mem mem' : MemState ν) : Prop := ∀ u, u ≠ vm → mem'.pmap u = mem.pmap u

variable (kernelVm : ν)

/-- Users have no pages mapped but those that they had, and those of `A`. -/
def Adds (mem mem' : MemState ν) (A : ν → UInt64 → Prop) : Prop :=
  ∀ u, u ≠ kernelVm → ∀ w, MappedAt mem' u w → MappedAt mem u w ∨ A u w

/-- Users have no pages mapped but those that they had, and none of `C`. -/
def Clears (mem mem' : MemState ν) (C : ν → UInt64 → Prop) : Prop :=
  ∀ u, u ≠ kernelVm → ∀ w, MappedAt mem' u w → MappedAt mem u w ∧ ¬ C u w

variable {kernelVm} {vm : ν} {v page : UInt64} {mem mem' mem'' : MemState ν}
  {A A' C : ν → UInt64 → Prop}

/-! ## Composition -/

section

omit [DecidableEq ν]

theorem Adds.trans (h : Adds kernelVm mem mem' A) (h' : Adds kernelVm mem' mem'' A) :
    Adds kernelVm mem mem'' A := by
  intro u hu w hw
  rcases h' u hu w hw with hw | hw
  · exact h u hu w hw
  · exact .inr hw

theorem Adds.mono (h : Adds kernelVm mem mem' A) (hA : ∀ u w, A u w → A' u w) :
    Adds kernelVm mem mem' A' := fun u hu w hw => (h u hu w hw).imp_right (hA u w)

theorem PteSame.adds (h : PteSame mem mem') : Adds kernelVm mem mem' A := by
  intro u _ w hw
  rw [MappedAt, h.pte] at hw
  exact .inl hw

end

theorem PteSet.adds {x : UInt64} (h : PteSet mem mem' vm v x) :
    Adds kernelVm mem mem' fun u w => u = vm ∧ w = v := by
  intro u _ w ⟨hw, hv⟩
  rw [h.pte u w hw] at hv
  split at hv
  · exact .inr ‹_›
  · exact .inl ⟨hw, hv⟩

theorem PteSet.clears (h : PteSet mem mem' vm v 0) :
    Clears kernelVm mem mem' fun u w => u = vm ∧ w = v := by
  intro u _ w ⟨hw, hv⟩
  rw [h.pte u w hw] at hv
  split at hv
  · exact absurd hv not_pteValid_zero
  · exact ⟨⟨hw, hv⟩, ‹_›⟩

section

omit [DecidableEq ν]

theorem OnlySpace.adds (h : OnlySpace kernelVm mem mem') : Adds kernelVm mem mem' A := by
  intro u hu w hw
  rw [MappedAt, h u hu] at hw
  exact .inl hw

theorem OnlySpace.trans (h : OnlySpace vm mem mem') (h' : OnlySpace vm mem' mem'') :
    OnlySpace vm mem mem'' := fun u hu => (h' u hu).trans (h u hu)

theorem onlySpace_of_pmap (h : mem'.pmap = mem.pmap) : OnlySpace vm mem mem' := fun u _ => by rw [h]

end

theorem onlySpace_setPmap (pm : Pmap) : OnlySpace vm mem (mem.setPmap vm pm) :=
  fun _ hu => Function.update_of_ne hu _ _

/-! ## One address space at a time -/

omit [DecidableEq ν] in
theorem onPages_pmap (f : PageState → Outcome PageState) :
    Yields (mem.onPages f) fun mem' => mem'.pmap = mem.pmap := by
  refine yields_bind_of_forall fun p => ?_
  exact .ret rfl

theorem pmapMap_onlySpace :
    Yields (pmapMap kernelVm vm v page mem) fun r => OnlySpace vm mem r.1 := by
  refine pmapMap_keeps (fun s hs => ?_) (fun s pm hs => ?_) (onlySpace_of_pmap rfl)
  · exact pmapAllocLevel_pmap.mono fun r hr => hs.trans (onlySpace_of_pmap hr)
  · exact hs.trans (onlySpace_setPmap pm)

theorem pageMap_onlySpace :
    Yields (pageMap kernelVm vm v page mem) fun r => OnlySpace vm mem r.1 := by
  rw [pageMap]
  refine (onPages_pmap _).bind fun s hs => ?_
  refine pmapMap_onlySpace.bind ?_
  rintro ⟨s', r⟩ hs'
  have hm := (onlySpace_of_pmap hs).trans hs'
  cases r with
  | ok _ => exact .ret hm
  | error e =>
    refine (onPages_pmap _).bind fun s'' hs'' => ?_
    exact .ret (hm.trans (onlySpace_of_pmap hs''))

theorem pageUnmap_onlySpace : Yields (pageUnmap vm v page mem) fun r => OnlySpace vm mem r.1 := by
  have hu : OnlySpace vm mem (pmapUnmap vm v mem).1 := by
    unfold pmapUnmap
    split
    · exact onlySpace_of_pmap rfl
    · split
      · exact onlySpace_setPmap _
      · exact onlySpace_of_pmap rfl
  rw [pageUnmap]
  rcases hr : pmapUnmap vm v mem with ⟨s, r⟩
  rw [hr] at hu
  cases r with
  | error e => exact .ret hu
  | ok _ =>
    refine (onPages_pmap _).bind fun s' hs' => ?_
    exact .ret (hu.trans (onlySpace_of_pmap hs'))

/-! ## Ranges of pages -/

theorem pageAligned_pageAt {vaddr : UInt64} (h : PageAligned vaddr) (o : ℕ) :
    PageAligned (pageAt vaddr o) := by
  have hv := h.toNat
  have hs : pageSize.toNat = 8192 := rfl
  apply UInt64.toNat_inj.mp
  rw [toNat_pageOffset, pageAt, UInt64.toNat_add, UInt64.toNat_mul, hs]
  change _ = 0
  omega

theorem toNat_pageAt {vaddr : UInt64} {o : ℕ} (h : vaddr.toNat + o * 8192 < 2 ^ 64) :
    (pageAt vaddr o).toNat = vaddr.toNat + o * 8192 := by
  have ho : (UInt64.ofNat o).toNat = o := toNat_ofNat (by omega)
  have hs : pageSize.toNat = 8192 := rfl
  rw [pageAt, UInt64.toNat_add, UInt64.toNat_mul, ho, hs, Nat.mod_eq_of_lt, Nat.mod_eq_of_lt]
  · omega
  · omega

def InRange (vm : ν) (vaddr : UInt64) (n : ℕ) (u : ν) (w : UInt64) : Prop :=
  u = vm ∧ ∃ o < n, w = pageAt vaddr o

omit [DecidableEq ν] in
theorem InRange.mono {vaddr : UInt64} {n n' : ℕ} (hn : n ≤ n') {u : ν} {w : UInt64}
    (h : InRange vm vaddr n u w) : InRange vm vaddr n' u w := by
  obtain ⟨hu, o, ho, hw⟩ := h
  exact ⟨hu, o, by omega, hw⟩

theorem vmMapPages_adds (hv : PageAligned vaddr) :
    Yields (vmMapPages kernelVm vm vaddr pages mem) fun mem' =>
      Adds kernelVm mem mem' (InRange vm vaddr pages.toNat) := by
  refine forRange (I := fun i mem' => Adds kernelVm mem mem' (InRange vm vaddr i)) ?_
    fun u _ w hw => .inl hw
  intro i _ mem₁ hmem₁
  refine yields_orPanic ((pageAllocMap_pte (pageAligned_pageAt hv i) _).mono ?_)
  rintro ⟨mem₂, r⟩ (⟨page, -, -, -, hs⟩ | ⟨⟨e, he⟩, -⟩) hr
  · refine (hmem₁.mono fun u w => InRange.mono i.le_succ).trans (hs.adds.mono ?_)
    rintro u w ⟨rfl, rfl⟩
    exact ⟨rfl, i, i.lt_succ_self, rfl⟩
  · rw [hr] at he
    cases he

theorem PteSet.mappedAt {x : UInt64} (h : PteSet mem mem' vm v x) (hx : pteValid x) {u : ν}
    {w : UInt64} (hw : PageAligned w) (hm : u = vm ∧ w = v ∨ MappedAt mem u w) :
    MappedAt mem' u w := by
  refine ⟨hw, ?_⟩
  rw [h.pte u w hw]
  split
  · exact hx
  · exact (hm.resolve_left ‹_›).2

theorem vmMapPages_maps (hv : PageAligned vaddr) :
    Yields (vmMapPages kernelVm vm vaddr pages mem) fun mem' =>
      ∀ o < pages.toNat, MappedAt mem' vm (pageAt vaddr o) := by
  refine forRange (I := fun i mem' => ∀ o < i, MappedAt mem' vm (pageAt vaddr o)) ?_ nofun
  intro i _ mem₁ hmem₁
  refine yields_orPanic ((pageAllocMap_pte (pageAligned_pageAt hv i) _).mono ?_)
  rintro ⟨mem₂, r⟩ (⟨page, -, -, -, hs⟩ | ⟨⟨e, he⟩, -⟩) hr
  · intro o ho
    refine hs.mappedAt pteValid_entryFor (pageAligned_pageAt hv o) ?_
    rcases Nat.lt_succ_iff_lt_or_eq.mp ho with ho | rfl
    · exact .inr (hmem₁ o ho)
    · exact .inl ⟨rfl, rfl⟩
  · rw [hr] at he
    cases he

variable (kernelVm) in
theorem pageUnmap_clears : Yields (pageUnmap vm v page mem) fun r => r.2 = .ok () →
    Clears kernelVm mem r.1 fun u w => u = vm ∧ w = pageFloor v := by
  by_cases ho : (mem.pmap vm).Outside v
  · have hn : pmapFind (mem.pmap vm) v = none := by rw [pmapFind, if_pos ho]
    simp only [pageUnmap, pmapUnmap, hn]
    exact .ret fun h => by cases h
  · have hs : pageUnmap vm v page mem = pageUnmap vm (pageFloor v) page mem := by
      rw [pageUnmap, pageUnmap, pmapUnmap_floor ho]
    rw [hs]
    refine (pageUnmap_pte (pageAligned_floor v)).mono ?_
    rintro ⟨mem', r⟩ (⟨-, -, hset⟩ | ⟨-, -, hnot, hp⟩ | ⟨⟨e, he⟩, -, -⟩) hr
    · exact hset.clears
    -- the entry was not valid, and no entry has changed
    · rintro u - w ⟨hw, hv⟩
      rw [hp.pte] at hv
      refine ⟨⟨hw, hv⟩, ?_⟩
      rintro ⟨rfl, rfl⟩
      exact hnot hv
    · rw [hr] at he
      cases he

section

omit [DecidableEq ν]

theorem Clears.trans {C' : ν → UInt64 → Prop} (h : Clears kernelVm mem mem' C)
    (h' : Clears kernelVm mem' mem'' C') :
    Clears kernelVm mem mem'' fun u w => C u w ∨ C' u w := by
  intro u hu w hw
  obtain ⟨hw', hC'⟩ := h' u hu w hw
  obtain ⟨hw, hC⟩ := h u hu w hw'
  exact ⟨hw, fun hc => hc.elim hC hC'⟩

theorem Clears.mono {C' : ν → UInt64 → Prop} (h : Clears kernelVm mem mem' C)
    (hC : ∀ u w, C' u w → C u w) : Clears kernelVm mem mem' C' :=
  fun u hu w hw => (h u hu w hw).imp_right fun hn hc => hn (hC u w hc)

theorem PteSame.clears_trans (h : Clears kernelVm mem mem' C) (h' : PteSame mem' mem'') :
    Clears kernelVm mem mem'' C := by
  intro u hu w hw
  rw [MappedAt, h'.pte] at hw
  exact h u hu w hw

end

theorem pageFreeMap_clears : Yields (pageFreeMap kernelVm vm v mem) fun r => r.2 = .ok () →
    Clears kernelVm mem r.1 fun u w => u = vm ∧ w = pageFloor v := by
  rw [pageFreeMap]
  refine yields_bind_of_forall ?_
  rintro (e | -)
  · exact .ret nofun
  · refine (pageUnmap_clears kernelVm).bind ?_
    rintro ⟨mem', r⟩ hc
    cases r with
    | error e => exact .ret nofun
    | ok _ =>
      refine (onPages_pte _).bind fun mem'' hp => ?_
      exact .ret fun _ => PteSame.clears_trans (hc rfl) hp

theorem vmFreePages_clears :
    Yields (vmFreePages kernelVm vm vaddr pages mem) fun mem' => Clears kernelVm mem mem'
      fun u w => u = vm ∧ ∃ o < pages.toNat, w = pageFloor (pageAt vaddr o) := by
  refine forRange (I := fun i mem' => Clears kernelVm mem mem'
    fun u w => u = vm ∧ ∃ o < i, w = pageFloor (pageAt vaddr o)) ?_ ?_
  · intro i _ mem₁ hmem₁
    refine yields_orPanic (pageFreeMap_clears.mono ?_)
    rintro ⟨mem₂, r⟩ hc hr
    refine (hmem₁.trans (hc hr)).mono ?_
    rintro u w ⟨rfl, o, ho, rfl⟩
    rcases Nat.lt_succ_iff_lt_or_eq.mp ho with ho | rfl
    · exact .inl ⟨rfl, o, ho, rfl⟩
    · exact .inr ⟨rfl, rfl⟩
  · rintro u - w hw
    exact ⟨hw, fun ⟨_, o, ho, _⟩ => absurd ho o.not_lt_zero⟩

/-! ## Wiring -/

def wirePages (uvaddr len : UInt64) : UInt64 := pageCount (uvaddr + len - pageFloor uvaddr)

theorem toNat_wirePages {uvaddr len : UInt64}
    (h : (pageOffset uvaddr).toNat + len.toNat + 8191 < 2 ^ 64) :
    (wirePages uvaddr len).toNat = ((pageOffset uvaddr).toNat + len.toNat + 8191) / 8192 := by
  have hf := toNat_pageFloor uvaddr
  have ho := toNat_pageOffset uvaddr
  have hb : (uvaddr + len - pageFloor uvaddr).toNat = (pageOffset uvaddr).toNat + len.toNat := by
    have hle : pageFloor uvaddr ≤ uvaddr := by
      rw [UInt64.le_iff_toNat_le]
      omega
    rw [add_sub_right_comm, UInt64.toNat_add, UInt64.toNat_sub_of_le _ _ hle]
    omega
  rw [wirePages, toNat_pageCount _ (by omega), hb]

theorem vmWirePage_adds (hv : PageAligned v) (fault : Bool) :
    Yields (vmWirePage kernelVm vm v fault mem) fun r =>
      Adds kernelVm mem r.1 fun u w => fault ∧ u = vm ∧ w = v := by
  rw [vmWirePage]
  refine yields_bind_of_forall ?_
  rintro (e | page)
  · dsimp only
    split
    · rename_i hf
      refine yields_bind_of_forall ?_
      rintro ⟨pages, r⟩
      cases r with
      | error e => exact yields_error
      | ok page =>
        refine bind (yields_orPanic ?_) fun mem' hmem' => .ret hmem'
        refine (pageMap_pte hv).mono ?_
        rintro ⟨mem', r⟩ (⟨-, -, hs⟩ | ⟨⟨e, he⟩, -⟩) hr
        · have ha : PteSame mem { mem with pages } := pteSame_of_pmap rfl
          exact (ha.trans_set hs).adds.mono fun u w h => ⟨hf.1, h⟩
        · rw [hr] at he
          cases he
    · exact yields_error
  · exact .ret fun u _ w hw => .inl hw

def OnlyKernelIndex (kernelVm : ν) (s s' : VmState ν ι) : Prop :=
  ∀ u, u ≠ kernelVm → s'.index u = s.index u

theorem onlyKernelIndex_setIndex (s : VmState ν ι) (index : IndexMap ι) :
    OnlyKernelIndex kernelVm s (s.setIndex kernelVm index) :=
  fun _ hu => s.setIndex_of_ne hu index

theorem vmWirePages_adds {vaddr kvaddr pages : UInt64} (hv : PageAligned vaddr) (fault : Bool) :
    Yields (vmWirePages kernelVm vm vaddr kvaddr pages fault mem) fun mem' =>
      Adds kernelVm mem mem' fun u w => fault ∧ InRange vm vaddr pages.toNat u w := by
  refine forRange (I := fun i mem' => Adds kernelVm mem mem'
    fun u w => fault ∧ InRange vm vaddr i u w) ?_ fun u _ w hw => .inl hw
  intro i _ mem₁ hmem₁
  refine (vmWirePage_adds (pageAligned_pageAt hv i) fault).bind ?_
  rintro ⟨mem₂, page⟩ hmem₂
  refine yields_orPanic (pageMap_onlySpace.mono ?_)
  rintro ⟨mem₃, r⟩ hmem₃ -
  have hb := hmem₁.mono fun u w (h : fault ∧ InRange vm vaddr i u w) =>
    (⟨h.1, h.2.mono i.le_succ⟩ : fault ∧ InRange vm vaddr (i + 1) u w)
  refine (hb.trans (hmem₂.mono ?_)).trans hmem₃.adds
  rintro u w ⟨hf, rfl, rfl⟩
  exact ⟨hf, rfl, i, i.lt_succ_self, rfl⟩

variable {s : VmState ν ι}

omit [DecidableEq ν] in
theorem onMem_guarded {Q : Prop} {f : MemState ν → Outcome (MemState ν)} {P : MemState ν → Prop}
    (h : Guarded Q (f s.mem) P) :
    Guarded Q (s.onMem f) fun s' => P s'.mem ∧ s'.index = s.index :=
  h.bind fun _ hmem => guarded_pure ⟨hmem, rfl⟩

omit [DecidableEq ν] in
theorem onMem_yields {f : MemState ν → Outcome (MemState ν)} {P : MemState ν → Prop}
    (h : Yields (f s.mem) P) : Yields (s.onMem f) fun s' => P s'.mem ∧ s'.index = s.index :=
  (onMem_guarded h.guarded).yields

variable [DecidableEq ι] {uvaddr len : UInt64}

theorem vmWire_adds {new₁ new₂ : Option ι} (fault : Bool) :
    Yields (vmWire kernelVm new₁ new₂ vm uvaddr len fault s) fun r =>
      Adds kernelVm s.mem r.1.mem (fun u w => fault ∧
        InRange vm (pageFloor uvaddr) (wirePages uvaddr len).toNat u w) ∧
      OnlyKernelIndex kernelVm s r.1 := by
  have hf := pageAligned_floor uvaddr
  unfold vmWire
  dsimp only
  split_ifs with hk ho
  · exact yields_error
  · refine (vmWirePage_adds hf fault).bind ?_
    rintro ⟨mem₁, page⟩ hmem₁
    refine bind (P := fun r : MemState ν × UInt64 => r.1.pmap = mem₁.pmap) ?_ ?_
    · refine yields_bind_of_forall ?_
      rintro ⟨-, r⟩
      cases r with
      | error e => exact yields_error
      | ok kvaddr => exact .ret rfl
    · rintro ⟨mem₂, kvaddr⟩ hmem₂
      refine .ret ⟨?_, fun _ _ => rfl⟩
      refine Adds.trans (hmem₁.mono ?_) (pteSame_of_pmap hmem₂).adds
      rintro u w ⟨hfl, rfl, rfl⟩
      refine ⟨hfl, rfl, 0, ?_, ?_⟩
      · rw [wirePages, ho]
        decide
      · simp [pageAt]
  · refine yields_bind_of_forall ?_
    rintro ⟨index, r⟩
    cases r with
    | error e => exact yields_error
    | ok kvaddr =>
      refine (onMem_yields (vmWirePages_adds hf fault)).bind ?_
      rintro s' ⟨hmem, hin⟩
      refine .ret ⟨hmem, fun u hu => ?_⟩
      rw [hin]
      exact onlyKernelIndex_setIndex s index u hu

theorem vmUnwire_adds {kvaddr : UInt64} :
    Yields (vmUnwire kernelVm vm uvaddr len kvaddr s) fun s' =>
      Adds kernelVm s.mem s'.mem (fun _ _ => False) ∧ OnlyKernelIndex kernelVm s s' := by
  unfold vmUnwire
  dsimp only
  split_ifs with hk ho
  · exact yields_error
  · refine yields_bind_of_forall fun page => ?_
    refine (onMem_yields (onPages_pmap _)).mono ?_
    rintro s' ⟨hmem, hin⟩
    exact ⟨(pteSame_of_pmap hmem).adds, fun u _ => by rw [hin]⟩
  · refine (onMem_yields (P := fun mem' => Adds kernelVm s.mem mem' fun _ _ => False) ?_).bind ?_
    · refine forRange (I := fun _ mem' => Adds kernelVm s.mem mem' fun _ _ => False) ?_
        fun u _ w hw => .inl hw
      intro i _ mem₁ hmem₁
      refine yields_bind_of_forall fun page => ?_
      exact yields_orPanic (pageUnmap_onlySpace.mono fun r hr _ => hmem₁.trans hr.adds)
    · rintro s₁ ⟨hmem₁, hin₁⟩
      refine yields_bind_of_forall fun index => ?_
      refine .ret ⟨hmem₁, fun u hu => ?_⟩
      rw [← hin₁]
      exact onlyKernelIndex_setIndex s₁ index u hu

end Glatt
