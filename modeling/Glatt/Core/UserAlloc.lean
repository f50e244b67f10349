import Glatt.Core.SyscallReturns
import Glatt.Vm.IndexFailure

/-!
# What an allocation gives to a user

`syscall_vm_alloc_range` allocates its range twice, so the second allocation finds the pages in use
that the first one has taken: a range that is free is lost to the user, and never mapped. `vm_alloc`
rounds its size up to pages in 64 bits, so a size within a page of the end becomes no pages at all,
as the size 0 does. An index is then split at one of its ends into all of its pages and none, and
the call succeeds with an address at which nothing is mapped.

## Main definitions

* `RangeGiven`, `SizeGiven`: the pages of a call that succeeds are mapped, at new addresses

## Main results

* `alloc_range_given_iff`, `alloc_range_lost`: a range is given as long as none can be had
* `alloc_size_given_iff`, `alloc_size_empty`: a size is given unless it is rounded to no pages
-/

namespace Glatt

open Imperative BinaryTree Tiling

variable {ν ι : Type} [DecidableEq ν] [DecidableEq ι] {kernelVm u : ν} {s : VmState ν ι}
  {vm : IndexMap ι} {T F : BinaryTree ι} {a b : ℕ}

/-! ## Ranges -/

def InOneFree (index : IndexMap ι) (begin end_ : UInt64) : Prop :=
  ∃ T x, index.vmIndex.Represents T ∧ x ∈ T.inorder ∧ ¬ (index.vmi x).inUse ∧
    ∀ w, begin ≤ w → w < end_ → index.Covers x w

/-- **A range is given**: the call returns; a range in one free index is in use and mapped; an error
has changed no index and no mapping. -/
def RangeGiven (kernelVm u : ν) (env : SyscallEnv ι) (begin end_ : UInt64) (s : VmState ν ι) :
    Prop :=
  Ensures (syscallVmAllocRange kernelVm env u begin end_ s) fun r =>
    (InOneFree (s.index u) begin end_ → r.2 = .ok () ∧ ∀ w, begin ≤ w → w < end_ →
      InUseAt (r.1.index u) w ∧ MappedAt r.1.mem u (pageFloor w)) ∧
    ∀ e, r.2 = .error e → r.1.index u = s.index u ∧ r.1.mem = s.mem

theorem vmAllocRange_refused (h : Linked vm T F) {new₁ new₂ : Option ι} {begin end_ : UInt64}
    (hbg : 8192 ∣ begin.toNat) (hend : 8192 ∣ end_.toNat) (hno : ¬ InOneFree vm begin end_) :
    ∃ e, vmAllocRange new₁ new₂ begin end_ vm = .ok (vm, .error e) := by
  obtain ⟨r, hf, hr⟩ := vmFindIndex_spec h begin
  rw [vmAllocRange, vmClaimRange, pageFloor_eq_self hbg, pageRoundup_eq_self hend, hf, ok_bind]
  cases r with
  | none => exact ⟨.notFound, rfl⟩
  | some x =>
    obtain ⟨hx, hbs, -⟩ := hr x rfl
    dsimp only
    rw [vmClaimIndex]
    split_ifs with hus hs
    · exact ⟨.notFree, rfl⟩
    · exact ⟨.notImplemented, rfl⟩
    -- a free index from before the range to behind it
    · refine absurd ⟨T, x, h.tree, hx, hus, fun w hw hw' => ⟨?_, ?_⟩⟩ hno
      · exact UInt64.le_trans hbs hw
      · exact UInt64.lt_of_lt_of_le hw' (UInt64.not_lt.mp hs)

/-- **A range is given as long as none can be had**: if it does not lie in one free index, the call
fails and changes nothing, and if it does, the call fails as well. -/
theorem alloc_range_given_iff (h : IndexInv a b (s.index u)) (ha : 8192 ∣ a) (hb : b < 2 ^ 64)
    (hu : u ≠ kernelVm) {env : SyscallEnv ι}
    (huser : ∀ T, (s.index u).vmIndex.Represents T → Fresh env.user₁ env.user₂ T)
    {begin end_ : UInt64} (hbegin : PageAligned begin) (hend : PageAligned end_)
    (hlt : begin < end_) :
    RangeGiven kernelVm u env begin end_ s ↔ ¬ InOneFree (s.index u) begin end_ := by
  constructor
  · rintro ⟨r, hrun, ho, -⟩ hf
    obtain ⟨-, hrun', index, e, rfl, -⟩ := syscallVmAllocRange_fails h ha hb hu huser begin end_
    obtain rfl := Except.ok.inj (hrun.symm.trans hrun')
    -- a range in a free index is claimed and then refused, so the call does not succeed
    cases (ho hf).1
  · intro hno
    obtain ⟨T, F, hL, -⟩ := h
    obtain ⟨e, hr⟩ : ∃ e, vmAllocRange env.user₁ env.user₂ begin end_ (s.index u) =
        .ok (s.index u, .error e) := vmAllocRange_refused hL
      (Nat.dvd_of_mod_eq_zero hbegin.toNat) (Nat.dvd_of_mod_eq_zero hend.toNat) hno
    have hg : ¬ (pageOffset begin ≠ 0 ∨ pageOffset end_ ≠ 0 ∨ end_ ≤ begin) := by
      rw [not_or, not_or, not_not, not_not, UInt64.not_le]
      exact ⟨hbegin, hend, hlt⟩
    rw [RangeGiven, syscallVmAllocRange, if_neg hg, hr]
    exact .ret ⟨fun hf => absurd hf hno, fun _ _ => ⟨s.setIndex_self _ _, rfl⟩⟩

theorem bootSystem_index : IndexInv 8192 (pageRoundup userEnd).toNat (bootSystem.vm.index 1) ∧
    (bootSystem.vm.index 1).vmIndex.Represents (.node 0 .nil .nil) ∧
    ((bootSystem.vm.index 1).vmi 0).vmiBase = 8192 ∧
    ¬ ((bootSystem.vm.index 1).vmi 0).inUse := by
  have hin : vmInsertRange (some 0) (userBase + pageSize) userEnd (vmSetup2 blankIndex) =
      .ok (bootSystem.vm.index 1, .ok ()) := rfl
  obtain ⟨-, -, h⟩ := IndexInv.run (by decide) (by decide) (by decide) hin .nil
  exact ⟨h, ⟨⟨rfl, rfl, rfl, rfl⟩, by simp, by decide⟩, rfl, by decide⟩

/-- The page at the address 0 is in no index. -/
theorem alloc_range_given_iff_zero : RangeGiven 0 1 userEnv 0 8192 bootSystem.vm := by
  obtain ⟨hinv, hT, -, -⟩ := bootSystem_index
  have hiff : RangeGiven 0 1 userEnv 0 8192 bootSystem.vm ↔ _ :=
    alloc_range_given_iff hinv (by decide) (UInt64.toNat_lt _) Nat.one_ne_zero
      userCall_userEnv.freshUser rfl rfl (by decide)
  refine hiff.mpr ?_
  rintro ⟨T, x, hT', hx, -, hc⟩
  obtain rfl := hT.unique hT'
  obtain rfl := List.mem_singleton.mp hx
  have hle := (hc 0 (by decide) (by decide)).1
  exact absurd hle (by decide)

/-- **A free range is lost**: the first page of the user is in use after the call, and the call has
failed because of that. The page is not mapped. -/
theorem alloc_range_lost : ∃ s', syscallVmAllocRange 0 userEnv 1 8192 16384 bootSystem.vm =
      .ok (s', .error .notFree) ∧ InOneFree (bootSystem.vm.index 1) 8192 16384 ∧
      ¬ InUseAt (bootSystem.vm.index 1) 8192 ∧ InUseAt (s'.index 1) 8192 ∧
      ¬ MappedAt s'.mem 1 8192 := by
  obtain ⟨-, hT, hbs, hf⟩ := bootSystem_index
  obtain ⟨s', hrun, hT', hvmi, hp⟩ : ∃ s', syscallVmAllocRange 0 userEnv 1 8192 16384
        bootSystem.vm = .ok (s', .error .notFree) ∧
      (s'.index 1).vmIndex.Represents (.node 0 .nil (.node 2 .nil .nil)) ∧
      (s'.index 1).vmi 0 = ⟨8192, 1, 1⟩ ∧ (s'.mem.pmap 1).pte 8192 = 0 :=
    ⟨_, rfl, ⟨⟨rfl, rfl, rfl, rfl, rfl, rfl, rfl⟩, by simp, by decide⟩, rfl, rfl⟩
  refine ⟨s', hrun, ⟨_, 0, hT, by simp, hf, fun w hw hw' => ⟨hbs ▸ hw, ?_⟩⟩, ?_,
    ⟨_, 0, hT', by simp, ?_, ?_⟩, ?_⟩
  · refine UInt64.lt_trans hw' ?_
    decide
  · rintro ⟨T, x, hT₁, hx, hus, -⟩
    obtain rfl := hT.unique hT₁
    obtain rfl := List.mem_singleton.mp hx
    exact hf hus
  · rw [hvmi]
    decide
  · rw [IndexMap.Covers, hvmi]
    decide
  · rintro ⟨-, hv⟩
    rw [hp] at hv
    exact not_pteValid_zero hv

/-! ## Sizes -/

/-- **A size is given** at an address: every byte is mapped, the range does not wrap, and the
indices tile their range, each with a base of its own and none of them empty. -/
structure SizeGiven (a b : ℕ) (s : VmState ν ι) (u : ν) (vaddr size : UInt64) : Prop where
  mapped : ∀ w : UInt64, vaddr.toNat ≤ w.toNat → w.toNat < vaddr.toNat + size.toNat →
    MappedAt s.mem u (pageFloor w)
  fits : vaddr.toNat + size.toNat < 2 ^ 64
  index : IndexInv a b (s.index u)
  bases : ∀ T, (s.index u).vmIndex.Represents T → ∀ x ∈ T.inorder, ∀ y ∈ T.inorder,
    ((s.index u).vmi x).vmiBase = ((s.index u).vmi y).vmiBase → x = y
  sizes : ∀ T, (s.index u).vmIndex.Represents T → ∀ x ∈ T.inorder, ((s.index u).vmi x).vmiSize ≠ 0

def AllocGiven (a b : ℕ) (kernelVm u : ν) (new₁ new₂ : Option ι) (size : UInt64) (flags : UInt32)
    (s : VmState ν ι) : Prop :=
  Yields (vmAlloc kernelVm new₁ new₂ u size flags s) fun r =>
    ∀ vaddr, r.2 = .ok vaddr → SizeGiven a b r.1 u vaddr size

theorem pageCount_eq_zero_iff (size : UInt64) :
    pageCount size = 0 ↔ ¬ (1 ≤ size.toNat ∧ size.toNat ≤ 2 ^ 64 - 8192) := by
  have hlt := size.toNat_lt
  have hc : (pageCount size).toNat = (size.toNat + 8191) % 2 ^ 64 / 8192 := by
    rw [pageCount, toNat_addrToPage, UInt64.toNat_add]
    rfl
  rw [← UInt64.toNat_inj, UInt64.toNat_zero]
  omega

omit [DecidableEq ι] in
theorem IndexInv.base_inj (h : IndexInv a b vm) (hT : vm.vmIndex.Represents T) {x y : ι}
    (hx : x ∈ T.inorder) (hy : y ∈ T.inorder) (hbs : (vm.vmi x).vmiBase = (vm.vmi y).vmiBase) :
    x = y := by
  obtain ⟨T', F, hL, ht⟩ := h
  obtain rfl := hL.tree.unique hT
  have hl : vm.lo x = vm.lo y := congrArg UInt64.toNat hbs
  have hbx := ht.bounds hx
  have hby := ht.bounds hy
  exact ht.eq_of_covers hx hy ⟨le_rfl, by omega⟩ ⟨hl.ge, by omega⟩

omit [DecidableEq ι] in
theorem IndexInv.size_ne_zero (h : IndexInv a b vm) (hT : vm.vmIndex.Represents T) {x : ι}
    (hx : x ∈ T.inorder) : (vm.vmi x).vmiSize ≠ 0 := by
  obtain ⟨T', F, hL, ht⟩ := h
  obtain rfl := hL.tree.unique hT
  intro hz
  have hpos := (ht.bounds hx).2.1
  rw [IndexMap.len, hz] at hpos
  exact absurd hpos (by decide)

theorem pageFloor_eq_pageAt {vaddr w : UInt64} (hv : 8192 ∣ vaddr.toNat)
    (hw : vaddr.toNat ≤ w.toNat) : pageFloor w = pageAt vaddr ((w.toNat - vaddr.toNat) / 8192) := by
  have hlt := w.toNat_lt
  apply UInt64.toNat_inj.mp
  rw [toNat_pageFloor, toNat_pageAt (by omega)]
  omega

section Alloc

variable (h : IndexInv a b (s.index u)) (ha : 8192 ∣ a) (hb : b < 2 ^ 64) (hu : u ≠ kernelVm)
  {new₁ new₂ : Option ι}
  (hnew : ∀ T, (s.index u).vmIndex.Represents T → Fresh new₁ new₂ T)
include h ha hb hu hnew

theorem allocGiven_of_pages {size : UInt64} (hp : pageCount size ≠ 0) (flags : UInt32) :
    AllocGiven a b kernelVm u new₁ new₂ size flags s := by
  obtain ⟨hpos, hs⟩ := not_not.mp (mt (pageCount_eq_zero_iff size).mpr hp)
  have hcn := toNat_pageCount size (by omega)
  have ho : 1 ≤ pageCount size := by
    rw [UInt64.le_iff_toNat_le, UInt64.toNat_one]
    omega
  rw [AllocGiven, vmAlloc, if_neg fun hc => hu hc.1]
  rw [if_neg fun hc => hu hc.1]
  refine (h.allocAddress_taken ha hb hnew ho _).yields.bind ?_
  rintro ⟨index, r⟩ ⟨hinv, htk, -⟩
  cases r with
  | error e => exact .ret fun _ h => by cases h
  | ok vaddr =>
    obtain ⟨ht, -⟩ := htk vaddr rfl
    refine (onMem_yields (vmMapPages_maps ht.pageAligned)).bind ?_
    rintro ⟨mem', -⟩ ⟨hm, rfl⟩
    refine .ret ?_
    rintro _ ⟨⟩
    rw [← s.setIndex_self u index] at hinv
    have hf := ht.fits
    refine ⟨fun w hw hw' => ?_, by omega, hinv, fun T hT x hx y hy => hinv.base_inj hT hx hy,
      fun T hT x hx => hinv.size_ne_zero hT hx⟩
    -- the byte lies in one of the pages that have been mapped
    rw [pageFloor_eq_pageAt ht.aligned hw]
    exact hm _ (by omega)

theorem allocGiven_empty_iff {size : UInt64} (hp : pageCount size = 0) (flags : UInt32) :
    AllocGiven a b kernelVm u new₁ new₂ size flags s ↔ ¬ HasRoom (s.index u) 1 ∨
      (if flags &&& vmAllocHigh ≠ 0 then new₁ else new₂) = none := by
  obtain ⟨T, F, hL, ht⟩ := id h
  have hcl := vmAllocAddress_claimed hL (placed_of_tiles ht ha) hb (hnew T hL.tree) 0
    (flags &&& vmAllocHigh ≠ 0)
  rw [AllocGiven, vmAlloc, if_neg fun hc => hu hc.1]
  rw [if_neg fun hc => hu hc.1, hp]
  constructor
  · intro hg
    by_contra hcn
    rw [not_or, not_not] at hcn
    obtain ⟨⟨T', x, hT', hx, hf, -⟩, hsm⟩ := hcn
    obtain ⟨⟨index, r⟩, hrun, ⟨T₁, F₁, hL₁, -, -, hcm⟩, -, -, he⟩ := hcl
    rw [hrun] at hg
    simp only [decide_eq_true_eq] at he
    cases r with
    | error e =>
      rcases (he e rfl).2 with ⟨-, hr⟩ | ⟨-, hn, -⟩
      · exact hr ⟨T', x, hT', hx, hf, UInt64.le_iff_toNat_le.mpr (Nat.zero_le _)⟩
      · exact hsm hn
    | ok vaddr =>
      -- the index that has been taken into use has no pages
      obtain ⟨y, hy, -, -, hsz⟩ := hcm vaddr 0 rfl
      have hs := hg _ rfl vaddr rfl
      refine hs.sizes T₁ ?_ y hy ?_
      · rw [s.setIndex_self]
        exact hL₁.tree
      · rw [s.setIndex_self]
        exact hsz
  · intro hcn
    refine hcl.yields.bind ?_
    rintro ⟨index, r⟩ ⟨-, -, ho, -⟩
    cases r with
    | error e => exact .ret fun _ h => by cases h
    | ok vaddr =>
      obtain ⟨x, hx⟩ := ho vaddr rfl
      have hrs := hx.pool
      simp only [decide_eq_true_eq] at hrs
      -- the index that was split is not empty: there was room for a page, and a rest to make
      have hne := h.size_ne_zero hL.tree hx.mem
      rcases hcn with hr | hn
      · refine absurd ⟨T, x, hL.tree, hx.mem, hx.free, ?_⟩ hr
        rw [UInt64.le_iff_toNat_le, UInt64.toNat_one]
        have := mt UInt64.toNat_inj.mp hne
        rw [UInt64.toNat_zero] at this
        omega
      · exact absurd hn (hrs.resolve_left hne)

/-- **A size is given unless it is rounded to no pages**: it is not 0 and not within a page of the
end of the numbers of 64 bits, or the call fails. -/
theorem alloc_size_given_iff (size : UInt64) (flags : UInt32) :
    AllocGiven a b kernelVm u new₁ new₂ size flags s ↔
      1 ≤ size.toNat ∧ size.toNat ≤ 2 ^ 64 - 8192 ∨ ¬ HasRoom (s.index u) 1 ∨
        (if flags &&& vmAllocHigh ≠ 0 then new₁ else new₂) = none := by
  by_cases hp : pageCount size = 0
  · rw [allocGiven_empty_iff h ha hb hu hnew hp flags]
    exact (or_iff_right ((pageCount_eq_zero_iff size).mp hp)).symm
  · have hs := not_not.mp (mt (pageCount_eq_zero_iff size).mpr hp)
    exact ⟨fun _ => .inl hs, fun _ => allocGiven_of_pages h ha hb hu hnew hp flags⟩

end Alloc

/-- One page for a user at the start. -/
theorem alloc_size_given_iff_page : ∃ s', vmAlloc 0 (some 1) (some 2) 1 100 vmAllocDefault
      bootSystem.vm = .ok (s', .ok 8192) ∧
      SizeGiven 8192 (pageRoundup userEnd).toNat s' 1 8192 100 := by
  obtain ⟨hinv, -⟩ := bootSystem_index
  have hiff : AllocGiven 8192 (pageRoundup userEnd).toNat 0 1 (some 1) (some 2) 100 vmAllocDefault
      bootSystem.vm ↔ _ :=
    alloc_size_given_iff hinv (by decide) (UInt64.toNat_lt _) Nat.one_ne_zero
      userCall_userEnv.freshUser 100 vmAllocDefault
  exact ⟨_, rfl, hiff.mpr (.inl (by decide)) _ rfl _ rfl⟩

/-- **The largest size is given as nothing**: the call succeeds at the first address of the user,
nothing is mapped there, and two indices have that base, one of them without pages. -/
theorem alloc_size_empty : ∃ s', vmAlloc 0 (some 1) (some 2) 1 0xFFFFFFFFFFFFFFFF vmAllocDefault
      bootSystem.vm = .ok (s', .ok 8192) ∧ ¬ MappedAt s'.mem 1 8192 ∧
      ∃ T, (s'.index 1).vmIndex.Represents T ∧ 0 ∈ T.inorder ∧ 2 ∈ T.inorder ∧
        ((s'.index 1).vmi 0).vmiBase = 8192 ∧ ((s'.index 1).vmi 2).vmiBase = 8192 ∧
        ((s'.index 1).vmi 0).vmiSize = 0 := by
  refine ⟨_, rfl, ?_, .node 0 .nil (.node 2 .nil .nil),
    ⟨⟨rfl, rfl, rfl, rfl, rfl, rfl, rfl⟩, by simp, by decide⟩, by simp, by simp, rfl, rfl, rfl⟩
  rintro ⟨-, hv⟩
  exact not_pteValid_zero hv

end Glatt
