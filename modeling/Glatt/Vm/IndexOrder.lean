import Glatt.Vm.IndexPlaces

/-!
# The order of the free indices

The tree `vm_index_free` is searched for the first index with enough pages, so that low allocations
get the best fit if the tree is in the order of the sizes. `vm_insert_index` and `vm_free_index`
link an index by its size; `vm_claim_range` writes the size of an index that stays where it is
linked. The order survives if the pages that the index keeps are no fewer than those of any index in
front of it, which low allocations see to by themselves.

Address spaces here are any number of ranges, wherever they lie, and requests of any size.

## Main definitions

* `SpaceOp`, `SpaceStep`: the calls on an address space
* `SpaceOp.KeepsOrder`, `BestFit`: what the order needs, and what it gives

## Main results

* `free_tree_best_fit`: best fit along every run that keeps the order
* `high_allocation_breaks_order`: a high allocation after which low allocation is not best fit
-/

namespace Glatt

open Imperative BinaryTree LinkedTree Transition List

variable {ν : Type} {vm vm' : IndexMap ν} {T F : BinaryTree ν} {x : ν} {b : ℕ}

variable [DecidableEq ν]

theorem SizeOrdered.cut (hs : SizeOrdered vm) {k : UInt64} (hk : k ≤ (vm.vmi x).vmiSize)
    (hf : ∀ F xs ys, vm.vmIndexFree.Represents F → F.inorder = xs ++ x :: ys →
      ∀ y ∈ xs, (vm.vmi y).vmiSize ≤ k) : SizeOrdered (vm.setSize x k) := by
  intro F hF
  have hord := hs F hF
  have ho : ∀ z, z ≠ x → ((vm.setSize x k).vmi z).vmiSize = (vm.vmi z).vmiSize :=
    fun z hz => by rw [IndexMap.setSize_vmi, if_neg hz]
  by_cases hx : x ∈ F.inorder
  · obtain ⟨xs, ys, hsl⟩ := append_of_mem hx
    obtain ⟨hxs, hys⟩ := hF.ne_of_split hsl
    have hle := hf F xs ys hF hsl
    rw [hsl] at hord ⊢
    rw [pairwise_append, pairwise_cons] at hord ⊢
    obtain ⟨hor, ⟨hb, hod⟩, hc⟩ := hord
    refine ⟨hor.imp_of_mem ?_, ⟨?_, hod.imp_of_mem ?_⟩, ?_⟩
    · intro y z hy hz hyz
      rwa [ho y (hxs y hy), ho z (hxs z hz)]
    · intro z hz
      rw [vmiSize_setSize, ho z (hys z hz)]
      exact UInt64.le_trans hk (hb z hz)
    · intro y z hy hz hyz
      rwa [ho y (hys y hy), ho z (hys z hz)]
    · intro y hy z hz
      rw [ho y (hxs y hy)]
      rcases mem_cons.mp hz with rfl | hz'
      · rw [vmiSize_setSize]
        exact hle y hy
      · rw [ho z (hys z hz')]
        exact hc y hy z hz
  · refine hord.imp_of_mem fun {y z} hy hz hyz => ?_
    rwa [ho y fun e => hx (e ▸ hy), ho z fun e => hx (e ▸ hz)]

/-! ## Splitting an index -/

/-- The pages that the index `x` has while the range is split off from it: those in front of the
range, or the range itself. -/
def keptPages (vm : IndexMap ν) (x : ν) (begin end_ : UInt64) : UInt64 :=
  if begin ≠ (vm.vmi x).vmiBase then addrToPage (begin - (vm.vmi x).vmiBase)
  else addrToPage (end_ - begin)

/-- **A split keeps the order**: the index in front of which others are linked keeps at least as
many pages as they have. If the range lies in the middle of the index, the second call of
`pool_allocate` does not fail. -/
structure SplitsInOrder (vm : IndexMap ν) (x : ν) (begin end_ : UInt64) (new₂ : Option ν) :
    Prop where
  front : ∀ F xs ys, vm.vmIndexFree.Represents F → F.inorder = xs ++ x :: ys →
    ∀ y ∈ xs, (vm.vmi y).vmiSize ≤ keptPages vm x begin end_
  memory : begin ≠ (vm.vmi x).vmiBase →
    (vm.vmi x).vmiBase + pageToAddr (vm.vmi x).vmiSize ≠ end_ → new₂ ≠ none

theorem claimRest_ordered (h : Linked vm T F) (hs : SizeOrdered vm) (hx : x ∈ T.inorder)
    (hf : ¬ (vm.vmi x).inUse) {new : Option ν} (hnew : ∀ n, new = some n → n ∉ T.inorder)
    {end_ trailer : UInt64} (hk : new = none → trailer ≠ 0 →
      SizeOrdered (vm.setSize x ((vm.vmi x).vmiSize + addrToPage trailer))) :
    Yields (do
      let (vm, r) ← vmClaimTrailer new end_ trailer x vm
      match r with
      | .error e => pure (vm, .error e)
      | .ok () =>
        match ← vmUseIndex x vm with
        | (_, .error _) => .error .panic
        | (vm, .ok ()) => pure (vm, .ok ())) fun p : IndexMap ν × Except Errno Unit =>
      SizeOrdered p.1 := by
  refine (vmClaimTrailer_spec h hnew end_ trailer).yields.bind ?_
  rintro ⟨vm₂, r⟩ hsp
  obtain ⟨ht, hno, rfl, rfl⟩ | ⟨rfl, hs₂, T₂, F₂, hL₂, hx₂, hf₂⟩ :
      (trailer ≠ 0 ∧ new = none ∧ r = .error .exhausted ∧
        vm₂ = vm.setSize x ((vm.vmi x).vmiSize + addrToPage trailer)) ∨
      r = .ok () ∧ SizeOrdered vm₂ ∧
        ∃ T₂ F₂, Linked vm₂ T₂ F₂ ∧ x ∈ T₂.inorder ∧ ¬ (vm₂.vmi x).inUse := by
    rcases hsp with ⟨-, rfl, rfl⟩ | hno | ⟨n, -, hn, rfl, hv, hs₂, T₂, F₂, hL₂, hI⟩
    · exact .inr ⟨rfl, hs, T, F, h, hx, hf⟩
    · exact .inl hno
    · refine .inr ⟨rfl, hs₂ hs, T₂, F₂, hL₂, (hI.1 x).mpr (.inr hx), ?_⟩
      rw [hv, IndexMap.set_vmi, if_neg fun e : x = n => hnew n hn (e ▸ hx)]
      exact hf
  · exact .ret (hk hno ht)
  · refine (vmUseIndex_spec hL₂ hx₂ hf₂).yields.bind ?_
    rintro ⟨vm₃, r⟩ ⟨rfl, -, hs₃, -⟩
    exact .ret (hs₃ hs₂)

theorem claimIndex_ordered (h : Linked vm T F) (hp : Placed vm T b) (hb : b < 2 ^ 64)
    (hs : SizeOrdered vm) (hx : x ∈ T.inorder) {new₁ new₂ : Option ν} (hnew : Fresh new₁ new₂ T)
    {begin end_ : UInt64} (hlo : vm.lo x ≤ begin.toNat) (hle : begin.toNat ≤ end_.toNat)
    (hbg : 8192 ∣ begin.toNat) (hend : 8192 ∣ end_.toNat)
    (hsl : ¬ (vm.vmi x).inUse → end_.toNat ≤ vm.lo x + vm.len x →
      SplitsInOrder vm x begin end_ new₂) :
    Yields (vmClaimIndex new₁ new₂ begin end_ x vm) fun p => SizeOrdered p.1 := by
  obtain ⟨-, hbn⟩ := hp x hx
  have hf : vm.lo x + vm.len x < 2 ^ 64 := by omega
  obtain ⟨hsz, hr⟩ := toNat_reach hf
  rw [vmClaimIndex]
  split_ifs with hu hsh
  · exact .ret hs
  · exact .ret hs
  rw [UInt64.lt_iff_toNat_lt] at hsh
  obtain ⟨hfr, hm⟩ := hsl hu (by omega)
  obtain ⟨hld, hrn, htr⟩ := toNat_parts hf hlo hle (by omega)
  have hbs : begin - (vm.vmi x).vmiBase = 0 ↔ begin = (vm.vmi x).vmiBase := by
    rw [← UInt64.toNat_inj, ← UInt64.toNat_inj, hld]
    simp only [IndexMap.lo] at hlo ⊢
    rw [UInt64.toNat_zero]
    omega
  have hlen := vm.len_eq x
  have hk : keptPages vm x begin end_ = if begin - (vm.vmi x).vmiBase ≠ 0 then
      addrToPage (begin - (vm.vmi x).vmiBase) else addrToPage (end_ - begin) := by
    simp only [keptPages, ne_eq, hbs]
  have hw : addrToPage (pageToAddr (vm.vmi x).vmiSize) = (vm.vmi x).vmiSize := by
    rw [← UInt64.toNat_inj, toNat_addrToPage]
    omega
  have hc := hs.cut ?_ hfr
  · rw [hk] at hc
    refine (vmClaimLeader_spec h hnew.fst _ _ _ _).yields.bind ?_
    rintro ⟨vm₁, r⟩
      (⟨hl, rfl, rfl⟩ | ⟨hl, -, rfl, rfl⟩ | ⟨n, hl, hn, rfl, hv, hs₁, T₁, F₁, hL₁, hI⟩)
    -- the range begins the index: if the trailing pages find no index, it has its size again
    · rw [if_neg (not_not.mpr hl)] at hc
      refine claimRest_ordered (h.setSize _) hc hx ?_ hnew.snd fun _ _ => ?_
      · rwa [inUse_setSize]
      · rw [setSize_restore (UInt64.toNat_inj.mp ?_)]
        · exact hs
        · rw [hl, UInt64.toNat_zero] at hld
          simp only [vmiSize_setSize, UInt64.toNat_add, toNat_addrToPage]
          omega
    · refine .ret ?_
      rw [setSize_restore hw]
      exact hs
    -- a new index takes the range
    · rw [if_pos hl] at hc
      refine claimRest_ordered hL₁ (hs₁ hc) ((hI.1 n).mpr (.inl rfl)) ?_
        (hnew.behind (hI.mem_or hn)) fun hno ht => ?_
      · rw [hv, IndexMap.set_vmi, if_pos rfl]
        exact not_inUse_default _
      · refine absurd hno (hm (fun e => hl (hbs.mpr e)) fun e => ht ?_)
        rw [← UInt64.toNat_inj, htr, ← e, hr, UInt64.toNat_zero, Nat.sub_self]
  · rw [hk, UInt64.le_iff_toNat_le]
    split
    · rw [toNat_addrToPage]
      omega
    · rw [toNat_addrToPage]
      omega

/-! ## Best fit -/

def BestFit (vm : IndexMap ν) (pages vaddr : UInt64) : Prop :=
  ∃ F x, vm.vmIndexFree.Represents F ∧ x ∈ F.inorder ∧ (vm.vmi x).vmiBase = vaddr ∧
    pages ≤ (vm.vmi x).vmiSize ∧ ∀ y ∈ F.inorder, pages ≤ (vm.vmi y).vmiSize →
      (vm.vmi x).vmiSize ≤ (vm.vmi y).vmiSize

omit [DecidableEq ν] in
theorem find?_enough {xs : List ν} {pages : UInt64}
    (hf : (xs.find? fun x => ¬ (vm.vmi x).vmiSize < pages) = some x) :
    pages ≤ (vm.vmi x).vmiSize ∧ ∃ ys zs, xs = ys ++ x :: zs ∧
      ∀ y ∈ ys, (vm.vmi y).vmiSize < pages := by
  obtain ⟨hx, ys, zs, hsl, hys⟩ := find?_eq_some_iff_append.mp hf
  exact ⟨UInt64.not_lt.mp (by simpa using hx), ys, zs, hsl, fun y hy => by simpa using hys y hy⟩

omit [DecidableEq ν] in
theorem SizeOrdered.bestFit (hs : SizeOrdered vm) (h : Linked vm T F) {pages : UInt64}
    (hx : FirstFit vm T F pages false x) : BestFit vm pages (vm.vmi x).vmiBase := by
  obtain ⟨hpg, xs, ys, hsl, hxs⟩ := find?_enough hx.find
  have hF : F.inorder = xs ++ x :: ys := hsl
  refine ⟨F, x, h.free, by simp [hF], rfl, hpg, fun y hy hy' => ?_⟩
  rw [hF, mem_append, mem_cons] at hy
  rcases hy with hy | rfl | hy
  · exact absurd (hxs y hy) (UInt64.not_lt.mpr hy')
  · exact UInt64.le_refl _
  · have ho := hs F h.free
    rw [hF, pairwise_append, pairwise_cons] at ho
    exact ho.2.1.1 y hy

/-! ## Runs -/

/-- The operations on an address space, with what `pool_allocate` returns. -/
inductive SpaceOp (ν : Type)
  | insertRange (new : Option ν) (begin end_ : UInt64)
  | allocAddress (new₁ new₂ : Option ν) (pages : UInt64) (high : Bool)
  | allocRange (new₁ new₂ : Option ν) (begin end_ : UInt64)
  | freeAddress (vaddr : UInt64)

def SpaceOp.exec : SpaceOp ν → IndexMap ν → Outcome (IndexMap ν)
  | insertRange new begin end_, vm => do
    let p ← vmInsertRange new begin end_ vm
    pure p.1
  | allocAddress new₁ new₂ pages high, vm => do
    let p ← vmAllocAddress new₁ new₂ pages high vm
    pure p.1
  | allocRange new₁ new₂ begin end_, vm => do
    let p ← vmAllocRange new₁ new₂ begin end_ vm
    pure p.1
  | freeAddress vaddr, vm => do
    let p ← vmFreeAddress vaddr vm
    pure p.1

/-- Ranges do not wrap, the pool returns indices that are not linked, and what is released is in
use. -/
def SpaceOp.Allowed (vm : IndexMap ν) : SpaceOp ν → Prop
  | insertRange new begin end_ => pageOffset begin = 0 ∧ begin ≤ end_ ∧
    end_.toNat + 8191 < 2 ^ 64 ∧ ∀ T, vm.vmIndex.Represents T → ∀ n, new = some n → n ∉ T.inorder
  | allocAddress new₁ new₂ _ _ => ∀ T, vm.vmIndex.Represents T → Fresh new₁ new₂ T
  | allocRange new₁ new₂ begin end_ => begin ≤ end_ ∧ end_.toNat + 8191 < 2 ^ 64 ∧
    ∀ T, vm.vmIndex.Represents T → Fresh new₁ new₂ T
  | freeAddress vaddr => ∀ T, vm.vmIndex.Represents T → ∀ x ∈ T.inorder, vm.Holds x vaddr →
    (vm.vmi x).inUse

def SpaceStep (vm : IndexMap ν) (op : SpaceOp ν) (vm' : IndexMap ν) : Prop :=
  op.Allowed vm ∧ op.exec vm = .ok vm'

/-- **The operation keeps the order.** The last index of the tree, which a high allocation cuts, has
to keep as many pages as those in front of it have, and `vm_alloc_range` has to split the index at
the range in order. -/
def SpaceOp.KeepsOrder (vm : IndexMap ν) : SpaceOp ν → Prop
  | insertRange _ _ _ => True
  | allocAddress _ _ pages high => high = true → ∀ F xs x, vm.vmIndexFree.Represents F →
    F.inorder = xs ++ [x] → pages < (vm.vmi x).vmiSize →
      ∀ y ∈ xs, (vm.vmi y).vmiSize ≤ (vm.vmi x).vmiSize - pages
  | allocRange _ new₂ begin end_ => ∀ T x, vm.vmIndex.Represents T → x ∈ T.inorder →
    ¬ (vm.vmi x).inUse → vm.Holds x (pageFloor begin) →
      (pageRoundup end_).toNat ≤ vm.lo x + vm.len x →
        SplitsInOrder vm x (pageFloor begin) (pageRoundup end_) new₂
  | freeAddress _ => True

def spaceEnd : ℕ := 2 ^ 64 - 8192

/-- The trees are linked, the indices lie on pages, and the free ones are in order. -/
def SpaceInv (vm : IndexMap ν) : Prop :=
  (∃ T F, Linked vm T F ∧ Placed vm T spaceEnd) ∧ SizeOrdered vm

omit [DecidableEq ν] in
theorem addrToPage_pageToAddr {n : UInt64} (h : n.toNat * 8192 < 2 ^ 64) :
    addrToPage (pageToAddr n) = n := by
  rw [← UInt64.toNat_inj, toNat_addrToPage, toNat_pageToAddr, Nat.mod_eq_of_lt h]
  omega

omit [DecidableEq ν] in
theorem front_unique (hF : vm.vmIndexFree.Represents F) {xs ys : List ν}
    (hsl : F.inorder = xs ++ x :: ys) {P : ν → Prop} (hxs : ∀ y ∈ xs, P y) :
    ∀ F' xs' ys', vm.vmIndexFree.Represents F' → F'.inorder = xs' ++ x :: ys' → ∀ y ∈ xs', P y := by
  intro F' xs' ys' hF' hsl'
  obtain rfl := hF.unique hF'
  have hn := hF.nodup
  rw [hsl'] at hn
  have hx := (nodup_cons.mp (nodup_middle.mp hn)).1
  rw [mem_append, not_or] at hx
  obtain ⟨rfl, -, -⟩ := (append_cons_inj_of_notMem hx.1 hx.2).mp (hsl'.symm.trans hsl)
  exact hxs

section AllocAddress

variable {pages : UInt64} (hbn : vm.lo x + vm.len x < 2 ^ 64)
  (hpg : pages ≤ (vm.vmi x).vmiSize) (hF : vm.vmIndexFree.Represents F) {xs ys : List ν}
  (hsl : F.inorder = xs ++ x :: ys) (new₂ : Option ν)
include hbn hpg hF hsl

omit [DecidableEq ν] in
theorem splitsInOrder_low (hx : ∀ y ∈ xs, (vm.vmi y).vmiSize < pages) :
    SplitsInOrder vm x (vm.vmi x).vmiBase ((vm.vmi x).vmiBase + pageToAddr pages) new₂ := by
  have hlen := vm.len_eq x
  rw [UInt64.le_iff_toNat_le] at hpg
  have hk : keptPages vm x (vm.vmi x).vmiBase ((vm.vmi x).vmiBase + pageToAddr pages) =
      pages := by
    rw [keptPages, if_neg (by simp), add_sub_cancel_left, addrToPage_pageToAddr (by omega)]
  refine ⟨front_unique hF hsl fun y hy => ?_, fun hne => absurd rfl hne⟩
  rw [hk]
  exact UInt64.le_of_lt (hx y hy)

omit [DecidableEq ν] in
theorem splitsInOrder_high (hne : (vm.vmi x).vmiSize ≠ pages)
    (hx : ∀ y ∈ xs, (vm.vmi y).vmiSize ≤ (vm.vmi x).vmiSize - pages) :
    SplitsInOrder vm x ((vm.vmi x).vmiBase + pageToAddr ((vm.vmi x).vmiSize - pages))
      ((vm.vmi x).vmiBase + pageToAddr ((vm.vmi x).vmiSize - pages) + pageToAddr pages) new₂ := by
  have hlen := vm.len_eq x
  have hr := UInt64.toNat_sub_of_le _ _ hpg
  rw [UInt64.le_iff_toNat_le] at hpg
  rw [ne_eq, ← UInt64.toNat_inj] at hne
  have hr' : (pageToAddr ((vm.vmi x).vmiSize - pages)).toNat =
      ((vm.vmi x).vmiSize.toNat - pages.toNat) * 8192 := by
    rw [toNat_pageToAddr, hr, Nat.mod_eq_of_lt]
    omega
  have hl : (vm.vmi x).vmiBase + pageToAddr ((vm.vmi x).vmiSize - pages) ≠ (vm.vmi x).vmiBase := by
    rw [ne_eq, UInt64.add_eq_left, ← UInt64.toNat_inj, UInt64.toNat_zero]
    omega
  refine ⟨front_unique hF hsl fun y hy => ?_, fun _ hend => absurd ?_ hend⟩
  · rw [keptPages, if_pos hl, add_sub_cancel_left, addrToPage_pageToAddr (by omega)]
    exact hx y hy
  -- the range ends with the index
  · rw [add_assoc, UInt64.add_right_inj, ← UInt64.toNat_inj, UInt64.toNat_add, hr',
      toNat_pageToAddr, toNat_pageToAddr]
    omega

end AllocAddress

theorem vmAllocAddress_ordered (h : Linked vm T F) (hp : Placed vm T b) (hb : b < 2 ^ 64)
    (hs : SizeOrdered vm) {new₁ new₂ : Option ν} (hn : Fresh new₁ new₂ T) {pages : UInt64}
    {high : Bool} (hk : (SpaceOp.allocAddress new₁ new₂ pages high).KeepsOrder vm) :
    Yields (vmAllocAddress new₁ new₂ pages high vm) fun p => SizeOrdered p.1 := by
  refine (vmAllocAddress_rule (Q := False) h (hp.lt hb) ?_ ?_ ?_).yields
  · exact fun _ => hs
  · intro x hx _
    refine (vmUseIndex_spec h hx.mem hx.free).guarded.mono ?_
    rintro ⟨vm', r⟩ ⟨hr, -, hs', -⟩
    exact ⟨hr, hs' hs⟩
  · intro x start hx ha
    obtain ⟨hpg, xs, ys, hsl, hxs⟩ := find?_enough hx.find
    have hbn := (hp.lt hb x hx.mem).2
    have hin : SplitsInOrder vm x start (start + pageToAddr pages) new₂ := by
      rw [ha.eq]
      cases high with
      | false => exact splitsInOrder_low hbn hpg h.free hsl new₂ hxs
      | true =>
        -- the search goes downwards, so the index found is the last one
        have hF : F.inorder = ys.reverse ++ x :: xs.reverse := by
          rw [← reverse_reverse F.inorder,
            show F.inorder.reverse = xs ++ x :: ys from hsl]
          simp
        have hlt : pages < (vm.vmi x).vmiSize := UInt64.lt_of_le_of_ne hpg (symm ha.more)
        cases xs with
        | nil =>
          refine splitsInOrder_high hbn hpg h.free hF new₂ ha.more fun y hy => ?_
          exact hk rfl F _ x h.free (by simpa using hF) hlt y hy
        | cons z zs =>
          have ho := hs F h.free
          rw [hF, pairwise_append, pairwise_cons] at ho
          have hz := ho.2.1.1 z (by simp)
          exact absurd (hxs z (by simp)) (UInt64.not_lt.mpr (UInt64.le_trans hpg hz))
    have hst := ha.stop
    exact (claimIndex_ordered h hp hb hs hx.mem hn ha.lo_le (by omega) ha.dvd ha.stop_dvd
      fun _ _ => hin).guarded

theorem vmAllocRange_ordered (h : Linked vm T F) (hp : Placed vm T b) (hb : b < 2 ^ 64)
    (hs : SizeOrdered vm) {new₁ new₂ : Option ν} (hn : Fresh new₁ new₂ T) {begin end_ : UInt64}
    (hle : begin ≤ end_) (hw : end_.toNat + 8191 < 2 ^ 64)
    (hk : (SpaceOp.allocRange new₁ new₂ begin end_).KeepsOrder vm) :
    Ensures (vmAllocRange new₁ new₂ begin end_ vm) fun p =>
      (∃ T' F', Linked p.1 T' F' ∧ Placed p.1 T' b) ∧ SizeOrdered p.1 := by
  have hfl := toNat_pageFloor begin
  have hrn := toNat_pageRoundup hw
  rw [UInt64.le_iff_toNat_le] at hle
  refine (vmFindIndex_spec h (pageFloor begin)).bind fun r hr => ?_
  cases r with
  | none => exact .ret ⟨⟨T, F, h, hp⟩, hs⟩
  | some x =>
    obtain ⟨hx, hbs, hh⟩ := hr x rfl
    have hl := UInt64.le_iff_toNat_le.mp hbs
    have hm : (pageFloor begin).toNat ≤ (pageRoundup end_).toNat := by omega
    have hc := claimIndex_claimed h hp hb hx hn hl hm (by omega) (by omega)
    have ho := claimIndex_ordered h hp hb hs hx hn hl hm (by omega) (by omega)
      fun hf hrc => hk T x h.tree hx hf ⟨hbs, hh⟩ hrc
    refine (hc.and ho).mono ?_
    rintro ⟨vm', r⟩ ⟨⟨⟨T', F', hL', hp', -⟩, -⟩, hs'⟩
    exact ⟨⟨T', F', hL', hp'⟩, hs'⟩

theorem SpaceInv.exec (h : SpaceInv vm) {op : SpaceOp ν} (hop : op.Allowed vm)
    (hk : op.KeepsOrder vm) : Ensures (op.exec vm) SpaceInv := by
  obtain ⟨⟨T, F, hL, hp⟩, hs⟩ := h
  have hb : spaceEnd < 2 ^ 64 := by decide
  cases op with
  | insertRange new begin end_ =>
    obtain ⟨ho, hle, hw, hnew⟩ := hop
    rw [SpaceOp.exec, vmInsertRange]
    cases new with
    | none => exact .ret ⟨⟨T, F, hL, hp⟩, hs⟩
    | some n =>
      have hn := hnew T hL.tree n rfl
      rw [bind_assoc]
      refine (vmInsertIndex_spec hL hn _).bind ?_
      rintro ⟨vm', r⟩ ⟨rfl, hv, hs', T', F', hL', hI⟩
      refine .ret ⟨⟨T', F', hL', ?_⟩, hs' hs⟩
      -- the new index ends on the page boundary behind the range
      have hm : begin.toNat % 8192 = 0 := by rw [← toNat_pageOffset, ho]; rfl
      have hsub := UInt64.toNat_sub_of_le _ _ hle
      rw [UInt64.le_iff_toNat_le] at hle
      refine hp.set hv (fun z hz => (hI.1 z).mp hz) (Nat.dvd_of_mod_eq_zero hm) ?_
      dsimp only
      rw [toNat_pageCount _ (by omega), spaceEnd]
      omega
  | allocAddress new₁ new₂ pages high =>
    refine ((vmAllocAddress_claimed hL hp hb (hop T hL.tree) pages high).and
      (vmAllocAddress_ordered hL hp hb hs (hop T hL.tree) hk)).bind ?_
    rintro ⟨vm', r⟩ ⟨⟨⟨T', F', hL', hp', -⟩, -⟩, hs'⟩
    exact .ret ⟨⟨T', F', hL', hp'⟩, hs'⟩
  | allocRange new₁ new₂ begin end_ =>
    exact (vmAllocRange_ordered hL hp hb hs (hop.2.2 T hL.tree) hop.1 hop.2.1 hk).bind
      fun p hp => .ret hp
  | freeAddress vaddr =>
    rw [SpaceOp.exec, vmFreeAddress, bind_assoc]
    refine (vmFindIndex_spec hL vaddr).bind fun r hr => ?_
    cases r with
    | none => exact .ret ⟨⟨T, F, hL, hp⟩, hs⟩
    | some x =>
      obtain ⟨hx, hh⟩ := hr x rfl
      have hu := hop T hL.tree x hx hh
      rw [bind_assoc]
      refine (vmFreeIndex_spec hL hx hu).bind ?_
      rintro vm' ⟨hv, hs', F', hL'⟩
      refine .ret ⟨⟨T, F', hL', ?_⟩, hs' hs⟩
      exact hp.set hv (fun z hz => .inr hz) (hp x hx).1 (hp x hx).2

omit [DecidableEq ν] in
theorem spaceInv_setup (vm₀ : IndexMap ν) : SpaceInv (vmSetup2 vm₀) := by
  have hf : (vmSetup2 vm₀).vmIndexFree.Represents .nil := ⟨rfl, nodup_nil, Nat.zero_le _⟩
  refine ⟨⟨.nil, .nil, ⟨⟨rfl, nodup_nil, Nat.zero_le _⟩, hf, by simp, by simp⟩, ?_⟩, ?_⟩
  · exact nofun
  · exact (sizeOrdered_iff hf).mpr List.Pairwise.nil

/-- **Best fit**: in every state that insertions of ranges, allocations and releases lead to, each
of which keeps the order, `vm_index_free` is in the order of the sizes, and a low allocation returns
the base of a smallest free index with enough pages. -/
theorem free_tree_best_fit {vm₀ : IndexMap ν} {h : List (IndexMap ν × SpaceOp ν)}
    (hr : Run SpaceStep (vmSetup2 vm₀) h vm) (hkeeps : ∀ e ∈ h, e.2.KeepsOrder e.1) :
    (∃ F, vm.vmIndexFree.Represents F ∧
      F.inorder.Pairwise fun x y => (vm.vmi x).vmiSize ≤ (vm.vmi y).vmiSize) ∧
    ∀ new₁ new₂ pages, (SpaceOp.allocAddress new₁ new₂ pages false).Allowed vm →
      Ensures (vmAllocAddress new₁ new₂ pages false vm) fun p =>
        ∀ vaddr, p.2 = .ok vaddr → BestFit vm pages vaddr := by
  have hinv : SpaceInv vm := by
    refine hr.invariant_of_forall (spaceInv_setup vm₀) ?_ hkeeps
    intro vm op vm' hinv hkeeps hst
    exact (hinv.exec hst.1 hkeeps).yields _ hst.2
  obtain ⟨⟨T, F, hL, hp⟩, hs⟩ := hinv
  refine ⟨⟨F, hL.free, hs F hL.free⟩, fun new₁ new₂ pages ho => ?_⟩
  refine (vmAllocAddress_claimed hL hp (by decide) (ho T hL.tree) pages false).mono ?_
  rintro ⟨vm', r⟩ ⟨-, -, hok, -⟩ vaddr hr
  obtain ⟨x, hx⟩ := hok vaddr hr
  rw [hx.low rfl]
  exact hs.bestFit hL hx.toFirstFit

theorem exists_three_four : ∃ vm₁ vm₂ : IndexMap ℕ,
    SpaceStep (vmSetup2 blankIndex) (.insertRange (some 0) 8192 73728) vm₁ ∧
    SpaceStep vm₁ (.allocRange (some 1) (some 2) 32768 40960) vm₂ ∧
    vm₁.vmIndex.Represents (node 0 nil nil) ∧ vm₁.vmIndexFree.Represents (node 0 nil nil) ∧
    ∃ vm, SpaceStep vm₂ (.allocAddress (some 3) (some 4) 2 true) vm ∧
      vm.vmIndexFree.Represents (node 0 nil (node 2 nil nil)) ∧
      vm.vmi 0 = ⟨8192, 3, 0⟩ ∧ vm.vmi 2 = ⟨40960, 2, 0⟩ ∧
      Ensures (vmAllocAddress (some 5) (some 6) 2 false vm) fun p => p.2 = .ok 8192 := by
  have hn : (vmSetup2 blankIndex : IndexMap ℕ).vmIndex.Represents nil := ⟨rfl, by decide, by decide⟩
  refine ⟨_, _, ⟨⟨by decide, by decide, by decide, fun T hT n _ => hn.unique hT ▸ by simp⟩, rfl⟩,
    ⟨⟨by decide, by decide, fun T hT => ?_⟩, rfl⟩, ⟨⟨rfl, rfl, rfl, rfl⟩, by decide, by decide⟩,
    ⟨⟨rfl, rfl, rfl, rfl⟩, by decide, by decide⟩, _, ⟨fun T hT => ?_, rfl⟩,
    ⟨⟨rfl, rfl, rfl, rfl, rfl, rfl, rfl⟩, by decide, by decide⟩, rfl, rfl, _, rfl, rfl⟩
  · obtain rfl : T = node 0 nil nil := hT.unique ⟨⟨rfl, rfl, rfl, rfl⟩, by decide, by decide⟩
    exact ⟨by decide, by decide, by decide⟩
  · obtain rfl : T = node 0 nil (node 1 nil (node 2 nil nil)) :=
      hT.unique ⟨⟨rfl, rfl, rfl, rfl, rfl, rfl, rfl, rfl, rfl, rfl⟩, by decide, by decide⟩
    exact ⟨by decide, by decide, by decide⟩

/-- Eight pages, and an allocation of the fourth. -/
theorem free_tree_best_fit_split : ∃ (h : List (IndexMap ℕ × SpaceOp ℕ)) (vm : IndexMap ℕ),
      Run SpaceStep (vmSetup2 blankIndex) h vm ∧ h.length = 2 ∧ (∀ e ∈ h, e.2.KeepsOrder e.1) ∧
      ∃ F, vm.vmIndexFree.Represents F ∧
        F.inorder.Pairwise fun x y => (vm.vmi x).vmiSize ≤ (vm.vmi y).vmiSize := by
  obtain ⟨vm₁, vm₂, hs₁, hs₂, hT₁, hF₁, -⟩ := exists_three_four
  -- there is no other free index that the one in the first place could come to lie behind
  have hk : (SpaceOp.allocRange (some 1) (some 2) 32768 40960).KeepsOrder vm₁ := by
    intro T x hT hx _ _ _
    obtain rfl := hT₁.unique hT
    obtain rfl := mem_singleton.mp hx
    have hf : (node 0 nil nil).inorder = [] ++ 0 :: [] := rfl
    exact ⟨front_unique hF₁ hf (forall_mem_nil _), by simp⟩
  have hrun : Run SpaceStep (vmSetup2 blankIndex) _ vm₂ := (Run.nil.snoc hs₁).snoc hs₂
  have ha : ∀ e ∈ ([] ++ [(vmSetup2 blankIndex, SpaceOp.insertRange (some 0) 8192 73728)]) ++
      [(vm₁, SpaceOp.allocRange (some 1) (some 2) 32768 40960)], e.2.KeepsOrder e.1 := by
    intro e he
    rcases mem_pair.mp he with rfl | rfl
    · exact trivial
    · exact hk
  exact ⟨_, vm₂, hrun, rfl, ha, (free_tree_best_fit hrun ha).1⟩

/-- **A high allocation breaks the order**: of three and four free pages, two are taken from the end
of the four. The two that are left stay behind the three, and a low allocation of two pages gets the
first two of the three. -/
theorem high_allocation_breaks_order : ∃ (h : List (IndexMap ℕ × SpaceOp ℕ)) (vm : IndexMap ℕ),
      Run SpaceStep (vmSetup2 blankIndex) h vm ∧
      (¬ ∃ F, vm.vmIndexFree.Represents F ∧
        F.inorder.Pairwise fun x y => (vm.vmi x).vmiSize ≤ (vm.vmi y).vmiSize) ∧
      Ensures (vmAllocAddress (some 5) (some 6) 2 false vm) fun p =>
        ∃ vaddr, p.2 = .ok vaddr ∧ ¬ BestFit vm 2 vaddr := by
  obtain ⟨vm₁, vm₂, hs₁, hs₂, -, -, vm, hs₃, hF, hv₀, hv₂, hl⟩ := exists_three_four
  refine ⟨_, vm, ((Run.nil.snoc hs₁).snoc hs₂).snoc hs₃, ?_, hl.mono fun p hp => ⟨_, hp, ?_⟩⟩
  · rintro ⟨F, hF', ho⟩
    obtain rfl := hF.unique hF'
    have hle : (vm.vmi 0).vmiSize ≤ (vm.vmi 2).vmiSize := by simpa using ho
    rw [hv₀, hv₂] at hle
    exact absurd hle (by decide)
  · rintro ⟨F, x, hF', hx, hb, -, hbs⟩
    obtain rfl := hF.unique hF'
    -- the index found has three pages
    have hle := hbs 2 (by simp) (by rw [hv₂]; decide)
    rcases mem_pair.mp hx with rfl | rfl
    · rw [hv₀, hv₂] at hle
      exact absurd hle (by decide)
    · rw [hv₂] at hb
      exact absurd hb (by decide)

end Glatt
