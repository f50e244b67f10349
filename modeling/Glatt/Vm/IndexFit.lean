import Glatt.Vm.IndexUse

/-!
# What an allocation depends on

Whether an allocation succeeds, when the pool has indices to give. `vm_alloc_range` succeeds if its
pages lie in one free index, and `vm_alloc_address` if one free index has as many pages. A release
does not merge its index with free neighbours, so this is more than the pages being free: it is the
same just where no two neighbouring indices are free.

## Main definitions

* `Merged`: no two neighbouring indices are free
* `ServesFree`: requests are served by the free pages

## Main results

* `alloc_by_free_pages`: requests depend on the free pages alone exactly where neighbours are merged
* `freed_neighbours_not_served`: two released neighbours cannot be allocated as one range
-/

namespace Glatt

open Imperative BinaryTree Tiling Transition

variable {ι : Type} {vm vm' : IndexMap ι} {T F : BinaryTree ι} {x : ι} {a b : ℕ}

/-- The address lies in a free index. -/
def FreeAt (index : IndexMap ι) (w : UInt64) : Prop :=
  ∃ T x, index.vmIndex.Represents T ∧ x ∈ T.inorder ∧ ¬ (index.vmi x).inUse ∧ index.Covers x w

/-- No free index ends where another free index begins. -/
def Merged (index : IndexMap ι) : Prop :=
  ∀ T, index.vmIndex.Represents T → ∀ x ∈ T.inorder, ∀ y ∈ T.inorder,
    ¬ (index.vmi x).inUse → ¬ (index.vmi y).inUse →
      (index.vmi x).vmiBase + pageToAddr (index.vmi x).vmiSize ≠ (index.vmi y).vmiBase

def FreePages (index : IndexMap ι) (pages : UInt64) : Prop :=
  ∃ vaddr : UInt64, 8192 ∣ vaddr.toNat ∧ vaddr.toNat + pages.toNat * 8192 ≤ 2 ^ 64 ∧
    ∀ w, Spans vaddr pages w → FreeAt index w

def RangeFree (index : IndexMap ι) (begin end_ : UInt64) : Prop :=
  ∀ w, pageFloor begin ≤ w → w < pageRoundup end_ → FreeAt index w

/-- The arguments of `vm_alloc_range` are a range: it is not empty, and rounding its end up does
not wrap. -/
def RangeRequest (begin end_ : UInt64) : Prop := begin < end_ ∧ end_.toNat + 8191 < 2 ^ 64

/-! ## Free pages and free indices -/

theorem freeAt_iff_of_represents (hT : vm.vmIndex.Represents T) {w : UInt64} :
    FreeAt vm w ↔ ∃ x ∈ T.inorder, ¬ (vm.vmi x).inUse ∧ vm.Covers x w := by
  constructor
  · rintro ⟨T', x, hT', hx⟩
    obtain rfl := hT.unique hT'
    exact ⟨x, hx⟩
  · rintro ⟨x, hx⟩
    exact ⟨T, x, hT, hx⟩

section Tiles

variable (hL : Linked vm T F) (ht : Tiles vm.lo vm.len a b T.inorder) (hb : b < 2 ^ 64)
include hL ht hb

theorem freeAt_iff {w : UInt64} : FreeAt vm w ↔
    ∃ x ∈ T.inorder, ¬ (vm.vmi x).inUse ∧ vm.lo x ≤ w.toNat ∧ w.toNat < vm.lo x + vm.len x := by
  rw [freeAt_iff_of_represents hL.tree]
  exact exists_congr fun x => and_congr_right fun hx =>
    and_congr_right fun _ => covers_iff ht hb hx

theorem merged_iff : Merged vm ↔ ∀ x ∈ T.inorder, ∀ y ∈ T.inorder, ¬ (vm.vmi x).inUse →
    ¬ (vm.vmi y).inUse → vm.lo x + vm.len x ≠ vm.lo y := by
  have hend : ∀ x ∈ T.inorder, ∀ y, (vm.vmi x).vmiBase + pageToAddr (vm.vmi x).vmiSize =
      (vm.vmi y).vmiBase ↔ vm.lo x + vm.len x = vm.lo y := by
    intro x hx y
    have hbn := ht.bounds hx
    rw [← UInt64.toNat_inj, (toNat_reach (by omega)).2, IndexMap.lo, IndexMap.lo]
  constructor
  · intro h x hx y hy hf hfy
    exact fun heq => h T hL.tree x hx y hy hf hfy ((hend x hx y).mpr heq)
  · intro h T' hT' x hx y hy hf hfy heq
    obtain rfl := hL.tree.unique hT'
    exact h x hx y hy hf hfy ((hend x hx y).mp heq)

theorem Merged.one_index (hm : Merged vm) {p q : ℕ} (hp : p < q) (hq : q ≤ 2 ^ 64)
    (hf : ∀ w : UInt64, p ≤ w.toNat → w.toNat < q → FreeAt vm w) :
    ∃ x ∈ T.inorder, ¬ (vm.vmi x).inUse ∧ vm.lo x ≤ p ∧ q ≤ vm.lo x + vm.len x := by
  -- every number below `q` is an address, and lies in an index if it is at least `p`
  have hat : ∀ n, p ≤ n → n < q → ∃ x ∈ T.inorder, ¬ (vm.vmi x).inUse ∧ vm.lo x ≤ n ∧
      n < vm.lo x + vm.len x := by
    intro n hpn hnq
    have hn : (UInt64.ofNat n).toNat = n := UInt64.toNat_ofNat_of_lt' (show n < 2 ^ 64 by omega)
    have := (freeAt_iff hL ht hb).mp (hf (UInt64.ofNat n) (by omega) (by omega))
    rwa [hn] at this
  obtain ⟨x, hx, hfx, hlo, hlt⟩ := hat p (by omega) hp
  refine ⟨x, hx, hfx, hlo, ?_⟩
  by_contra hs
  -- the index behind `x` is free as well, and begins where `x` ends
  obtain ⟨y, hy, hfy, hl, hlty⟩ := hat (vm.lo x + vm.len x) (by omega) (by omega)
  refine (merged_iff hL ht hb).mp hm x hx y hy hfx hfy ?_
  by_contra hne
  obtain rfl := ht.eq_of_covers (n := vm.lo x + vm.len x - 1) hx hy ⟨by omega, by omega⟩
    ⟨by omega, by omega⟩
  omega

end Tiles

/-! ## Requests -/

variable [DecidableEq ι]

/-- `vm_alloc_range` succeeds, with the indices the pool has to give. -/
def RangeServed (vm : IndexMap ι) (n₁ n₂ : ι) (begin end_ : UInt64) : Prop :=
  Ensures (vmAllocRange (some n₁) (some n₂) begin end_ vm) fun p => p.2 = .ok ()

/-- `vm_alloc_address` succeeds, with the indices the pool has to give. -/
def AddressServed (vm : IndexMap ι) (n₁ n₂ : ι) (pages : UInt64) (high : Bool) : Prop :=
  Ensures (vmAllocAddress (some n₁) (some n₂) pages high vm) fun p => ∃ vaddr, p.2 = .ok vaddr

/-- **Requests are served by the free pages alone**: a range exactly when its pages are free, and a
number of pages whenever as many are free in a row. -/
structure ServesFree (vm : IndexMap ι) (n₁ n₂ : ι) : Prop where
  range : ∀ begin end_, RangeRequest begin end_ →
    (RangeServed vm n₁ n₂ begin end_ ↔ RangeFree vm begin end_)
  address : ∀ pages high, 1 ≤ pages → FreePages vm pages → AddressServed vm n₁ n₂ pages high

/-- The indices the pool has to give are not linked, and not the same. -/
def PoolHas (vm : IndexMap ι) (n₁ n₂ : ι) : Prop :=
  ∀ T, vm.vmIndex.Represents T → Fresh (some n₁) (some n₂) T

section Requests

variable {n₁ n₂ : ι} (hL : Linked vm T F) (ht : Tiles vm.lo vm.len a b T.inorder) (ha : 8192 ∣ a)
  (hb : b < 2 ^ 64) (hn : PoolHas vm n₁ n₂)
include hL ht ha hb hn

theorem rangeServed_iff {begin end_ : UInt64} (hreq : RangeRequest begin end_) :
    RangeServed vm n₁ n₂ begin end_ ↔ ∃ x ∈ T.inorder, ¬ (vm.vmi x).inUse ∧
      vm.lo x ≤ (pageFloor begin).toNat ∧ (pageRoundup end_).toNat ≤ vm.lo x + vm.len x := by
  obtain ⟨hlt, hw⟩ := hreq
  rw [UInt64.lt_iff_toNat_lt] at hlt
  have hfl := toNat_pageFloor begin
  have hrn := toNat_pageRoundup hw
  have hc : ∀ x ∈ T.inorder, vm.lo x ≤ (pageFloor begin).toNat →
      Ensures (vmClaimIndex (some n₁) (some n₂) (pageFloor begin) (pageRoundup end_) x vm) _ :=
    fun x hx hl => claimIndex_claimed hL (placed_of_tiles ht ha) hb hx (hn T hL.tree) hl
      (by omega) (by omega) (by omega)
  rw [RangeServed, vmAllocRange, vmClaimRange]
  constructor
  · intro hs
    obtain ⟨r, hfn, hr⟩ := vmFindIndex_spec hL (pageFloor begin)
    rw [hfn] at hs
    cases r with
    | none => cases ensures_pure.mp hs
    | some x =>
      obtain ⟨hx, hbs, -⟩ := hr x rfl
      have hl := UInt64.le_iff_toNat_le.mp hbs
      obtain ⟨p, hp, ho⟩ := hs
      obtain ⟨-, -, hwhy, -⟩ := (hc x hx hl).yields p hp
      obtain ⟨hf, hrc, -⟩ := hwhy ho
      exact ⟨x, hx, hf, hl, hrc⟩
  · rintro ⟨x, hx, hf, hl, hrc⟩
    have hcov : vm.Covers x (pageFloor begin) := (covers_iff ht hb hx).mpr ⟨hl, by omega⟩
    rw [vmFindIndex_covers ht hb hL hx hcov]
    refine (hc x hx hl).mono ?_
    rintro ⟨vm', r⟩ ⟨-, -, -, he⟩
    cases r with
    | ok u => rfl
    | error e =>
      cases he e rfl with
      | used hu => exact absurd hu hf
      | short hsh => omega
      | leader _ h | trailer _ _ h | both _ _ _ h => cases h

theorem rangeFree_of_served {begin end_ : UInt64} (hreq : RangeRequest begin end_)
    (hs : RangeServed vm n₁ n₂ begin end_) : RangeFree vm begin end_ := by
  obtain ⟨x, hx, hf, hl, hr⟩ := (rangeServed_iff hL ht ha hb hn hreq).mp hs
  intro w hw hw'
  rw [UInt64.le_iff_toNat_le] at hw
  rw [UInt64.lt_iff_toNat_lt] at hw'
  exact (freeAt_iff hL ht hb).mpr ⟨x, hx, hf, by omega, by omega⟩

theorem Merged.servesFree (hm : Merged vm) : ServesFree vm n₁ n₂ := by
  refine ⟨fun begin end_ hreq => ⟨rangeFree_of_served hL ht ha hb hn hreq, fun hf => ?_⟩, ?_⟩
  · have hfl := toNat_pageFloor begin
    have hrn := toNat_pageRoundup hreq.2
    have hlt := UInt64.lt_iff_toNat_lt.mp hreq.1
    refine (rangeServed_iff hL ht ha hb hn hreq).mpr ?_
    refine hm.one_index hL ht hb (by omega) (pageRoundup end_).toNat_lt.le fun w hw hw' => ?_
    exact hf w (UInt64.le_iff_toNat_le.mpr hw) (UInt64.lt_iff_toNat_lt.mpr hw')
  · rintro pages high hp ⟨vaddr, -, hwr, hf⟩
    have hpos := UInt64.le_iff_toNat_le.mp hp
    rw [UInt64.toNat_one] at hpos
    -- the free pages lie in one index, so it has as many pages
    obtain ⟨x, hx, hfx, hl, hr⟩ := hm.one_index hL ht hb
      (by omega) hwr fun w hw hw' => hf w ⟨hw, hw'⟩
    have hrm : HasRoom vm pages := by
      refine ⟨T, x, hL.tree, hx, hfx, UInt64.le_iff_toNat_le.mpr ?_⟩
      simp only [IndexMap.len] at hr
      omega
    refine (IndexInv.allocAddress_taken ⟨T, F, hL, ht⟩ ha hb hn hp high).mono ?_
    rintro ⟨vm', r⟩ ⟨-, -, he⟩
    cases r with
    | ok vaddr => exact ⟨vaddr, rfl⟩
    | error e =>
      rcases (he e rfl).2 with ⟨-, h⟩ | ⟨-, -, h⟩
      · exact absurd hrm h
      · split at h <;> cases h

theorem ServesFree.merged (h : ServesFree vm n₁ n₂) : Merged vm := by
  refine (merged_iff hL ht hb).mpr fun x hx y hy hf hfy heq => ?_
  have hbx := ht.bounds hx
  have hby := ht.bounds hy
  have hd : 8192 ∣ (vm.vmi x).vmiBase.toNat := ht.dvd ha (fun _ _ => Nat.dvd_mul_left 8192 _) hx
  have hdy : 8192 ∣ vm.lo y + vm.len y :=
    Nat.dvd_add (ht.dvd ha (fun _ _ => Nat.dvd_mul_left 8192 _) hy) (Nat.dvd_mul_left 8192 _)
  obtain ⟨end_, hend⟩ : ∃ end_ : UInt64, end_.toNat = vm.lo y + vm.len y :=
    ⟨_, UInt64.toNat_ofNat_of_lt' (show vm.lo y + vm.len y < 2 ^ 64 by omega)⟩
  have hlo : (vm.vmi x).vmiBase.toNat = vm.lo x := rfl
  have hreq : RangeRequest (vm.vmi x).vmiBase end_ := by
    refine ⟨UInt64.lt_iff_toNat_lt.mpr (by omega), by omega⟩
  have hs : RangeServed vm n₁ n₂ (vm.vmi x).vmiBase end_ := by
    refine (h.range _ _ hreq).mpr fun w hw hw' => (freeAt_iff hL ht hb).mpr ?_
    rw [pageFloor_eq_self hd, UInt64.le_iff_toNat_le] at hw
    rw [pageRoundup_eq_self (hend ▸ hdy), UInt64.lt_iff_toNat_lt] at hw'
    by_cases hwx : w.toNat < vm.lo x + vm.len x
    · exact ⟨x, hx, hf, by omega, hwx⟩
    · exact ⟨y, hy, hfy, by omega, by omega⟩
  -- the index that serves the range covers the base of `x`, so it is `x`, which is too short
  obtain ⟨z, hz, -, hl, hr⟩ := (rangeServed_iff hL ht ha hb hn hreq).mp hs
  rw [pageFloor_eq_self hd] at hl
  rw [pageRoundup_eq_self (hend ▸ hdy)] at hr
  obtain rfl := ht.eq_of_covers (n := vm.lo x) hx hz ⟨by omega, by omega⟩ ⟨by omega, by omega⟩
  omega

end Requests

omit [DecidableEq ι] in
theorem IndexInv.freeAt_iff_of_unused (h : IndexInv a b vm) (hb : b < 2 ^ 64)
    (hT : vm.vmIndex.Represents T) (hf : ∀ x ∈ T.inorder, ¬ (vm.vmi x).inUse) (w : UInt64) :
    FreeAt vm w ↔ a ≤ w.toNat ∧ w.toNat < b := by
  obtain ⟨T', F, hL, ht⟩ := h
  obtain rfl := hL.tree.unique hT
  rw [freeAt_iff hL ht hb, ← ht.covers_iff]
  exact exists_congr fun x => and_congr_right fun hx => and_iff_right (hf x hx)

theorem IndexInv.servesFree_iff (h : IndexInv a b vm) (ha : 8192 ∣ a) (hb : b < 2 ^ 64) {n₁ n₂ : ι}
    (hn : PoolHas vm n₁ n₂) : ServesFree vm n₁ n₂ ↔ Merged vm := by
  obtain ⟨T, F, hL, ht⟩ := h
  exact ⟨fun h => h.merged hL ht ha hb hn, fun h => h.servesFree hL ht ha hb hn⟩

/-- **Allocation and the free pages**: take two histories of allocations and releases on address
spaces with the same first range that end with the same free pages. Requests are served by the free
pages alone in both, and then alike in both, exactly if no two neighbouring indices are free in
either. -/
theorem alloc_by_free_pages {begin end_ : UInt64} (hbegin : pageOffset begin = 0)
    (hlt : begin < end_) (hend : end_.toNat + 8191 < 2 ^ 64) {vm₀ vm₁ vm₀' vm₁' : IndexMap ι}
    {new new' : Option ι} (h₁ : vmInsertRange new begin end_ (vmSetup2 vm₀) = .ok (vm₁, .ok ()))
    (h₁' : vmInsertRange new' begin end_ (vmSetup2 vm₀') = .ok (vm₁', .ok ()))
    {h h' : List (IndexMap ι × IndexOp ι)} (hr : Run IndexStep vm₁ h vm)
    (hr' : Run IndexStep vm₁' h' vm') (hsame : ∀ w, FreeAt vm w ↔ FreeAt vm' w) {n₁ n₂ n₁' n₂' : ι}
    (hn : PoolHas vm n₁ n₂) (hn' : PoolHas vm' n₁' n₂') :
    ((∀ b e, RangeRequest b e → (RangeServed vm n₁ n₂ b e ↔ RangeServed vm' n₁' n₂' b e)) ∧
      ServesFree vm n₁ n₂ ∧ ServesFree vm' n₁' n₂') ↔ Merged vm ∧ Merged vm' := by
  obtain ⟨ha, hb, hinv⟩ := IndexInv.run hbegin hlt hend h₁ hr
  obtain ⟨-, -, hinv'⟩ := IndexInv.run hbegin hlt hend h₁' hr'
  rw [hinv.servesFree_iff ha hb hn, hinv'.servesFree_iff ha hb hn']
  refine ⟨fun h => h.2, fun hm => ⟨fun b e hreq => ?_, hm⟩⟩
  have hs := (hinv.servesFree_iff ha hb hn).mpr hm.1
  have hs' := (hinv'.servesFree_iff ha hb hn').mpr hm.2
  have hf : RangeFree vm b e ↔ RangeFree vm' b e :=
    forall_congr' fun w => imp_congr_right fun _ => imp_congr_right fun _ => hsame w
  rw [hs.range b e hreq, hs'.range b e hreq, hf]

/-- Two histories of an address space of two pages: the first page is allocated; or both are, and
the second is released. -/
theorem alloc_by_free_pages_two : ∃ vm₁ vm₂ vm₃ vm₄ : IndexMap ℕ,
      vmInsertRange (some 0) 8192 24576 (vmSetup2 blankIndex) = .ok (vm₁, .ok ()) ∧
      IndexStep vm₁ (.allocAddress (some 1) (some 2) 1 false) vm₂ ∧
      IndexStep vm₂ (.allocAddress (some 3) (some 4) 1 false) vm₃ ∧
      IndexStep vm₃ (.freeAddress 16384) vm₄ ∧ ServesFree vm₂ 3 4 ∧ ServesFree vm₄ 3 4 := by
  let T : BinaryTree ℕ := node 0 nil (node 2 nil nil)
  obtain ⟨vm₁, vm₂, vm₃, vm₄, h₁, hs₁, hs₂, hs₃, hT₂, hT₄, hv₀, hv₂, h0, h2⟩ :
      ∃ vm₁ vm₂ vm₃ vm₄ : IndexMap ℕ,
        vmInsertRange (some 0) 8192 24576 (vmSetup2 blankIndex) = .ok (vm₁, .ok ()) ∧
        IndexStep vm₁ (.allocAddress (some 1) (some 2) 1 false) vm₂ ∧
        IndexStep vm₂ (.allocAddress (some 3) (some 4) 1 false) vm₃ ∧
        IndexStep vm₃ (.freeAddress 16384) vm₄ ∧ vm₂.vmIndex.Represents T ∧
        vm₄.vmIndex.Represents T ∧ vm₄.vmi 0 = vm₂.vmi 0 ∧ vm₄.vmi 2 = vm₂.vmi 2 ∧
        (vm₂.vmi 0).inUse ∧ vm₂.vmi 2 = ⟨16384, 1, 0⟩ := by
    refine ⟨_, _, _, _, rfl, ⟨⟨by decide, fun T' hT' => ?_⟩, rfl⟩,
      ⟨⟨by decide, fun T' hT' => ?_⟩, rfl⟩,
      ⟨⟨T, 2, ⟨⟨rfl, rfl, rfl, rfl, rfl, rfl, rfl⟩, by decide, by decide⟩, by decide,
        by decide +kernel, by decide +kernel, by decide +kernel⟩, rfl⟩,
      ⟨⟨rfl, rfl, rfl, rfl, rfl, rfl, rfl⟩, by decide, by decide⟩,
      ⟨⟨rfl, rfl, rfl, rfl, rfl, rfl, rfl⟩, by decide, by decide⟩, rfl, rfl,
      by decide +kernel, rfl⟩
    · obtain rfl : T' = node 0 nil nil := hT'.unique ⟨⟨rfl, rfl, rfl, rfl⟩, by decide, by decide⟩
      exact ⟨by decide, by decide, by decide⟩
    · obtain rfl : T' = T := hT'.unique ⟨⟨rfl, rfl, rfl, rfl, rfl, rfl, rfl⟩, by decide, by decide⟩
      exact ⟨by decide, by decide, by decide⟩
  have hn : ∀ vm : IndexMap ℕ, vm.vmIndex.Represents T → PoolHas vm 3 4 := fun vm h T' h' => by
    obtain rfl := h.unique h'
    exact ⟨by decide, by decide, by decide⟩
  have hv : ∀ x ∈ T.inorder, vm₄.vmi x = vm₂.vmi x := by
    intro x hx
    obtain rfl | rfl : x = 0 ∨ x = 2 := by simpa [T] using hx
    · exact hv₀
    · exact hv₂
  have hf : ∀ w, FreeAt vm₂ w ↔ FreeAt vm₄ w := fun w =>
    (freeAt_iff_of_represents hT₂).trans (.trans (exists_congr fun x => and_congr_right fun hx => by
      rw [IndexMap.Covers, IndexMap.Covers, hv x hx]) (freeAt_iff_of_represents hT₄).symm)
  -- in both, the index at 8192 is in use, and the other one ends where the range does
  have hm : ∀ vm : IndexMap ℕ, vm.vmIndex.Represents T → (∀ x ∈ T.inorder, vm.vmi x = vm₂.vmi x) →
      Merged vm := by
    intro vm h hs T' h' x hx y hy hfx hfy
    obtain rfl := h.unique h'
    rw [hs x hx] at hfx ⊢
    rw [hs y hy] at hfy ⊢
    obtain rfl | rfl : x = 0 ∨ x = 2 := by simpa [T] using hx
    · exact absurd h0 hfx
    obtain rfl | rfl : y = 0 ∨ y = 2 := by simpa [T] using hy
    · exact absurd h0 hfy
    rw [h2]
    decide
  obtain ⟨-, hs₂', hs₄'⟩ := (alloc_by_free_pages (by decide) (by decide) (by decide) h₁ h₁
    (Run.nil.snoc hs₁) (((Run.nil.snoc hs₁).snoc hs₂).snoc hs₃) hf (hn _ hT₂) (hn _ hT₄)).mpr
      ⟨hm _ hT₂ fun _ _ => rfl, hm _ hT₄ hv⟩
  exact ⟨vm₁, vm₂, vm₃, vm₄, h₁, hs₁, hs₂, hs₃, hs₂', hs₄'⟩

/-- **Freed neighbours stay apart**: two pages are allocated one by one, and released. The same
pages are free as before, but the two are not to be had any more, as a range or by their number. -/
theorem freed_neighbours_not_served : ∃ (vm₁ vm : IndexMap ℕ) (h : List (IndexMap ℕ × IndexOp ℕ)),
      vmInsertRange (some 0) 8192 24576 (vmSetup2 blankIndex) = .ok (vm₁, .ok ()) ∧
      Run IndexStep vm₁ h vm ∧ (∀ w, FreeAt vm w ↔ FreeAt vm₁ w) ∧
      RangeServed vm₁ 3 4 8192 24576 ∧ AddressServed vm₁ 3 4 2 false ∧
      RangeFree vm 8192 24576 ∧ ¬ RangeServed vm 3 4 8192 24576 ∧
      FreePages vm 2 ∧ ¬ AddressServed vm 3 4 2 false := by
  -- from the first allocation on, the second page has an index of its own
  let T : BinaryTree ℕ := node 0 nil (node 2 nil nil)
  obtain ⟨vm₁, vm₂, vm₃, vm₄, vm, h₁, hs₁, hs₂, hs₃, hs₄, hT₁, hv₁, hr₁, ha₁, hT, hv, hr, ha⟩ :
      ∃ vm₁ vm₂ vm₃ vm₄ vm : IndexMap ℕ,
        vmInsertRange (some 0) 8192 24576 (vmSetup2 blankIndex) = .ok (vm₁, .ok ()) ∧
        IndexStep vm₁ (.allocAddress (some 1) (some 2) 1 false) vm₂ ∧
        IndexStep vm₂ (.allocAddress (some 3) (some 4) 1 false) vm₃ ∧
        IndexStep vm₃ (.freeAddress 8192) vm₄ ∧ IndexStep vm₄ (.freeAddress 16384) vm ∧
        vm₁.vmIndex.Represents (node 0 nil nil) ∧ (∀ x ∈ [0], ¬ (vm₁.vmi x).inUse) ∧
        RangeServed vm₁ 3 4 8192 24576 ∧ AddressServed vm₁ 3 4 2 false ∧
        vm.vmIndex.Represents T ∧ (∀ x ∈ [0, 2], ¬ (vm.vmi x).inUse) ∧
        vmAllocRange (some 3) (some 4) 8192 24576 vm = .ok (vm, .error .notImplemented) ∧
        vmAllocAddress (some 3) (some 4) 2 false vm = .ok (vm, .error .notImplemented) := by
    refine ⟨_, _, _, _, _, rfl, ⟨⟨by decide, fun T' hT' => ?_⟩, rfl⟩,
      ⟨⟨by decide, fun T' hT' => ?_⟩, rfl⟩,
      ⟨⟨T, 0, ⟨⟨rfl, rfl, rfl, rfl, rfl, rfl, rfl⟩, by decide, by decide⟩, by decide,
        by decide +kernel, by decide +kernel, by decide +kernel⟩, rfl⟩,
      ⟨⟨T, 2, ⟨⟨rfl, rfl, rfl, rfl, rfl, rfl, rfl⟩, by decide, by decide⟩, by decide,
        by decide +kernel, by decide +kernel, by decide +kernel⟩, rfl⟩,
      ⟨⟨rfl, rfl, rfl, rfl⟩, by decide, by decide⟩, by decide +kernel, ⟨_, rfl, rfl⟩,
      ⟨_, rfl, _, rfl⟩, ⟨⟨rfl, rfl, rfl, rfl, rfl, rfl, rfl⟩, by decide, by decide⟩,
      by decide +kernel, rfl, rfl⟩
    · obtain rfl : T' = node 0 nil nil := hT'.unique ⟨⟨rfl, rfl, rfl, rfl⟩, by decide, by decide⟩
      exact ⟨by decide, by decide, by decide⟩
    · obtain rfl : T' = T := hT'.unique ⟨⟨rfl, rfl, rfl, rfl, rfl, rfl, rfl⟩, by decide, by decide⟩
      exact ⟨by decide, by decide, by decide⟩
  have hrun : Run IndexStep vm₁ _ vm := (((Run.nil.snoc hs₁).snoc hs₂).snoc hs₃).snoc hs₄
  obtain ⟨-, hb, hinv₁⟩ := IndexInv.run (by decide) (by decide) (by decide) h₁ .nil
  obtain ⟨-, -, hinv⟩ := IndexInv.run (by decide) (by decide) (by decide) h₁ hrun
  -- nothing is in use, so every page of the range is free
  have hf : ∀ w, FreeAt vm w ↔ 8192 ≤ w.toNat ∧ w.toNat < 24576 :=
    hinv.freeAt_iff_of_unused hb hT hv
  have hf₁ : ∀ w, FreeAt vm₁ w ↔ 8192 ≤ w.toNat ∧ w.toNat < 24576 :=
    hinv₁.freeAt_iff_of_unused hb hT₁ hv₁
  refine ⟨vm₁, vm, _, h₁, hrun, fun w => (hf w).trans (hf₁ w).symm, hr₁, ha₁, ?_, ?_, ?_, ?_⟩
  · intro w hw hw'
    exact (hf w).mpr ⟨UInt64.le_iff_toNat_le.mp hw, UInt64.lt_iff_toNat_lt.mp hw'⟩
  · rintro ⟨p, hp, ho⟩
    obtain rfl := Except.ok.inj (hr.symm.trans hp)
    cases ho
  · exact ⟨8192, by decide, by decide, fun w hw => (hf w).mpr hw⟩
  · rintro ⟨p, hp, vaddr, ho⟩
    obtain rfl := Except.ok.inj (ha.symm.trans hp)
    cases ho

end Glatt
