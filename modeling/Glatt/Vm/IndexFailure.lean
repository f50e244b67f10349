import Glatt.Vm.IndexFit

/-!
# What a failed allocation leaves

`vm_claim_range` cuts an index to size before it asks for the indices that take the rest, and has to
put the sizes back when `vm_insert_index` fails. With the leading pages alone, or the trailing
ones alone, the indices are then what they were. With both, the range keeps the index it got and the
trailing pages with it: the boundary between two free indices has moved, and no page has changed
hands. `vm_alloc_address` takes its pages from one end of an index, so it needs one index of the
pool at most, and leaves everything as it was when it fails.

## Main definitions

* `SameHands`: every page is in use or free as before

## Main results

* `claim_range_fails_cleanly`: a range that is not claimed leaves every page in its hands
* `alloc_address_takes`: `vm_alloc_address` succeeds exactly when a free index has enough pages
-/

namespace Glatt

open Imperative BinaryTree Tiling

variable {ι : Type} {vm vm' : IndexMap ι} {T F : BinaryTree ι} {x : ι} {a b : ℕ}

/-- **No page has changed hands**: the same addresses are free and the same in use, and an index in
use is as it was. -/
structure SameHands (vm vm' : IndexMap ι) : Prop where
  free : ∀ w, FreeAt vm' w ↔ FreeAt vm w
  inUse : ∀ w, InUseAt vm' w ↔ InUseAt vm w
  block : ∀ v w, InUseAt vm v → (OneIndex vm' v w ↔ OneIndex vm v w)

theorem SameHands.refl : SameHands vm vm :=
  ⟨fun _ => Iff.rfl, fun _ => Iff.rfl, fun _ _ _ => Iff.rfl⟩

/-! ## Free pages and pages in use -/

section Pages

variable (h : IndexInv a b vm) (hb : b < 2 ^ 64)
include h hb

theorem IndexInv.bounds_of_inUse {w : UInt64} (hw : InUseAt vm w) : a ≤ w.toNat ∧ w.toNat < b := by
  obtain ⟨T, F, hL, ht⟩ := h
  obtain ⟨T', x, hT', hx, -, hc⟩ := hw
  obtain rfl := hL.tree.unique hT'
  exact ht.covers_iff.mp ⟨x, hx, (covers_iff ht hb hx).mp hc⟩

theorem IndexInv.freeAt_iff {w : UInt64} :
    FreeAt vm w ↔ (a ≤ w.toNat ∧ w.toNat < b) ∧ ¬ InUseAt vm w := by
  obtain ⟨T, F, hL, ht⟩ := h
  constructor
  · rintro ⟨T', x, hT', hx, hf, hcov⟩
    obtain rfl := hL.tree.unique hT'
    refine ⟨ht.covers_iff.mp ⟨x, hx, (covers_iff ht hb hx).mp hcov⟩, ?_⟩
    rintro ⟨T₁, y, hT₁, hy, hu, hc⟩
    obtain rfl := hL.tree.unique hT₁
    obtain rfl := eq_of_covers ht hb hx hy hcov hc
    exact hf hu
  · rintro ⟨hw, hf⟩
    obtain ⟨x, hx, hcov⟩ := ht.covers_iff.mpr hw
    have hcov := (covers_iff ht hb hx).mpr hcov
    exact ⟨T, x, hL.tree, hx, fun hu => hf ⟨T, x, hL.tree, hx, hu, hcov⟩, hcov⟩

theorem IndexInv.freeAt_congr (h' : IndexInv a b vm') (hu : ∀ w, InUseAt vm' w ↔ InUseAt vm w)
    (w : UInt64) : FreeAt vm' w ↔ FreeAt vm w := by
  rw [h'.freeAt_iff hb, h.freeAt_iff hb, hu w]

theorem Taken.freeAt (h' : IndexInv a b vm') {vaddr pages : UInt64}
    (ht : Taken vm vm' vaddr pages) :
    (∀ w, Spans vaddr pages w → FreeAt vm w) ∧
      ∀ w, FreeAt vm' w ↔ FreeAt vm w ∧ ¬ Spans vaddr pages w := by
  refine ⟨fun w hw => ?_, fun w => ?_⟩
  · have hu : InUseAt vm' w := (ht.inUse w).mpr (.inr hw)
    exact (h.freeAt_iff hb).mpr ⟨h'.bounds_of_inUse hb hu, ht.free w hw⟩
  · rw [h'.freeAt_iff hb, h.freeAt_iff hb, ht.inUse w]
    tauto

end Pages

theorem sameHands_of_uses {T' F' : BinaryTree ι} (hL : Linked vm T F)
    (ht : Tiles vm.lo vm.len a b T.inorder) (hb : b < 2 ^ 64) (hL' : Linked vm' T' F')
    (ht' : Tiles vm'.lo vm'.len a b T'.inorder) (hk : KeptInUse vm T vm' T')
    (hu : UsesOnly vm T vm' T' none) : SameHands vm vm' := by
  have hs := inUseAt_of_uses hL hL' hk hu
  refine ⟨IndexInv.freeAt_congr ⟨T, F, hL, ht⟩ hb ⟨T', F', hL', ht'⟩ hs, hs, ?_⟩
  rintro v w ⟨T₁, x, hT₁, hx, hus, hcov⟩
  obtain rfl := hL.tree.unique hT₁
  -- the index at `v` is in use
  obtain ⟨hx', hv⟩ := hk x hx hus
  have hcov' : ∀ u, vm'.Covers x u ↔ vm.Covers x u := fun u => by
    rw [IndexMap.Covers, IndexMap.Covers, hv]
  constructor
  · rintro ⟨T₂, y, hT₂, hy, hc, hw⟩
    obtain rfl := hL'.tree.unique hT₂
    obtain rfl := eq_of_covers ht' hb hy hx' hc ((hcov' v).mpr hcov)
    exact ⟨T, y, hL.tree, hx, hcov, (hcov' w).mp hw⟩
  · rintro ⟨T₂, y, hT₂, hy, hc, hw⟩
    obtain rfl := hL.tree.unique hT₂
    obtain rfl := eq_of_covers ht hb hy hx hc hcov
    exact ⟨T', y, hL'.tree, hx', (hcov' v).mpr hcov, (hcov' w).mpr hw⟩

variable [DecidableEq ι]

variable {new₁ new₂ : Option ι}

theorem vmAllocAddress_first (h : Linked vm T F) (hp : Placed vm T b) (hb : b < 2 ^ 64)
    (hnew : Fresh new₁ new₂ T) (h₂ : new₂ ≠ none) (pages : UInt64) :
    Ensures (vmAllocAddress new₁ new₂ pages false vm) fun p =>
      match F.inorder.find? fun x => ¬ (vm.vmi x).vmiSize < pages with
      | none => p = (vm, .error .notImplemented)
      | some x => p.2 = .ok (vm.vmi x).vmiBase := by
  refine (vmAllocAddress_claimed h hp hb hnew pages false).mono ?_
  rintro ⟨vm', r⟩ ⟨-, -, ho, he⟩
  cases r with
  | ok vaddr =>
    obtain ⟨x, hx⟩ := ho vaddr rfl
    rw [show F.inorder.find? _ = some x from hx.find]
    dsimp only
    rw [hx.low rfl]
  | error e =>
    obtain ⟨rfl, ⟨rfl, hr⟩ | ⟨-, hn, -⟩⟩ := he e rfl
    · have hf : (F.inorder.find? fun x => ¬ (vm'.vmi x).vmiSize < pages) = none := by
        refine List.find?_eq_none.mpr fun x hxF hs => hr ?_
        obtain ⟨hx, hfr⟩ := (h.mem_free x).mp hxF
        exact ⟨T, x, h.tree, hx, hfr, by simpa using hs⟩
      rw [hf]
    · exact absurd hn h₂

theorem claimIndex_sameHands (hL : Linked vm T F) (ht : Tiles vm.lo vm.len a b T.inorder)
    (ha : 8192 ∣ a) (hb : b < 2 ^ 64) (hx : x ∈ T.inorder) (hn : Fresh new₁ new₂ T)
    {begin end_ : UInt64} (hbs : (vm.vmi x).vmiBase ≤ begin) (hlt : begin < end_)
    (hbg : 8192 ∣ begin.toNat) (hend : 8192 ∣ end_.toNat) :
    Ensures (vmClaimIndex new₁ new₂ begin end_ x vm) fun p => ∀ e, p.2 = .error e →
      IndexInv a b p.1 ∧ SameHands vm p.1 := by
  have hinv := claimIndex_inv hL ht ha hb hx hn hbs hlt hbg hend
  have hc := claimIndex_claimed hL (placed_of_tiles ht ha) hb hx hn hbs hlt.le hbg hend
  refine (hinv.and hc.yields).mono ?_
  rintro ⟨vm', r⟩ ⟨hinv', ⟨T₁, F₁, hL₁, -, hk, -⟩, hu, -⟩ e rfl
  -- two lemmas about the same call, and one tree behind it
  refine ⟨hinv', ?_⟩
  obtain ⟨T', F', hL', ht'⟩ := hinv'
  obtain rfl := hL₁.tree.unique hL'.tree
  exact sameHands_of_uses hL ht hb hL₁ ht' hk (hu _ hL₁.tree)

/-! ## The interface -/

/-- **A range that is not claimed leaves every page in its hands**, whichever of the two indices
the pool does not have, and the indices tile the same range. The index to split is the one that is
given, or the one that is found at the address. -/
theorem claim_range_fails_cleanly (h : IndexInv a b vm) (ha : 8192 ∣ a) (hb : b < 2 ^ 64)
    (hnew : ∀ T, vm.vmIndex.Represents T → Fresh new₁ new₂ T) {begin end_ : UInt64}
    (hbegin : 8192 ∣ begin.toNat) (hend : 8192 ∣ end_.toNat) (hlt : begin < end_) {vmi : Option ι}
    (hvmi : ∀ x, vmi = some x → ∃ T, vm.vmIndex.Represents T ∧ x ∈ T.inorder ∧ (vm.vmi x).vmiBase ≤
      begin) :
    Ensures (vmClaimRange new₁ new₂ begin end_ vmi vm) fun p => ∀ e, p.2 = .error e →
      IndexInv a b p.1 ∧ SameHands vm p.1 := by
  obtain ⟨T, F, hL, ht⟩ := h
  have hc : ∀ x ∈ T.inorder, (vm.vmi x).vmiBase ≤ begin →
      Ensures (vmClaimIndex new₁ new₂ begin end_ x vm) fun p => ∀ e, p.2 = .error e →
        IndexInv a b p.1 ∧ SameHands vm p.1 := fun x hx hbs =>
    claimIndex_sameHands hL ht ha hb hx (hnew T hL.tree) hbs hlt hbegin hend
  rw [vmClaimRange.eq_def]
  cases vmi with
  | some x =>
    obtain ⟨T', hT', hx, hbs⟩ := hvmi x rfl
    obtain rfl := hL.tree.unique hT'
    exact hc x hx hbs
  | none =>
    refine (vmFindIndex_spec hL begin).bind fun r hr => ?_
    cases r with
    | none => exact .ret fun _ _ => ⟨⟨T, F, hL, ht⟩, .refl⟩
    | some x => exact hc x (hr x rfl).1 (hr x rfl).2.1

/-- A page in the middle of four, with an index for the range and none for the trailing pages: the
call fails, and the leading page has an index of its own. -/
theorem claim_range_fails_cleanly_middle : ∃ vm vm' : IndexMap ℕ,
    vmClaimRange (some 1) none 16384 24576 none vm = .ok (vm', .error .exhausted) ∧
      vm.vmi 0 = ⟨8192, 4, 0⟩ ∧ vm'.vmi 0 = ⟨8192, 1, 0⟩ ∧ IndexInv 8192 40960 vm ∧
      IndexInv 8192 40960 vm' ∧ SameHands vm vm' := by
  obtain ⟨vm, hvm, hT, hv, vm', hc, hv'⟩ : ∃ vm : IndexMap ℕ,
      vmInsertRange (some 0) 8192 40960 (vmSetup2 blankIndex) = .ok (vm, .ok ()) ∧
      vm.vmIndex.Represents (node 0 nil nil) ∧ vm.vmi 0 = ⟨8192, 4, 0⟩ ∧
      ∃ vm', vmClaimRange (some 1) none 16384 24576 none vm = .ok (vm', .error .exhausted) ∧
        vm'.vmi 0 = ⟨8192, 1, 0⟩ :=
    ⟨_, rfl, ⟨⟨rfl, rfl, rfl, rfl⟩, by decide, by decide⟩, rfl, _, rfl, rfl⟩
  obtain ⟨-, -, hinv⟩ := IndexInv.run (by decide) (by decide) (by decide) hvm .nil
  have hn : ∀ T, vm.vmIndex.Represents T → Fresh (some 1) none T := fun T h =>
    hT.unique h ▸ ⟨by decide, by decide, by decide⟩
  have hcl : Ensures (vmClaimRange (some 1) none 16384 24576 none vm) _ :=
    claim_range_fails_cleanly hinv (by decide) (by decide) hn (by decide) (by decide) (by decide)
      nofun
  exact ⟨vm, vm', hc, hv, hv', hinv, hcl.yields _ hc _ rfl⟩

/-- **What `vm_alloc_address` does**, from either end, with an item of the pool at hand. It succeeds
if and only if a free index has as many pages; the pages that it returns were free and are one index
in use, and no other page changes hands. Else nothing changes. -/
theorem alloc_address_takes (h : IndexInv a b vm) (ha : 8192 ∣ a) (hb : b < 2 ^ 64)
    (hnew : ∀ T, vm.vmIndex.Represents T → Fresh new₁ new₂ T) (h₁ : new₁ ≠ none) (h₂ : new₂ ≠ none)
    {pages : UInt64} (hpages : 1 ≤ pages) (high : Bool) :
    Ensures (vmAllocAddress new₁ new₂ pages high vm) fun p => IndexInv a b p.1 ∧
      ((∃ vaddr, p.2 = .ok vaddr) ↔ HasRoom vm pages) ∧
      (∀ vaddr, p.2 = .ok vaddr → Taken vm p.1 vaddr pages ∧
        (∀ w, Spans vaddr pages w → FreeAt vm w) ∧
        ∀ w, FreeAt p.1 w ↔ FreeAt vm w ∧ ¬ Spans vaddr pages w) ∧
      ∀ e, p.2 = .error e → p.1 = vm := by
  refine (h.allocAddress_taken ha hb hnew hpages high).mono ?_
  rintro ⟨vm', r⟩ ⟨hinv', ho, he⟩
  refine ⟨hinv', ⟨fun ⟨vaddr, hr⟩ => (ho vaddr hr).2, fun hrm => ?_⟩, fun vaddr hr => ?_,
    fun e hr => (he e hr).1⟩
  · cases r with
    | ok vaddr => exact ⟨vaddr, rfl⟩
    | error e =>
      -- the two errors: there is no room, or the pool is empty
      obtain ⟨-, ⟨-, hno⟩ | ⟨-, -, hn⟩⟩ := he e rfl
      · exact absurd hrm hno
      · cases high with
        | true => exact absurd hn h₁
        | false => exact absurd hn h₂
  · obtain ⟨hs, -⟩ := ho vaddr hr
    exact ⟨hs, hs.freeAt h hb hinv'⟩

/-- Two of four pages from the high end. -/
theorem alloc_address_takes_high : ∃ vm vm' : IndexMap ℕ,
    vmAllocAddress (some 1) (some 2) 2 true vm = .ok (vm', .ok 24576) ∧ IndexInv 8192 40960 vm ∧
      Taken vm vm' 24576 2 ∧ FreeAt vm 24576 ∧ ¬ FreeAt vm' 24576 := by
  obtain ⟨vm, hvm, hT, vm', ha⟩ : ∃ vm : IndexMap ℕ,
      vmInsertRange (some 0) 8192 40960 (vmSetup2 blankIndex) = .ok (vm, .ok ()) ∧
      vm.vmIndex.Represents (node 0 nil nil) ∧
      ∃ vm', vmAllocAddress (some 1) (some 2) 2 true vm = .ok (vm', .ok 24576) :=
    ⟨_, rfl, ⟨⟨rfl, rfl, rfl, rfl⟩, by decide, by decide⟩, _, rfl⟩
  obtain ⟨-, -, hinv⟩ := IndexInv.run (by decide) (by decide) (by decide) hvm .nil
  have hn : ∀ T, vm.vmIndex.Represents T → Fresh (some 1) (some 2) T := fun T h =>
    hT.unique h ▸ ⟨by decide, by decide, by decide⟩
  obtain ⟨-, -, ho, -⟩ := (alloc_address_takes hinv (by decide) (by decide) hn (by decide)
    (by decide) (by decide) true).yields _ ha
  obtain ⟨ht, hf, hf'⟩ := ho 24576 rfl
  have hs : Spans 24576 2 24576 := ⟨le_rfl, by decide⟩
  exact ⟨vm, vm', ha, hinv, ht, hf _ hs, fun h => ((hf' _).mp h).2 hs⟩

end Glatt
