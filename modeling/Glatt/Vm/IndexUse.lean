import Glatt.Vm.IndexPlaces

/-!
# Addresses in use

Which addresses are in use after an allocation, and which after a release. The indices tile the
address space, so an address lies in one index only: an allocation takes a range of pages of which
none was in use, and the range becomes an index of its own; a release gives back all of the index at
an address. No other address changes hands, whether the call succeeds or not.

## Main definitions

* `InUseAt`: an address is in use
* `Taken`: pages that have become an index of their own

## Main results

* `IndexInv.allocAddress_taken`: an allocation takes a range, or changes nothing
* `IndexInv.allocRange_taken`, `IndexInv.allocRange_inUse`: a range can be taken once
* `IndexInv.freeAddress_given`: a release gives back the index at the address
-/

namespace Glatt

open Imperative BinaryTree Tiling

variable {ι : Type} {vm vm' : IndexMap ι} {T T' F : BinaryTree ι} {x : ι} {a b : ℕ}
  {new₁ new₂ : Option ι}

def InUseAt (index : IndexMap ι) (w : UInt64) : Prop :=
  ∃ T x, index.vmIndex.Represents T ∧ x ∈ T.inorder ∧ (index.vmi x).inUse ∧ index.Covers x w

def OneIndex (index : IndexMap ι) (v w : UInt64) : Prop :=
  ∃ T x, index.vmIndex.Represents T ∧ x ∈ T.inorder ∧ index.Covers x v ∧ index.Covers x w

def Spans (vaddr pages w : UInt64) : Prop :=
  vaddr.toNat ≤ w.toNat ∧ w.toNat < vaddr.toNat + pages.toNat * 8192

/-- **The range has been allocated**: none of it was in use, all of it is, and it is an index. -/
structure Taken (index index' : IndexMap ι) (vaddr pages : UInt64) : Prop where
  aligned : 8192 ∣ vaddr.toNat
  fits : vaddr.toNat + pages.toNat * 8192 < 2 ^ 64
  free : ∀ w, Spans vaddr pages w → ¬ InUseAt index w
  inUse : ∀ w, InUseAt index' w ↔ InUseAt index w ∨ Spans vaddr pages w
  block : ∀ w, OneIndex index' vaddr w ↔ Spans vaddr pages w

variable [DecidableEq ι]

/-! ## Ranges -/

section Tiles

variable (ht : Tiles vm.lo vm.len a b T.inorder) (hb : b < 2 ^ 64)
include ht hb

section

omit [DecidableEq ι]

theorem eq_of_covers {y : ι} {w : UInt64} (hx : x ∈ T.inorder) (hy : y ∈ T.inorder)
    (hc : vm.Covers x w) (hcy : vm.Covers y w) : x = y :=
  ht.eq_of_covers hx hy ((covers_iff ht hb hx).mp hc) ((covers_iff ht hb hy).mp hcy)

theorem covers_base (hx : x ∈ T.inorder) : vm.Covers x (vm.vmi x).vmiBase := by
  have hpos := (ht.bounds hx).2.1
  refine (covers_iff ht hb hx).mpr ⟨le_rfl, ?_⟩
  simp only [IndexMap.lo]
  omega

theorem taken_of_uses {F' : BinaryTree ι} {vaddr pages : UInt64} (hL : Linked vm T F)
    (ha : 8192 ∣ a) (hL' : Linked vm' T' F') (ht' : Tiles vm'.lo vm'.len a b T'.inorder)
    (hk : KeptInUse vm T vm' T') (hu : UsesOnly vm T vm' T' (some vaddr))
    (hc : ∃ y ∈ T'.inorder, (vm'.vmi y).inUse ∧ (vm'.vmi y).vmiBase = vaddr ∧
      (vm'.vmi y).vmiSize = pages)
    (hp : ∃ x ∈ T.inorder, ¬ (vm.vmi x).inUse ∧ vm.lo x ≤ vaddr.toNat ∧
      vaddr.toNat + pages.toNat * 8192 ≤ vm.lo x + vm.len x) :
    Taken vm vm' vaddr pages := by
  obtain ⟨y, hy, huy, rfl, rfl⟩ := hc
  obtain ⟨x, hx, hf, hl, hle⟩ := hp
  have hbn := ht.bounds hx
  have hs : ∀ w, Spans (vm'.vmi y).vmiBase (vm'.vmi y).vmiSize w ↔ vm'.Covers y w :=
    fun w => (covers_iff ht' hb hy).symm
  refine ⟨?_, by omega, ?_, ?_, ?_⟩
  · exact ht'.dvd ha (fun _ _ => Nat.dvd_mul_left 8192 _) hy
  -- the range was a part of a free index
  · rintro w ⟨hw, hw'⟩ ⟨T₁, z, hT₁, hz, huz, hcov⟩
    obtain rfl := hL.tree.unique hT₁
    obtain rfl := eq_of_covers ht hb hz hx hcov ((covers_iff ht hb hx).mpr ⟨by omega, by omega⟩)
    exact hf huz
  · intro w
    rw [hs]
    constructor
    · rintro ⟨T₁, z, hT₁, hz, huz, hcov⟩
      obtain rfl := hL'.tree.unique hT₁
      rcases hu z hz huz with ⟨hzT, huz'⟩ | hbs
      · refine .inl ⟨T, z, hL.tree, hzT, huz', ?_⟩
        rw [IndexMap.Covers, ← (hk z hzT huz').2]
        exact hcov
      · obtain rfl := eq_of_covers ht' hb hz hy (covers_base ht' hb hz)
          (Option.some.inj hbs ▸ covers_base ht' hb hy)
        exact .inr hcov
    · rintro (⟨T₁, z, hT₁, hz, huz, hcov⟩ | hcov)
      · obtain rfl := hL.tree.unique hT₁
        obtain ⟨hz', hv⟩ := hk z hz huz
        refine ⟨T', z, hL'.tree, hz', hv ▸ huz, ?_⟩
        rw [IndexMap.Covers, hv]
        exact hcov
      · exact ⟨T', y, hL'.tree, hy, huy, hcov⟩
  · intro w
    rw [hs]
    constructor
    · rintro ⟨T₁, z, hT₁, hz, hcov, hcov'⟩
      obtain rfl := hL'.tree.unique hT₁
      obtain rfl := eq_of_covers ht' hb hz hy hcov (covers_base ht' hb hy)
      exact hcov'
    · exact fun hcov => ⟨T', y, hL'.tree, hy, covers_base ht' hb hy, hcov⟩

end

omit [DecidableEq ι] ht hb in
theorem inUseAt_of_uses {F' : BinaryTree ι} (hL : Linked vm T F) (hL' : Linked vm' T' F')
    (hk : KeptInUse vm T vm' T') (hu : UsesOnly vm T vm' T' none) (w : UInt64) :
    InUseAt vm' w ↔ InUseAt vm w := by
  constructor
  · rintro ⟨T₁, z, hT₁, hz, huz, hc⟩
    obtain rfl := hL'.tree.unique hT₁
    obtain ⟨hzT, huz'⟩ := (hu z hz huz).resolve_right nofun
    refine ⟨T, z, hL.tree, hzT, huz', ?_⟩
    rw [IndexMap.Covers, ← (hk z hzT huz').2]
    exact hc
  · rintro ⟨T₁, z, hT₁, hz, huz, hc⟩
    obtain rfl := hL.tree.unique hT₁
    obtain ⟨hz', hv⟩ := hk z hz huz
    refine ⟨T', z, hL'.tree, hz', hv ▸ huz, ?_⟩
    rw [IndexMap.Covers, hv]
    exact hc

omit [DecidableEq ι] hb in
theorem placed_of_tiles (ha : 8192 ∣ a) : Placed vm T b := fun _ hx =>
  ⟨ht.dvd ha (fun _ _ => Nat.dvd_mul_left 8192 _) hx, (ht.bounds hx).2.2⟩

omit [DecidableEq ι] in
theorem vmFindIndex_covers (hL : Linked vm T F) (hx : x ∈ T.inorder) {w : UInt64}
    (hc : vm.Covers x w) : vmFindIndex w vm = .ok (some x) := by
  have hhit : ∀ z ∈ T.inorder, (w = (vm.vmi z).vmiBase ∨ w > (vm.vmi z).vmiBase ∧
      w < (vm.vmi z).vmiBase + pageToAddr (vm.vmi z).vmiSize) ↔ vm.Covers z w := by
    intro z hz
    constructor
    · rintro (rfl | ⟨hgt, hlt⟩)
      · exact covers_base ht hb hz
      · exact ⟨UInt64.le_of_lt hgt, hlt⟩
    · rintro ⟨hle, hlt⟩
      rcases UInt64.lt_or_eq_of_le hle with h | h
      · exact .inr ⟨h, hlt⟩
      · exact .inl h.symm
  have hs : (T.find (fun iter => decide (w < (vm.vmi iter).vmiBase))
      fun iter => decide (w = (vm.vmi iter).vmiBase ∨ w > (vm.vmi iter).vmiBase ∧
        w < (vm.vmi iter).vmiBase + pageToAddr (vm.vmi iter).vmiSize)).isSome := by
    refine (find_isSome_iff ?_ ?_).mpr ⟨x, hx, decide_eq_true ((hhit x hx).mpr hc)⟩
    -- the indices are in the order of their addresses
    · refine ht.pairwise.imp_of_mem fun {y z} hy _ hyz => ?_
      have hlt := UInt64.lt_iff_toNat_lt (a := w) (b := (vm.vmi z).vmiBase)
      simp only [decide_eq_true_eq, hhit y hy]
      simp only [covers_iff ht hb hy, UInt64.lt_iff_toNat_lt, IndexMap.lo] at hyz ⊢
      exact ⟨fun hw => by omega, fun hw => .inl (by omega)⟩
    · intro y hy hyw
      have hle := ((hhit y hy).mp (of_decide_eq_true hyw)).1
      exact decide_eq_false (UInt64.not_lt.mpr hle)
  obtain ⟨y, hf⟩ := Option.isSome_iff_exists.mp hs
  obtain ⟨hy, -, hh⟩ := find_mem hf
  obtain rfl := eq_of_covers ht hb hy hx ((hhit y hy).mp (of_decide_eq_true hh)) hc
  rw [vmFindIndex, btreeFind_eq hL.tree, hf]

end Tiles

/-! ## The interface -/

section Interface

variable (h : IndexInv a b vm) (ha : 8192 ∣ a) (hb : b < 2 ^ 64)
include h hb

theorem IndexInv.allocRange_inUse {begin end_ : UInt64}
    (hbg : 8192 ∣ begin.toNat) (hu : InUseAt vm begin) :
    vmAllocRange new₁ new₂ begin end_ vm = .ok (vm, .error .notFree) := by
  obtain ⟨T, F, hL, ht⟩ := h
  obtain ⟨T', x, hT', hx, hus, hc⟩ := hu
  obtain rfl := hL.tree.unique hT'
  rw [vmAllocRange, vmClaimRange, pageFloor_eq_self hbg, vmFindIndex_covers ht hb hL hx hc]
  exact if_pos hus

theorem IndexInv.freeAddress_given {vaddr : UInt64} (hu : InUseAt vm vaddr) :
    Ensures (vmFreeAddress vaddr vm) fun p => IndexInv a b p.1 ∧ p.2 = .ok () ∧
      ∀ w, InUseAt p.1 w ↔ InUseAt vm w ∧ ¬ OneIndex vm vaddr w := by
  obtain ⟨T, F, hL, ht⟩ := h
  obtain ⟨T', x, hT', hx, hus, hcov⟩ := hu
  obtain rfl := hL.tree.unique hT'
  rw [vmFreeAddress, vmFindIndex_covers ht hb hL hx hcov]
  refine (vmFreeIndex_spec hL hx hus).bind ?_
  rintro vm' ⟨hv, -, F', hL'⟩
  refine .ret ⟨⟨T, F', hL', tiles_setFlags ht hv⟩, rfl, fun w => ?_⟩
  have hs : ∀ z ≠ x, vm'.vmi z = vm.vmi z := fun z hz => by
    rw [hv, IndexMap.setFlags_vmi, if_neg hz]
  have hf : ¬ (vm'.vmi x).inUse := by
    rw [hv, IndexMap.setFlags_vmi, if_pos rfl]
    exact not_inUse_and_not
  constructor
  · rintro ⟨T₁, z, hT₁, hz, huz, hc⟩
    obtain rfl := hL'.tree.unique hT₁
    have hzx : z ≠ x := fun heq => hf (heq ▸ huz)
    rw [IndexMap.Covers, hs z hzx] at hc
    rw [hs z hzx] at huz
    refine ⟨⟨T, z, hL.tree, hz, huz, hc⟩, ?_⟩
    rintro ⟨T₂, y, hT₂, hy, hcv, hcv'⟩
    obtain rfl := hL.tree.unique hT₂
    obtain rfl := eq_of_covers ht hb hy hx hcv hcov
    exact hzx (eq_of_covers ht hb hz hy hc hcv')
  · rintro ⟨⟨T₁, z, hT₁, hz, huz, hc⟩, ho⟩
    obtain rfl := hL.tree.unique hT₁
    have hzx : z ≠ x := fun heq => ho ⟨T, z, hL.tree, hz, heq ▸ hcov, hc⟩
    refine ⟨T, z, hL'.tree, hz, (hs z hzx).symm ▸ huz, ?_⟩
    rw [IndexMap.Covers, hs z hzx]
    exact hc

include ha

theorem IndexInv.allocAddress_taken (hnew : ∀ T, vm.vmIndex.Represents T → Fresh new₁ new₂ T)
    {pages : UInt64} (hpg : 1 ≤ pages) (high : Bool) :
    Ensures (vmAllocAddress new₁ new₂ pages high vm) fun p => IndexInv a b p.1 ∧
      (∀ vaddr, p.2 = .ok vaddr → Taken vm p.1 vaddr pages ∧ HasRoom vm pages) ∧
      ∀ e, p.2 = .error e → p.1 = vm ∧ (e = .notImplemented ∧ ¬ HasRoom vm pages ∨
        e = .exhausted ∧ HasRoom vm pages ∧ (if high then new₁ else new₂) = none) := by
  have hinv := h.allocAddress ha hb hnew hpg high
  obtain ⟨T, F, hL, ht⟩ := h
  have hp := placed_of_tiles ht ha
  refine (hinv.and (vmAllocAddress_claimed hL hp hb (hnew T hL.tree) pages high).yields).mono ?_
  rintro ⟨vm', r⟩ ⟨hinv', ⟨T₁, F₁, hL₁, -, hk, hc⟩, hus, hpr, herr⟩
  have hu := hus T₁ hL₁.tree
  refine ⟨hinv', ?_, ?_⟩
  · rintro vaddr rfl
    obtain ⟨T', F', hL', ht'⟩ := hinv'
    obtain rfl := hL₁.tree.unique hL'.tree
    obtain ⟨x, hx⟩ := hpr vaddr rfl
    exact ⟨taken_of_uses ht hb hL ha hL₁ ht' hk hu (hc _ _ rfl)
      ⟨x, hx.mem, hx.free, hx.lo_le, hx.reach⟩, hx.hasRoom hL⟩
  · rintro e rfl
    obtain ⟨hs, hr | ⟨he, hn, x, hx, -⟩⟩ := herr e rfl
    · exact ⟨hs, .inl hr⟩
    · exact ⟨hs, .inr ⟨he, hx.hasRoom hL, hn⟩⟩

theorem IndexInv.allocRange_taken
    (hn : ∀ T, vm.vmIndex.Represents T → Fresh new₁ new₂ T) {begin end_ : UInt64}
    (hbg : 8192 ∣ begin.toNat) (hend : 8192 ∣ end_.toNat) (hlt : begin < end_) :
    Ensures (vmAllocRange new₁ new₂ begin end_ vm) fun p => IndexInv a b p.1 ∧
      (p.2 = .ok () → Taken vm p.1 begin (addrToPage (end_ - begin))) ∧
      ∀ e, p.2 = .error e → ∀ w, InUseAt p.1 w ↔ InUseAt vm w := by
  obtain ⟨T, F, hL, ht⟩ := h
  have hp := placed_of_tiles ht ha
  rw [UInt64.lt_iff_toNat_lt] at hlt
  rw [vmAllocRange, pageFloor_eq_self hbg, pageRoundup_eq_self hend]
  refine (vmFindIndex_spec hL begin).bind fun r hr => ?_
  cases r with
  | none =>
    exact .ret ⟨⟨T, F, hL, ht⟩, nofun, fun _ _ _ => Iff.rfl⟩
  | some x =>
    obtain ⟨hx, hbs, -⟩ := hr x rfl
    have hinv := claimIndex_inv hL ht ha hb hx (hn T hL.tree) hbs hlt hbg hend
    have hc := claimIndex_claimed hL hp hb hx (hn T hL.tree) hbs hlt.le hbg hend
    refine (hinv.and hc.yields).mono ?_
    rintro ⟨vm', r⟩ ⟨hinv', ⟨T₁, F₁, hL₁, -, hk, hcl⟩, hus, hpr, -⟩
    have hu := hus T₁ hL₁.tree
    refine ⟨hinv', ?_, ?_⟩
    · rintro rfl
      obtain ⟨T', F', hL', ht'⟩ := hinv'
      obtain rfl := hL₁.tree.unique hL'.tree
      obtain ⟨hf, hrc, -⟩ := hpr rfl
      refine taken_of_uses ht hb hL ha hL₁ ht' hk hu (hcl _ _ rfl) ⟨x, hx, hf, hbs, ?_⟩
      have hrn := UInt64.toNat_sub_of_le _ _ (UInt64.le_iff_toNat_le.mpr hlt.le)
      rw [toNat_addrToPage]
      omega
    · rintro e rfl
      exact inUseAt_of_uses hL hL₁ hk hu

end Interface

end Glatt
