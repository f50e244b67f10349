import Glatt.Lib.Tiling
import Glatt.Lib.Transition
import Glatt.Vm.IndexLinks

/-!
# The indices tile the address space

The indices of an address space, in the order of their bases, tile the range it was given: none
is empty, no two overlap, and together they cover the range. Splitting an index opens a gap in
the tiling behind the pages it hands out, which the trailing pages close.

## Main definitions

* `IndexInv`: the indices tile a range
* `IndexOp`, `IndexStep`: the calls on an address space

## Main results

* `vm_index_partition`: along every run, the indices partition the range first inserted and the
  free ones are those linked in the tree of free indices
-/

namespace Glatt

open Imperative BinaryTree LinkedTree Tiling Transition Function List

variable {ν : Type} {vm vm' : IndexMap ν} {T F : BinaryTree ν} {x : ν} {a b : ℕ}
  {pages : UInt64} {T' : BinaryTree ν} {high : Bool}

def IndexMap.lo (vm : IndexMap ν) (x : ν) : ℕ := (vm.vmi x).vmiBase.toNat

def IndexMap.len (vm : IndexMap ν) (x : ν) : ℕ := (vm.vmi x).vmiSize.toNat * 8192

theorem IndexMap.len_eq (vm : IndexMap ν) (x : ν) :
    vm.len x = (vm.vmi x).vmiSize.toNat * 8192 := rfl

theorem tiles_frame {xs : List ν} (h : Tiles vm.lo vm.len a b xs)
    (hs : ∀ z ∈ xs, vm'.vmi z = vm.vmi z) : Tiles vm'.lo vm'.len a b xs := by
  refine h.congr fun z hz => ?_
  rw [IndexMap.lo, IndexMap.len, hs z hz]
  exact ⟨rfl, rfl⟩

/-! ## Splitting an index -/

variable {xs ys : List ν}

theorem InsertedAt.behind {n : ν} {base : UInt64} {d : ℕ} (hI : InsertedAt vm.vmi base n T T')
    (hT : T.inorder = xs ++ x :: ys) (hb : Tiles vm.lo vm.len a (vm.lo x) xs)
    (hbh : Tiles vm.lo vm.len d b ys) (hl : vm.lo x ≤ base.toNat) (hd : base.toNat < d) :
    T'.inorder = (xs ++ [x]) ++ n :: ys := by
  refine hI.2 (xs ++ [x]) ys (by simp [hT]) ?_ ?_
  · intro z hz
    rw [UInt64.le_iff_toNat_le]
    refine Nat.le_trans ?_ hl
    rcases mem_append.mp hz with hz | hz
    · exact Nat.le_of_add_right_le (hb.bounds hz).2.2
    · rw [mem_singleton.mp hz]
      exact Nat.le_refl _
  · intro z hz
    rw [UInt64.lt_iff_toNat_lt]
    exact Nat.lt_of_lt_of_le hd (hbh.bounds hz).1

section Sizes

variable [DecidableEq ν]

variable {n : UInt64}

@[simp] theorem setSize_lo (z : ν) : (vm.setSize x n).lo z = vm.lo z := by
  rw [IndexMap.lo, vmiBase_setSize, IndexMap.lo]

@[simp] theorem setSize_len : (vm.setSize x n).len x = n.toNat * 8192 := by
  rw [IndexMap.len, vmiSize_setSize]

theorem setSize_restore {size : UInt64} (hs : size = (vm.vmi x).vmiSize) :
    (vm.setSize x n).setSize x size = vm := by
  subst hs
  simp only [IndexMap.setSize, IndexMap.set, update_self, update_idem, update_eq_self]

theorem tiles_setSize {xs : List ν} (h : Tiles vm.lo vm.len a b xs) (hx : ∀ z ∈ xs, z ≠ x)
    : Tiles (vm.setSize x n).lo (vm.setSize x n).len a b xs :=
  tiles_frame h fun z hz => by rw [IndexMap.setSize_vmi, if_neg (hx z hz)]

end Sizes

/-- The indices with a gap behind the index `x`: it ends at `e`, and the next one starts at
`d`. -/
structure Gap (vm : IndexMap ν) (T : BinaryTree ν) (a b e d : ℕ) (x : ν) (xs ys : List ν) :
    Prop where
  split : T.inorder = xs ++ x :: ys
  before : Tiles vm.lo vm.len a (vm.lo x) xs
  pos : 0 < vm.len x
  ends : vm.lo x + vm.len x = e
  behind : Tiles vm.lo vm.len d b ys

theorem Gap.close {d : ℕ} (h : Gap vm T a b d d x xs ys) : Tiles vm.lo vm.len a b T.inorder := by
  rw [h.split, tiles_middle]
  refine ⟨h.before, h.pos, ?_⟩
  rw [h.ends]
  exact h.behind

variable [DecidableEq ν]

variable {new : Option ν}

section Gap

variable {e d : ℕ} (hg : Gap vm T a b e d x xs ys)
include hg

theorem Gap.resize (h : Linked vm T F) (hpos : 0 < pages.toNat) {e' : ℕ}
    (he : vm.lo x + pages.toNat * 8192 = e') : Gap (vm.setSize x pages) T a b e' d x xs ys := by
  obtain ⟨hx, hy⟩ := h.tree.ne_of_split hg.split
  refine ⟨hg.split, ?_, ?_, ?_, tiles_setSize hg.behind hy⟩
  · rw [setSize_lo]
    exact tiles_setSize hg.before hx
  · rw [setSize_len]
    omega
  · rw [setSize_lo, setSize_len, he]

theorem Gap.insert {n : ν} (hn : n ∉ T.inorder) {base pages : UInt64}
    (hvmi : vm'.vmi = (vm.set n ⟨base, pages, vmIndexFlagDefault⟩).vmi)
    (hT' : T'.inorder = (xs ++ [x]) ++ n :: ys) (hb : base.toNat = e) (hpos : 0 < pages.toNat)
    {e' : ℕ} (he : e + pages.toNat * 8192 = e') : Gap vm' T' a b e' d n (xs ++ [x]) ys := by
  have ho : ∀ z ∈ T.inorder, vm'.vmi z = vm.vmi z := by
    intro z hz
    rw [hvmi, IndexMap.set_vmi, if_neg]
    rintro rfl
    exact hn hz
  rw [hg.split] at ho
  have hv := ho x (by simp)
  have hlox : vm'.lo x = vm.lo x := by rw [IndexMap.lo, IndexMap.lo, hv]
  have hl : vm'.len x = vm.len x := by rw [IndexMap.len, IndexMap.len, hv]
  have hlon : vm'.lo n = e := by rw [IndexMap.lo, hvmi, IndexMap.set_vmi, if_pos rfl, hb]
  have hln : vm'.len n = pages.toNat * 8192 := by
    rw [IndexMap.len, hvmi, IndexMap.set_vmi, if_pos rfl]
  refine ⟨hT', tiles_middle.mpr ⟨?_, ?_, ?_⟩, ?_, ?_, ?_⟩
  · rw [hlox]
    exact tiles_frame hg.before fun z hz => ho z (by simp [hz])
  · rw [hl]
    exact hg.pos
  · rw [hlox, hl, hlon]
    exact hg.ends
  · omega
  · omega
  · exact tiles_frame hg.behind fun z hz => ho z (by simp [hz])

end Gap

theorem claimLeader_gap (h : Linked vm T F) (ht : Tiles vm.lo vm.len a b T.inorder)
    (hT : T.inorder = xs ++ x :: ys) (hf : ¬ (vm.vmi x).inUse)
    (hnew : ∀ n, new = some n → n ∉ T.inorder) {begin range leader size : UInt64}
    (hb : begin.toNat = vm.lo x + leader.toNat) (hpos : 0 < range.toNat)
    (hr : 8192 ∣ range.toNat) (hld : 8192 ∣ leader.toNat)
    (hle : leader.toNat + range.toNat ≤ vm.len x) (hsz : size.toNat = vm.len x) :
    Ensures (vmClaimLeader new begin range leader size x vm) fun p =>
      match p.2 with
      | .error _ => ∃ F', Linked p.1 T F' ∧ Tiles p.1.lo p.1.len a b T.inorder
      | .ok n => ∃ T' F' xs', Linked p.1 T' F' ∧ ¬ (p.1.vmi n).inUse ∧
          p.1.lo n = begin.toNat ∧
          Gap p.1 T' a b (begin.toNat + range.toNat) (vm.lo x + vm.len x) n xs' ys ∧
          ∀ z ∈ T'.inorder, z ∈ T.inorder ∨ new = some z := by
  obtain ⟨htx, htp, hty⟩ := tiles_middle.mp (hT ▸ ht)
  have hg : Gap vm T a b _ _ x xs ys := ⟨hT, htx, htp, rfl, hty⟩
  have hp := toNat_addrToPage range
  refine (vmClaimLeader_spec h hnew begin range leader size).mono ?_
  rintro ⟨vm', r⟩ (⟨hl, rfl, rfl⟩ | ⟨hl, -, rfl, rfl⟩ | ⟨n, hl, hn', rfl, hv, -, T', F', hL, hI⟩)
  · have hl0 : leader.toNat = 0 := by rw [hl]; rfl
    refine ⟨T, F, xs, h.setSize _, ?_, ?_, hg.resize h (by omega) (by omega), fun z hz => .inl hz⟩
    · rwa [inUse_setSize]
    · rw [setSize_lo]
      omega
  · -- the size goes back to what it was
    have hs : addrToPage size = (vm.vmi x).vmiSize := by
      refine UInt64.toNat_inj.mp ?_
      rw [toNat_addrToPage, hsz, IndexMap.len, Nat.mul_div_cancel _ (by omega)]
    rw [setSize_restore hs]
    exact ⟨F, h, ht⟩
  · -- the old index ends where the range begins, and the new one has the range
    have hl0 := mt UInt64.toNat_inj.mp hl
    rw [UInt64.toNat_zero] at hl0
    have hlp := toNat_addrToPage leader
    have hT' : T'.inorder = (xs ++ [x]) ++ n :: ys := hI.behind hT htx hty (by omega) (by omega)
    have hc : Gap (vm.setSize x (addrToPage leader)) T a b begin.toNat _ x xs ys :=
      hg.resize h (by omega) (by omega)
    refine ⟨T', F', xs ++ [x], hL, ?_, ?_,
      hc.insert (hnew n hn') hv hT' rfl (by omega) (by omega), hI.mem_or hn'⟩
    · rw [hv, IndexMap.set_vmi, if_pos rfl]
      exact not_inUse_default _
    · rw [IndexMap.lo, hv, IndexMap.set_vmi, if_pos rfl]

theorem claimTrailer_tiles (h : Linked vm T F) {e d : ℕ} (hg : Gap vm T a b e d x xs ys)
    (hb : b < 2 ^ 64) (hed : e ≤ d) (hf : ¬ (vm.vmi x).inUse)
    (hnew : ∀ n, new = some n → n ∉ T.inorder) {end_ trailer : UInt64} (hend : end_.toNat = e)
    (htr : e + trailer.toNat = d) (hdvd : 8192 ∣ trailer.toNat) :
    Ensures (vmClaimTrailer new end_ trailer x vm) fun p => ∃ T' F', Linked p.1 T' F' ∧
      Tiles p.1.lo p.1.len a b T'.inorder ∧ x ∈ T'.inorder ∧ ¬ (p.1.vmi x).inUse := by
  have hx : x ∈ T.inorder := by simp [hg.split]
  have he := hg.ends
  have hpos := hg.pos
  have hd := hg.behind.le
  have hp := toNat_addrToPage trailer
  refine (vmClaimTrailer_spec h hnew end_ trailer).mono ?_
  rintro ⟨vm', r⟩ (⟨ht, rfl, rfl⟩ | ⟨ht, -, rfl, rfl⟩ | ⟨n, ht, hn', rfl, hvmi, -, T', F', hL, hI⟩)
  · have ht0 : trailer.toNat = 0 := by rw [ht]; rfl
    obtain rfl : e = d := by omega
    exact ⟨T, F, h, hg.close, hx, hf⟩
  · -- the index keeps the trailing pages
    have hlen := vm.len_eq x
    have hs : ((vm.vmi x).vmiSize + addrToPage trailer).toNat =
        (vm.vmi x).vmiSize.toNat + trailer.toNat / 8192 := by
      rw [UInt64.toNat_add, hp, Nat.mod_eq_of_lt]
      omega
    refine ⟨T, F, h.setSize _, (hg.resize h ?_ ?_).close, hx, by rwa [inUse_setSize]⟩
    · omega
    · omega
  · have hnT := hnew n hn'
    have ht0 := mt UInt64.toNat_inj.mp ht
    rw [UInt64.toNat_zero] at ht0
    have hT' : T'.inorder = (xs ++ [x]) ++ n :: ys :=
      hI.behind hg.split hg.before hg.behind (by omega) (by omega)
    have hc : Gap vm' T' a b d d n (xs ++ [x]) ys :=
      hg.insert hnT hvmi hT' hend (by omega) (by omega)
    have hv : vm'.vmi x = vm.vmi x := by
      rw [hvmi, IndexMap.set_vmi, if_neg]
      rintro rfl
      exact hnT hx
    exact ⟨T', F', hL, hc.close, by simp [hT'], by rwa [hv]⟩

/-! ## The invariant -/

/-- **The indices tile the range** from `a` to `b`, and the free ones are linked as such. -/
def IndexInv (a b : ℕ) (vm : IndexMap ν) : Prop :=
  ∃ T F, Linked vm T F ∧ Tiles vm.lo vm.len a b T.inorder

/-- The results of the two calls of `pool_allocate` in an operation: not linked yet, and not the
same index twice. -/
structure Fresh (new₁ new₂ : Option ν) (T : BinaryTree ν) : Prop where
  fst : ∀ n, new₁ = some n → n ∉ T.inorder
  snd : ∀ n, new₂ = some n → n ∉ T.inorder
  ne : ∀ n, new₁ = some n → new₂ ≠ some n

omit [DecidableEq ν] in
theorem Fresh.behind {new₁ new₂ : Option ν} (h : Fresh new₁ new₂ T)
    (hmem : ∀ z ∈ T'.inorder, z ∈ T.inorder ∨ new₁ = some z) :
    ∀ n, new₂ = some n → n ∉ T'.inorder := by
  intro n hn hnT
  rcases hmem n hnT with hnT | hn'
  · exact h.snd n hn hnT
  · exact h.ne n hn' hn

theorem tiles_setFlags {xs : List ν} (h : Tiles vm.lo vm.len a b xs) {flags : UInt32}
    (hv : vm'.vmi = (vm.setFlags x flags).vmi) : Tiles vm'.lo vm'.len a b xs := by
  refine h.congr fun z _ => ?_
  simp only [IndexMap.lo, IndexMap.len, hv, IndexMap.setFlags_vmi]
  by_cases hz : z = x <;> simp [hz]

omit [DecidableEq ν] in
theorem toNat_reach (hb : vm.lo x + vm.len x < 2 ^ 64) :
    (pageToAddr (vm.vmi x).vmiSize).toNat = vm.len x ∧
      ((vm.vmi x).vmiBase + pageToAddr (vm.vmi x).vmiSize).toNat = vm.lo x + vm.len x := by
  have hs : (pageToAddr (vm.vmi x).vmiSize).toNat = vm.len x := by
    rw [toNat_pageToAddr]
    exact Nat.mod_eq_of_lt (by simp only [IndexMap.len] at hb; omega)
  refine ⟨hs, ?_⟩
  rw [UInt64.toNat_add, hs]
  exact Nat.mod_eq_of_lt (by simp only [IndexMap.lo] at hb ⊢; omega)

variable {begin end_ : UInt64}

omit [DecidableEq ν] in
theorem toNat_parts (hb : vm.lo x + vm.len x < 2 ^ 64) (hlo : vm.lo x ≤ begin.toNat)
    (hle : begin.toNat ≤ end_.toNat) (hend : end_.toNat ≤ vm.lo x + vm.len x) :
    (begin - (vm.vmi x).vmiBase).toNat = begin.toNat - vm.lo x ∧
      (end_ - begin).toNat = end_.toNat - begin.toNat ∧
      (pageToAddr (vm.vmi x).vmiSize - (begin - (vm.vmi x).vmiBase + (end_ - begin))).toNat =
        vm.lo x + vm.len x - end_.toNat := by
  obtain ⟨hs, -⟩ := toNat_reach hb
  have hl : (begin - (vm.vmi x).vmiBase).toNat = begin.toNat - vm.lo x :=
    UInt64.toNat_sub_of_le _ _ (UInt64.le_iff_toNat_le.mpr hlo)
  have hr : (end_ - begin).toNat = end_.toNat - begin.toNat :=
    UInt64.toNat_sub_of_le _ _ (UInt64.le_iff_toNat_le.mpr hle)
  have hsum : (begin - (vm.vmi x).vmiBase + (end_ - begin)).toNat = end_.toNat - vm.lo x := by
    rw [UInt64.toNat_add, Nat.mod_eq_of_lt]
    · omega
    · omega
  refine ⟨hl, hr, ?_⟩
  rw [UInt64.toNat_sub_of_le]
  · omega
  · rw [UInt64.le_iff_toNat_le]
    omega

variable {new₁ new₂ : Option ν}

theorem claimIndex_inv (h : Linked vm T F) (ht : Tiles vm.lo vm.len a b T.inorder) (ha : 8192 ∣ a)
    (hb : b < 2 ^ 64) (hx : x ∈ T.inorder) (hnew : Fresh new₁ new₂ T) (hlo : vm.lo x ≤ begin.toNat)
    (hlt : begin.toNat < end_.toNat) (hbg : 8192 ∣ begin.toNat) (hend : 8192 ∣ end_.toNat) :
    Ensures (vmClaimIndex new₁ new₂ begin end_ x vm) fun p => IndexInv a b p.1 := by
  obtain ⟨xs, ys, hT⟩ := append_of_mem hx
  have hbn := ht.bounds hx
  have hd := ht.dvd ha (fun z _ => Nat.dvd_mul_left 8192 _) hx
  have hlen : 8192 ∣ vm.len x := Nat.dvd_mul_left 8192 _
  have hft : vm.lo x + vm.len x < 2 ^ 64 := by omega
  obtain ⟨hsz, hrc⟩ := toNat_reach hft
  rw [vmClaimIndex]
  split_ifs with hu hs
  · exact .ret ⟨T, F, h, ht⟩
  · exact .ret ⟨T, F, h, ht⟩
  rw [UInt64.lt_iff_toNat_lt] at hs
  obtain ⟨hl, hrn, htr⟩ := toNat_parts hft hlo hlt.le (by omega)
  refine (claimLeader_gap h ht hT hu hnew.fst (by omega) (by omega) (by omega) (by omega)
    (by omega) hsz).bind ?_
  rintro ⟨vm₁, r⟩ hr
  cases r with
  | error e =>
    obtain ⟨F', hL, ht'⟩ := hr
    exact .ret ⟨T, F', hL, ht'⟩
  | ok n =>
    obtain ⟨T₁, F₁, xs₁, hL, hf, -, hg, hmem⟩ := hr
    refine (claimTrailer_tiles hL hg hb (by omega) hf (hnew.behind hmem) (by omega) (by omega)
      (by omega)).bind ?_
    rintro ⟨vm₂, r⟩ ⟨T₂, F₂, hL₂, ht₂, hn, hf₂⟩
    cases r with
    | error e => exact .ret ⟨T₂, F₂, hL₂, ht₂⟩
    | ok u =>
      refine (vmUseIndex_spec hL₂ hn hf₂).bind ?_
      rintro ⟨vm₃, r⟩ ⟨rfl, hv, -, F₃, hL₃⟩
      exact .ret ⟨T₂, F₃, hL₃, tiles_setFlags ht₂ hv⟩

/-! ## Operations -/

def IndexMap.Covers (vm : IndexMap ν) (x : ν) (addr : UInt64) : Prop :=
  (vm.vmi x).vmiBase ≤ addr ∧ addr < (vm.vmi x).vmiBase + pageToAddr (vm.vmi x).vmiSize

/-- The operations on an initialised address space, with what `pool_allocate` returns. -/
inductive IndexOp (ν : Type)
  | allocAddress (new₁ new₂ : Option ν) (pages : UInt64) (high : Bool)
  | allocRange (new₁ new₂ : Option ν) (begin end_ : UInt64)
  | freeAddress (vaddr : UInt64)

def IndexOp.exec : IndexOp ν → IndexMap ν → Outcome (IndexMap ν)
  | allocAddress new₁ new₂ pages high, vm => do
    let p ← vmAllocAddress new₁ new₂ pages high vm
    pure p.1
  | allocRange new₁ new₂ begin end_, vm => do
    let p ← vmAllocRange new₁ new₂ begin end_ vm
    pure p.1
  | freeAddress vaddr, vm => do
    let p ← vmFreeAddress vaddr vm
    pure p.1

/-- The calls the address space is made for: at least one page, a range that is not empty and does
not wrap, an address in an index in use; the pool does not hand out an index that is linked. -/
def IndexOp.Allowed (vm : IndexMap ν) : IndexOp ν → Prop
  | allocAddress new₁ new₂ pages _ =>
    1 ≤ pages ∧ ∀ T, vm.vmIndex.Represents T → Fresh new₁ new₂ T
  | allocRange new₁ new₂ begin end_ =>
    begin < end_ ∧ end_.toNat + 8191 < 2 ^ 64 ∧ ∀ T, vm.vmIndex.Represents T → Fresh new₁ new₂ T
  | freeAddress vaddr =>
    ∃ T x, vm.vmIndex.Represents T ∧ x ∈ T.inorder ∧ (vm.vmi x).inUse ∧ vm.Covers x vaddr

def IndexStep (vm : IndexMap ν) (op : IndexOp ν) (vm' : IndexMap ν) : Prop :=
  op.Allowed vm ∧ op.exec vm = .ok vm'

omit [DecidableEq ν] in
theorem covers_iff (ht : Tiles vm.lo vm.len a b T.inorder) (hb : b < 2 ^ 64)
    (hx : x ∈ T.inorder) {addr : UInt64} :
    vm.Covers x addr ↔ vm.lo x ≤ addr.toNat ∧ addr.toNat < vm.lo x + vm.len x := by
  have hbn := ht.bounds hx
  rw [IndexMap.Covers, UInt64.le_iff_toNat_le, UInt64.lt_iff_toNat_lt, UInt64.toNat_add,
    toNat_pageToAddr]
  simp only [IndexMap.lo, IndexMap.len] at hbn ⊢
  rw [Nat.mod_eq_of_lt (by omega), Nat.mod_eq_of_lt (by omega)]

omit [DecidableEq ν] in
theorem toNat_allocStart (hb : vm.lo x + vm.len x < 2 ^ 64)
    (hl : ¬ (vm.vmi x).vmiSize < pages) {start : UInt64}
    (hs : start = if high then (vm.vmi x).vmiBase + pageToAddr ((vm.vmi x).vmiSize - pages)
      else (vm.vmi x).vmiBase) :
    ∃ off, 8192 ∣ off ∧ off + pages.toNat * 8192 ≤ vm.len x ∧ start.toNat = vm.lo x + off ∧
      (start + pageToAddr pages).toNat = start.toNat + pages.toNat * 8192 ∧
      if high then off + pages.toNat * 8192 = vm.len x else off = 0 := by
  rw [UInt64.lt_iff_toNat_lt] at hl
  have hsz : (vm.vmi x).vmiSize.toNat * 8192 = vm.len x := rfl
  have hp : (pageToAddr pages).toNat = pages.toNat * 8192 := by
    rw [toNat_pageToAddr]
    omega
  have hr : (pageToAddr ((vm.vmi x).vmiSize - pages)).toNat = vm.len x - pages.toNat * 8192 := by
    rw [toNat_pageToAddr, UInt64.toNat_sub_of_le _ _ (UInt64.le_iff_toNat_le.mpr (by omega)),
      Nat.sub_mul, hsz, Nat.mod_eq_of_lt]
    omega
  have ho : ∃ off, 8192 ∣ off ∧ off + pages.toNat * 8192 ≤ vm.len x ∧ start.toNat = vm.lo x + off ∧
      if high then off + pages.toNat * 8192 = vm.len x else off = 0 := by
    rw [hs]
    cases high with
    | false => exact ⟨0, by omega, by omega, rfl, rfl⟩
    | true =>
      refine ⟨vm.len x - pages.toNat * 8192, by omega, by omega, ?_, ?_⟩
      · rw [if_pos rfl, UInt64.toNat_add, hr, Nat.mod_eq_of_lt]
        · rfl
        · simp only [IndexMap.lo] at hb
          omega
      · rw [if_pos rfl]
        omega
  obtain ⟨off, hd, hle, ho, hsd⟩ := ho
  refine ⟨off, hd, hle, ho, ?_, hsd⟩
  rw [UInt64.toNat_add, hp, Nat.mod_eq_of_lt]
  omega

/-- **What the search of `vm_alloc_address` finds**: the first free index with as many pages. -/
structure FirstFit (vm : IndexMap ν) (T F : BinaryTree ν) (pages : UInt64) (high : Bool) (x : ν) :
    Prop where
  find : ((searchOrder high F).find? fun x => ¬ (vm.vmi x).vmiSize < pages) = some x
  mem : x ∈ T.inorder
  free : ¬ (vm.vmi x).inUse
  enough : ¬ (vm.vmi x).vmiSize < pages

/-- **Where it takes the pages**: at one end of an index with more of them. -/
structure AtEnd (vm : IndexMap ν) (x : ν) (pages : UInt64) (high : Bool) (start : UInt64) :
    Prop where
  eq : start = if high then (vm.vmi x).vmiBase + pageToAddr ((vm.vmi x).vmiSize - pages)
    else (vm.vmi x).vmiBase
  more : (vm.vmi x).vmiSize ≠ pages
  lo_le : vm.lo x ≤ start.toNat
  dvd : 8192 ∣ start.toNat
  stop : (start + pageToAddr pages).toNat = start.toNat + pages.toNat * 8192
  reach : start.toNat + pages.toNat * 8192 ≤ vm.lo x + vm.len x
  side : if high then start.toNat + pages.toNat * 8192 = vm.lo x + vm.len x
    else start.toNat = vm.lo x

omit [DecidableEq ν] in
theorem AtEnd.stop_dvd {pages start : UInt64} (h : AtEnd vm x pages high start) :
    8192 ∣ (start + pageToAddr pages).toNat := by
  have hd := h.dvd
  have hs := h.stop
  omega

omit [DecidableEq ν] in
theorem AtEnd.rest {pages start : UInt64} (h : AtEnd vm x pages high start) :
    if high then vm.lo x ≠ start.toNat ∧ (start + pageToAddr pages).toNat = vm.lo x + vm.len x
    else vm.lo x = start.toNat ∧ (start + pageToAddr pages).toNat ≠ vm.lo x + vm.len x := by
  have hm := mt UInt64.toNat_inj.mp h.more
  have hlen := vm.len_eq x
  have hst := h.stop
  have hs := h.side
  cases high with
  | false =>
    rw [if_neg Bool.false_ne_true] at hs ⊢
    omega
  | true =>
    rw [if_pos rfl] at hs ⊢
    omega

theorem vmAllocAddress_rule {Q : Prop} {P : IndexMap ν × Except Errno UInt64 → Prop}
    (h : Linked vm T F) (hp : ∀ x ∈ T.inorder, 8192 ∣ vm.lo x ∧ vm.lo x + vm.len x < 2 ^ 64)
    (hn : (∀ x ∈ T.inorder, ¬ (vm.vmi x).inUse → (vm.vmi x).vmiSize < pages) → P (vm, .error
      .notImplemented))
    (hu : ∀ x, FirstFit vm T F pages high x → (vm.vmi x).vmiSize = pages → Guarded Q (vmUseIndex x
      vm) fun p => p.2 = .ok () ∧ P (p.1, .ok (p.1.vmi x).vmiBase))
    (hc : ∀ x start, FirstFit vm T F pages high x → AtEnd vm x pages high start → Guarded Q
      (vmClaimIndex new₁ new₂ start (start + pageToAddr pages) x vm) fun p => P (p.1, p.2.map fun _
      => start)) :
    Guarded Q (vmAllocAddress new₁ new₂ pages high vm) P := by
  rw [vmAllocAddress, vmSearchFree_eq h, ok_bind]
  split
  · rename_i hf
    refine guarded_pure (hn fun x hx hfr => ?_)
    have hno := find?_eq_none.mp hf x (mem_searchOrder.mpr ((h.mem_free x).mpr ⟨hx, hfr⟩))
    simpa using hno
  · rename_i x hf
    have hxF : x ∈ F.inorder := mem_searchOrder.mp (mem_of_find?_eq_some hf)
    obtain ⟨hx, hfr⟩ := (h.mem_free x).mp hxF
    have hl : ¬ (vm.vmi x).vmiSize < pages := by
      simpa using find?_some hf
    have hfit : FirstFit vm T F pages high x := ⟨hf, hx, hfr, hl⟩
    split
    · rename_i hs
      refine (hu x hfit hs).bind ?_
      rintro ⟨vm', r⟩ ⟨rfl, hP⟩
      exact guarded_pure hP
    · rename_i hs
      obtain ⟨hd, hb⟩ := hp x hx
      generalize hst : (if high then (vm.vmi x).vmiBase +
        pageToAddr ((vm.vmi x).vmiSize - pages) else (vm.vmi x).vmiBase) = start
      obtain ⟨off, ho, hle, hlo, hend, hsd⟩ := toNat_allocStart hb hl hst.symm
      have ha : AtEnd vm x pages high start := by
        refine ⟨hst.symm, hs, by omega, by omega, hend, by omega, ?_⟩
        cases high with
        | false => rw [hlo, hsd, Nat.add_zero, if_neg Bool.false_ne_true]
        | true => rw [hlo, Nat.add_assoc, hsd, if_pos rfl]
      refine (hc x start hfit ha).bind ?_
      rintro ⟨vm', r⟩ hP
      cases r with
      | error e | ok u => exact guarded_pure hP

theorem IndexInv.allocAddress (h : IndexInv a b vm) (ha : 8192 ∣ a) (hb : b < 2 ^ 64)
    (hn : ∀ T, vm.vmIndex.Represents T → Fresh new₁ new₂ T) (hp : 1 ≤ pages) (high : Bool) :
    Ensures (vmAllocAddress new₁ new₂ pages high vm) fun p => IndexInv a b p.1 := by
  obtain ⟨T, F, hL, ht⟩ := h
  have hp : 1 ≤ pages.toNat := UInt64.le_iff_toNat_le.mp hp
  have hpl : ∀ x ∈ T.inorder, 8192 ∣ vm.lo x ∧ vm.lo x + vm.len x < 2 ^ 64 := by
    intro x hx
    have hbn := ht.bounds hx
    exact ⟨ht.dvd ha (fun z _ => Nat.dvd_mul_left 8192 _) hx, by omega⟩
  refine (vmAllocAddress_rule hL hpl ?_ ?_ ?_).ensures trivial
  · exact fun _ => ⟨T, F, hL, ht⟩
  · intro x hx _
    refine (vmUseIndex_spec hL hx.mem hx.free).guarded.mono ?_
    rintro ⟨vm', r⟩ ⟨hr, hv, -, F', hL'⟩
    exact ⟨hr, T, F', hL', tiles_setFlags ht hv⟩
  · intro x start hx hat
    have hs := hat.stop
    exact (claimIndex_inv hL ht ha hb hx.mem (hn T hL.tree) hat.lo_le (by omega) hat.dvd
      hat.stop_dvd).guarded

theorem IndexInv.allocRange (h : IndexInv a b vm) (ha : 8192 ∣ a) (hb : b < 2 ^ 64)
    (hn : ∀ T, vm.vmIndex.Represents T → Fresh new₁ new₂ T) (hlt : begin < end_)
    (hend : end_.toNat + 8191 < 2 ^ 64) :
    Ensures (vmAllocRange new₁ new₂ begin end_ vm) fun p => IndexInv a b p.1 := by
  obtain ⟨T, F, hL, ht⟩ := h
  refine (vmFindIndex_spec hL (pageFloor begin)).bind fun r hr => ?_
  cases r with
  | none => exact .ret ⟨T, F, hL, ht⟩
  | some x =>
    obtain ⟨hx, hbs, -⟩ := hr x rfl
    rw [UInt64.lt_iff_toNat_lt] at hlt
    have hf := toNat_pageFloor begin
    have hrn := toNat_pageRoundup hend
    exact claimIndex_inv hL ht ha hb hx (hn T hL.tree) hbs (by omega) (by omega) (by omega)

theorem IndexInv.freeAddress (h : IndexInv a b vm) (hb : b < 2 ^ 64) {vaddr : UInt64}
    (hus : ∃ T x, vm.vmIndex.Represents T ∧ x ∈ T.inorder ∧ (vm.vmi x).inUse ∧ vm.Covers x vaddr) :
    Ensures (vmFreeAddress vaddr vm) fun p => IndexInv a b p.1 := by
  obtain ⟨T, F, hL, ht⟩ := h
  obtain ⟨T', x, hT', hx, hu, hcov⟩ := hus
  obtain rfl := hL.tree.unique hT'
  rw [vmFreeAddress]
  refine (vmFindIndex_spec hL vaddr).bind fun r hr => ?_
  cases r with
  | none => exact .ret ⟨T, F, hL, ht⟩
  | some y =>
    obtain ⟨hy, hbs, ha⟩ := hr y rfl
    -- the index found is the one in use, since no two cover the address
    have hc : vm.lo y ≤ vaddr.toNat ∧ vaddr.toNat < vm.lo y + vm.len y := by
      rcases ha with rfl | ha
      · have := (ht.bounds hy).2.1
        exact ⟨Nat.le_refl _, by simp only [IndexMap.lo]; omega⟩
      · exact (covers_iff ht hb hy).mp ⟨hbs, ha⟩
    obtain rfl := ht.eq_of_covers hx hy ((covers_iff ht hb hx).mp hcov) hc
    refine (vmFreeIndex_spec hL hx hu).bind ?_
    rintro vm' ⟨hv, -, F', hL'⟩
    exact .ret ⟨T, F', hL', tiles_setFlags ht hv⟩

theorem IndexInv.exec (h : IndexInv a b vm) (ha : 8192 ∣ a) (hb : b < 2 ^ 64) {op : IndexOp ν}
    (ho : op.Allowed vm) : Ensures (op.exec vm) (IndexInv a b) := by
  cases op with
  | allocAddress new₁ new₂ pages high =>
    exact (h.allocAddress ha hb ho.2 ho.1 high).bind fun p hp => .ret hp
  | allocRange new₁ new₂ begin end_ =>
    exact (h.allocRange ha hb ho.2.2 ho.1 ho.2.1).bind fun p hp => .ret hp
  | freeAddress vaddr =>
    exact (h.freeAddress hb ho).bind fun p hp => .ret hp

/-! ## Runs -/

theorem vmInsertRange_inv (vm₀ : IndexMap ν) (hb : pageOffset begin = 0)
    (hlt : begin < end_) (hend : end_.toNat + 8191 < 2 ^ 64) :
    Ensures (vmInsertRange new begin end_ (vmSetup2 vm₀)) fun p => p.2 = .ok () →
      IndexInv begin.toNat (pageRoundup end_).toNat p.1 := by
  have hL : Linked (vmSetup2 vm₀) .nil .nil :=
    ⟨⟨rfl, nodup_nil, Nat.zero_le _⟩, ⟨rfl, nodup_nil, Nat.zero_le _⟩, by simp, by simp⟩
  rw [vmInsertRange]
  cases new with
  | none => exact .ret nofun
  | some x =>
    refine (vmInsertIndex_spec hL (by simp) _).bind ?_
    rintro ⟨vm₁, r⟩ ⟨rfl, hv, -, T, F, hL₁, -, hpos⟩
    refine .ret fun _ => ⟨T, F, hL₁, ?_⟩
    dsimp only at hv ⊢
    rw [hpos [] [] rfl (by simp) (by simp)]
    have ho : begin.toNat % 8192 = 0 := by rw [← toNat_pageOffset, hb]; rfl
    rw [UInt64.lt_iff_toNat_lt] at hlt
    have hs : (end_ - begin).toNat = end_.toNat - begin.toNat :=
      UInt64.toNat_sub_of_le _ _ (UInt64.le_iff_toNat_le.mpr hlt.le)
    have hc : vm₁.len x = (end_.toNat - begin.toNat + 8191) / 8192 * 8192 := by
      simp only [IndexMap.len, hv, IndexMap.set_vmi, if_true]
      rw [toNat_pageCount _ (by omega), hs]
    have hl : vm₁.lo x = begin.toNat := by simp [IndexMap.lo, hv]
    refine ⟨hl, by omega, ?_⟩
    rw [Tiles, toNat_pageRoundup hend]
    omega

theorem IndexInv.run {vm₀ vm₁ : IndexMap ν} (hbg : pageOffset begin = 0) (hlt : begin < end_)
    (hend : end_.toNat + 8191 < 2 ^ 64)
    (h₁ : vmInsertRange new begin end_ (vmSetup2 vm₀) = .ok (vm₁, .ok ()))
    {h : List (IndexMap ν × IndexOp ν)} (hr : Run IndexStep vm₁ h vm) :
    8192 ∣ begin.toNat ∧ (pageRoundup end_).toNat < 2 ^ 64 ∧
      IndexInv begin.toNat (pageRoundup end_).toNat vm := by
  have ha : 8192 ∣ begin.toNat := by
    refine Nat.dvd_of_mod_eq_zero ?_
    rw [← toNat_pageOffset, hbg]
    rfl
  have hb := (pageRoundup end_).toNat_lt
  refine ⟨ha, hb, hr.invariant ?_ ?_⟩
  · exact (vmInsertRange_inv vm₀ hbg hlt hend).yields _ h₁ rfl
  · rintro _ vm op vm' - hinv ⟨ho, he⟩
    exact (hinv.exec ha hb ho).yields _ he

/-- **The indices partition the range first inserted**: along every run of allocations and releases,
the indices in `vm_index` are not empty, pairwise disjoint and in the order of their bases, and
cover exactly that range; the nodes of `vm_index_free` are those not in use, each linked once. Every
further allowed operation returns. -/
theorem vm_index_partition {vm₀ vm₁ : IndexMap ν} (hbegin : pageOffset begin = 0)
    (hlt : begin < end_) (hend : end_.toNat + 8191 < 2 ^ 64)
    (h₁ : vmInsertRange new begin end_ (vmSetup2 vm₀) = .ok (vm₁, .ok ()))
    {h : List (IndexMap ν × IndexOp ν)} (hr : Run IndexStep vm₁ h vm) :
    ∃ T F, vm.vmIndex.Represents T ∧ vm.vmIndexFree.Represents F ∧
      (∀ x ∈ T.inorder, ∃ addr, vm.Covers x addr) ∧
      T.inorder.Pairwise (fun x y => (vm.vmi x).vmiBase < (vm.vmi y).vmiBase ∧
        ∀ addr, ¬ (vm.Covers x addr ∧ vm.Covers y addr)) ∧
      (∀ addr, (∃ x ∈ T.inorder, vm.Covers x addr) ↔ begin ≤ addr ∧ addr < pageRoundup end_) ∧
      (∀ x, x ∈ F.inorder ↔ x ∈ T.inorder ∧ ¬ (vm.vmi x).inUse) ∧ F.inorder.Nodup ∧
      ∀ op : IndexOp ν, op.Allowed vm → ∃ vm', IndexStep vm op vm' := by
  obtain ⟨ha, hb, hinv⟩ := IndexInv.run hbegin hlt hend h₁ hr
  obtain ⟨T, F, hL, ht⟩ := hinv
  refine ⟨T, F, hL.tree, hL.free, ?_, ?_, ?_, hL.mem_free, hL.free.nodup, ?_⟩
  · intro x hx
    refine ⟨(vm.vmi x).vmiBase, (covers_iff ht hb hx).mpr ⟨Nat.le_refl _, ?_⟩⟩
    have := (ht.bounds hx).2.1
    simp only [IndexMap.lo]
    omega
  · refine ht.pairwise.imp_of_mem fun {x y} hx hy hxy => ⟨?_, ?_⟩
    · have := (ht.bounds hx).2.1
      rw [UInt64.lt_iff_toNat_lt]
      simp only [IndexMap.lo] at hxy
      omega
    · rintro addr ⟨hc, hcy⟩
      rw [covers_iff ht hb hx] at hc
      rw [covers_iff ht hb hy] at hcy
      omega
  · intro addr
    rw [UInt64.le_iff_toNat_le, UInt64.lt_iff_toNat_lt, ← ht.covers_iff]
    refine exists_congr fun x => and_congr_right fun hx => covers_iff ht hb hx
  · intro op ho
    obtain ⟨vm', hvm', -⟩ := IndexInv.exec ⟨T, F, hL, ht⟩ ha hb ho
    exact ⟨vm', ho, hvm'⟩

/-- A user address space: a page is allocated at its low end, which splits the one index, and
released again. The two indices stay. -/
theorem vm_index_partition_user : ∃ (vm₁ vm₂ vm : IndexMap ℕ) (T : BinaryTree ℕ),
      vmInsertRange (some 0) (userBase + pageSize) userEnd
          (vmSetup2 ⟨fun _ => ⟨0, 0, 0⟩, empty, empty⟩) = .ok (vm₁, .ok ()) ∧
        IndexStep vm₁ (.allocAddress (some 1) (some 2) 1 false) vm₂ ∧
        IndexStep vm₂ (.freeAddress 8192) vm ∧ vm.vmIndex.Represents T ∧ T.inorder = [0, 2] ∧
        ∀ addr, (∃ x ∈ T.inorder, vm.Covers x addr) ↔
          userBase + pageSize ≤ addr ∧ addr < pageRoundup userEnd := by
  let T : BinaryTree ℕ := node 0 nil (node 2 nil nil)
  obtain ⟨vm₁, vm₂, vm, h₁, hs₁, hs₂, hT⟩ : ∃ vm₁ vm₂ vm : IndexMap ℕ,
      vmInsertRange (some 0) (userBase + pageSize) userEnd
        (vmSetup2 ⟨fun _ => ⟨0, 0, 0⟩, empty, empty⟩) = .ok (vm₁, .ok ()) ∧
      IndexStep vm₁ (.allocAddress (some 1) (some 2) 1 false) vm₂ ∧
      IndexStep vm₂ (.freeAddress 8192) vm ∧ vm.vmIndex.Represents T := by
    refine ⟨_, _, _, rfl, ⟨⟨by decide, fun T' hT' => ?_⟩, rfl⟩,
      ⟨⟨T, 0, ⟨⟨rfl, rfl, rfl, rfl, rfl, rfl, rfl⟩, by decide, by decide⟩, by decide,
        by decide +kernel, by decide +kernel, by decide +kernel⟩, rfl⟩,
      ⟨rfl, rfl, rfl, rfl, rfl, rfl, rfl⟩, by decide, by decide⟩
    obtain rfl : T' = node 0 nil nil := hT'.unique ⟨⟨rfl, rfl, rfl, rfl⟩, by decide, by decide⟩
    exact ⟨by decide, by decide, by decide⟩
  obtain ⟨T', -, hT', -, -, -, hu, -⟩ := vm_index_partition rfl (by decide) (by decide) h₁
    ((Run.nil.snoc hs₁).snoc hs₂)
  obtain rfl := hT.unique hT'
  exact ⟨vm₁, vm₂, vm, T, h₁, hs₁, hs₂, hT, rfl, hu⟩

end Glatt
