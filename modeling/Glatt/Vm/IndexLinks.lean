import Glatt.Vm.Index

/-!
# The two trees of an address space

What the operations of `vm_index.c` do to the links: `Linked vm T F` says that all indices form
the tree `T` and that the free ones form the tree `F`, and every operation keeps it. Nothing here
depends on where the indices lie.

## Main definitions

* `Linked`: all indices form a tree, and the free ones another
* `SizeOrdered`: the free ones are in the order of their sizes

## Main results

* `vmFindIndex_spec`, `vmSearchFree_spec`: what the searches find
* `vmInsertIndex_spec`, `vmUseIndex_spec`, `vmFreeIndex_spec`: the operations on one index
* `vmClaimLeader_spec`, `vmClaimTrailer_spec`: the two halves of splitting an index
-/

namespace Glatt

open Imperative BinaryTree LinkedTree List IndexMap

variable {ν : Type} [DecidableEq ν] {vm : IndexMap ν} {T F : BinaryTree ν} {x : ν} {new : Option ν}

/-! ## Contents -/

variable {v : VmIndex}

@[simp] theorem IndexMap.set_vmi (y : ν) : (vm.set x v).vmi y = if y = x then v else vm.vmi y := by
  simp [set, Function.update_apply]

@[simp] theorem IndexMap.set_vmIndex : (vm.set x v).vmIndex = vm.vmIndex := rfl

@[simp] theorem IndexMap.set_vmIndexFree : (vm.set x v).vmIndexFree = vm.vmIndexFree := rfl

section Fields

variable {n pages : UInt64} {flags : UInt32} {y : ν}

theorem IndexMap.setSize_vmi : (vm.setSize x n).vmi y =
    if y = x then { vm.vmi x with vmiSize := n } else vm.vmi y := set_vmi _

theorem IndexMap.setFlags_vmi : (vm.setFlags x flags).vmi y =
    if y = x then { vm.vmi x with vmiFlags := flags } else vm.vmi y := set_vmi _

@[simp] theorem vmiSize_setSize : ((vm.setSize x n).vmi x).vmiSize = n := by
  rw [setSize_vmi, if_pos rfl]

@[simp] theorem vmiBase_setSize : ((vm.setSize x n).vmi y).vmiBase = (vm.vmi y).vmiBase := by
  rw [setSize_vmi]
  split
  · rw [‹y = x›]
  · rfl

@[simp] theorem inUse_setSize : ((vm.setSize x n).vmi y).inUse ↔ (vm.vmi y).inUse := by
  rw [setSize_vmi]
  split
  · rw [‹y = x›]
    rfl
  · rfl

@[simp] theorem vmiSize_setFlags : ((vm.setFlags x flags).vmi y).vmiSize = (vm.vmi y).vmiSize := by
  rw [setFlags_vmi]
  split
  · rw [‹y = x›]
  · rfl

end Fields

variable {pages : UInt64}

theorem not_inUse_default (base : UInt64) : ¬ (VmIndex.mk base pages vmIndexFlagDefault).inUse := by
  simp [VmIndex.inUse, vmIndexFlagDefault]

theorem inUse_or : { v with vmiFlags := v.vmiFlags ||| vmIndexFlagInuse }.inUse := by
  intro h
  have := congrArg (fun f : UInt32 => f.toBitVec.getLsbD 0) h
  simp [vmIndexFlagInuse] at this

theorem not_inUse_and_not : ¬ { v with vmiFlags := v.vmiFlags &&& ~~~ vmIndexFlagInuse }.inUse := by
  simp [VmIndex.inUse, UInt32.and_assoc]

/-! ## Links and flags -/

/-- **The trees of an address space**: all indices are linked in `T`, and the free ones in `F`;
an index in use has no links left over from the tree of free indices. -/
structure Linked (vm : IndexMap ν) (T F : BinaryTree ν) : Prop where
  tree : vm.vmIndex.Represents T
  free : vm.vmIndexFree.Represents F
  mem_free : ∀ x, x ∈ F.inorder ↔ x ∈ T.inorder ∧ ¬ (vm.vmi x).inUse
  unlinked : ∀ x ∈ T.inorder, (vm.vmi x).inUse → vm.vmIndexFree.Unlinked x

section

variable (h : Linked vm T F)
include h

theorem Linked.set {v : VmIndex} (hv : v.vmiFlags = (vm.vmi x).vmiFlags) :
    Linked (vm.set x v) T F := by
  have hf : ∀ y, ((vm.set x v).vmi y).inUse ↔ (vm.vmi y).inUse := by
    intro y
    rw [set_vmi]
    split
    · subst y
      rw [VmIndex.inUse, VmIndex.inUse, hv]
    · rfl
  exact ⟨h.tree, h.free, fun y => by rw [hf]; exact h.mem_free y,
    fun y hy hu => h.unlinked y hy ((hf y).mp hu)⟩

theorem Linked.setSize (size : UInt64) : Linked (vm.setSize x size) T F := h.set rfl

/-! ## Searches -/

omit [DecidableEq ν] in
theorem vmFindIndex_spec (vaddr : UInt64) :
    Ensures (vmFindIndex vaddr vm) fun r => ∀ x, r = some x → x ∈ T.inorder ∧
      (vm.vmi x).vmiBase ≤ vaddr ∧ (vaddr = (vm.vmi x).vmiBase ∨
        vaddr < (vm.vmi x).vmiBase + pageToAddr (vm.vmi x).vmiSize) := by
  refine ⟨_, btreeFind_eq h.tree _ _, fun x hx => ?_⟩
  obtain ⟨hm, hl, hh⟩ := find_mem hx
  have hh := of_decide_eq_true hh
  refine ⟨hm, UInt64.not_lt.mp (of_decide_eq_false hl), ?_⟩
  rcases hh with hh | hh
  · exact .inl hh
  · exact .inr hh.2

def searchOrder (high : Bool) (F : BinaryTree ν) : List ν :=
  if high then F.inorder.reverse else F.inorder

omit h in
omit [DecidableEq ν] in
@[simp] theorem mem_searchOrder {high : Bool} : x ∈ searchOrder high F ↔ x ∈ F.inorder := by
  cases high <;> simp [searchOrder]

omit [DecidableEq ν] in
theorem vmFirstFree_eq (high : Bool) : vmFirstFree high vm = .ok (searchOrder high F).head? := by
  cases high with
  | false => exact btreeMin_eq h.free
  | true => simpa [vmFirstFree, searchOrder] using btreeMax_eq h.free

theorem vmNextFree_eq {high : Bool} {xs ys : List ν}
    (hL : searchOrder high F = xs ++ x :: ys) : vmNextFree high vm x = .ok ys.head? := by
  cases high with
  | false => exact btreeNext_eq h.free hL
  | true =>
    have hF : F.inorder = ys.reverse ++ x :: xs.reverse := by
      rw [← reverse_reverse F.inorder, show F.inorder.reverse = xs ++ x :: ys from hL]
      simp
    simpa [vmNextFree] using btreePrev_eq h.free hF

theorem vmSearchFree_eq (high : Bool) : vmSearchFree pages high vm =
      .ok ((searchOrder high F).find? fun x => ¬ (vm.vmi x).vmiSize < pages) := by
  refine Ensures.eq_ok ?_
  rw [vmSearchFree, vmFirstFree_eq h high]
  -- the indices passed so far are too small
  refine Ensures.loop (I := fun n o => ∃ xs ys, searchOrder high F = xs ++ ys ∧ o = ys.head? ∧
    (∀ z ∈ xs, (vm.vmi z).vmiSize < pages) ∧ ys.length = n)
    ?_ ⟨[], searchOrder high F, rfl, rfl, by simp, rfl⟩ ?_
  · rintro n _ ⟨xs, ys, hL, rfl, hx, rfl⟩
    have hsk : xs.find? (fun x => ¬ (vm.vmi x).vmiSize < pages) = none :=
      find?_eq_none.mpr fun z hz => by simpa using hx z hz
    rw [hL, find?_append, hsk, Option.none_or]
    cases ys with
    | nil => exact .ret rfl
    | cons x ys =>
      simp only [head?_cons]
      split
      · rename_i hs
        rw [vmNextFree_eq h hL]
        refine .ret ⟨ys.length, by simp, xs ++ [x], ys, by simp, rfl, ?_, rfl⟩
        intro z hz
        rcases mem_append.mp hz with hz | hz
        · exact hx z hz
        · rw [mem_singleton.mp hz]
          exact hs
      · rename_i hl
        refine .ret ?_
        simp only [Sum.elim_inr]
        rw [find?_cons_of_pos (by simpa using hl)]
  · have hb := h.free.bound
    rw [← length_inorder] at hb
    cases high <;> simp [searchOrder] <;> omega

/-! ## The order of the free indices -/

instance isStrictWeakOrder_uInt64 : IsStrictWeakOrder UInt64 (· < ·) where
  irrefl := UInt64.lt_irrefl
  trans := fun _ _ _ => UInt64.lt_trans
  incomp_trans := fun a b c => by
    simp only [UInt64.lt_iff_toNat_lt]
    omega

/-- **`vm_index_free` is in search-tree order**: an index has no more pages than those behind it. -/
def SizeOrdered (vm : IndexMap ν) : Prop :=
  ∀ F, vm.vmIndexFree.Represents F →
    F.inorder.Pairwise fun x y => (vm.vmi x).vmiSize ≤ (vm.vmi y).vmiSize

omit h in
omit [DecidableEq ν] in
theorem sizeOrdered_iff (h : vm.vmIndexFree.Represents F) : SizeOrdered vm ↔
    F.inorder.Pairwise fun x y => (vm.vmi x).vmiSize ≤ (vm.vmi y).vmiSize := by
  refine ⟨fun hs => hs F h, fun hs F' hF' => ?_⟩
  obtain rfl := h.unique hF'
  exact hs

omit h in
omit [DecidableEq ν] in
theorem pairwise_insert (size : ν → UInt64) {before : ν → Bool}
    (ho : F.inorder.Pairwise fun x y => size x ≤ size y)
    (hb : ∀ z ∈ F.inorder, before z = decide (size x < size z)) :
    (F.insert before x).inorder.Pairwise fun x y => size x ≤ size y := by
  have hsr : F.inorder.Pairwise fun a b => ¬ size b < size a := ho.imp UInt64.not_lt.mpr
  obtain ⟨xs, ys, hs, hx, hy⟩ : ∃ xs ys, F.inorder = xs ++ ys ∧
      (∀ a ∈ xs, ¬ size x < size a) ∧ ∀ a ∈ ys, size x < size a :=
    StableSort.exists_split hsr (size x)
  have hst : StableSort size (· < ·) F.inorder (xs ++ ys) := hs ▸ ⟨.refl _, hsr, fun _ => rfl⟩
  rw [inorder_insert hs ?_ ?_]
  · exact (hst.insert hx hy).sorted.imp UInt64.not_lt.mp
  · intro z hz
    rw [hb z (by simp [hs, hz]), decide_eq_false (hx z hz)]
  · intro z hz
    rw [hb z (by simp [hs, hz]), decide_eq_true (hy z hz)]

/-! ## Operations on one index -/

def InsertedAt (vmi : ν → VmIndex) (base : UInt64) (x : ν) (T T' : BinaryTree ν) : Prop :=
  (∀ z, z ∈ T'.inorder ↔ z = x ∨ z ∈ T.inorder) ∧
    ∀ xs ys, T.inorder = xs ++ ys → (∀ z ∈ xs, (vmi z).vmiBase ≤ base) →
      (∀ z ∈ ys, base < (vmi z).vmiBase) → T'.inorder = xs ++ x :: ys

omit h in
omit [DecidableEq ν] in
theorem InsertedAt.mem_or {vmi : ν → VmIndex} {base : UInt64} {T' : BinaryTree ν}
    (h : InsertedAt vmi base x T T') (hn : new = some x) :
    ∀ z ∈ T'.inorder, z ∈ T.inorder ∨ new = some z := by
  intro z hz
  rcases (h.1 z).mp hz with rfl | hz
  · exact .inr hn
  · exact .inl hz

theorem vmInsertIndex_spec (hx : x ∉ T.inorder) (base : UInt64) :
    Ensures (vmInsertIndex (some x) base pages vm) fun p => p.2 = .ok x ∧
      p.1.vmi = (vm.set x ⟨base, pages, vmIndexFlagDefault⟩).vmi ∧
      (SizeOrdered vm → SizeOrdered p.1) ∧
      ∃ T' F', Linked p.1 T' F' ∧ InsertedAt vm.vmi base x T T' := by
  have hxF : x ∉ F.inorder := fun hm => hx ((h.mem_free x).mp hm).1
  have hne : ∀ {z}, z ∈ T.inorder → z ≠ x := fun hz e => hx (e ▸ hz)
  rw [vmInsertIndex]
  refine (btreeInsert_spec (h.free.clear hxF) _ hxF (by simp) (by simp)).bind ?_
  rintro free ⟨hf, hfr⟩
  refine (btreeInsert_spec (h.tree.clear hx) _ hx (by simp) (by simp)).bind ?_
  rintro index ⟨hin, -⟩
  refine .ret ⟨rfl, rfl, fun hs => ?_, _, _, ⟨hin, hf, ?_, ?_⟩, ?_, ?_⟩
  · refine (sizeOrdered_iff hf).mpr (pairwise_insert _ ?_ fun z _ => rfl)
    refine (hs F h.free).imp_of_mem fun {y z} hy hz hyz => ?_
    rw [set_vmi, set_vmi, if_neg fun e : y = x => hxF (e ▸ hy),
      if_neg fun e : z = x => hxF (e ▸ hz)]
    exact hyz
  · intro z
    rw [mem_inorder_insert, mem_inorder_insert, h.mem_free]
    by_cases hzx : z = x
    · simp [hzx, not_inUse_default]
    · simp [hzx]
  · intro z hz hu
    rw [mem_inorder_insert] at hz
    rw [set_vmi] at hu
    by_cases hzx : z = x
    · rw [if_pos hzx] at hu
      exact absurd hu (not_inUse_default _)
    · rw [if_neg hzx] at hu
      have hz := hz.resolve_left hzx
      obtain ⟨hl, hr, hp⟩ := hfr z (fun hm => ((h.mem_free z).mp hm).2 hu) hzx
      obtain ⟨hl', hr', hp'⟩ := h.unlinked z hz hu
      simp only [clear_left, clear_right, clear_parent, hzx] at hl hr hp
      exact ⟨hl.trans hl', hr.trans hr', hp.trans hp'⟩
  · intro z
    exact mem_inorder_insert
  · intro xs ys hT hxs hys
    refine inorder_insert hT ?_ ?_
    · intro z hz
      have hzx : z ≠ x := hne (by simp [hT, hz])
      simpa [hzx] using hxs z hz
    · intro z hz
      have hzx : z ≠ x := hne (by simp [hT, hz])
      simpa [hzx] using hys z hz

theorem vmUseIndex_spec (hx : x ∈ T.inorder) (hfr : ¬ (vm.vmi x).inUse) :
    Ensures (vmUseIndex x vm) fun p => p.2 = .ok () ∧
      p.1.vmi = (vm.setFlags x ((vm.vmi x).vmiFlags ||| vmIndexFlagInuse)).vmi ∧
      (SizeOrdered vm → SizeOrdered p.1) ∧ ∃ F', Linked p.1 T F' := by
  rw [vmUseIndex]
  refine (btreeRemove_spec h.free ((h.mem_free x).mpr ⟨hx, hfr⟩)).bind ?_
  rintro free ⟨⟨F', hF', hin⟩, hun, hf⟩
  refine .ret ⟨rfl, rfl, fun hs => ?_, F', h.tree, hF', ?_, ?_⟩
  · refine (sizeOrdered_iff hF').mpr ?_
    rw [hin]
    simp only [vmiSize_setFlags]
    exact (hs F h.free).sublist erase_sublist
  · intro z
    rw [hin, h.free.nodup.mem_erase_iff, h.mem_free, setFlags_vmi]
    by_cases hzx : z = x
    · simp [hzx, inUse_or]
    · simp [hzx]
  · intro z hz hu
    by_cases hzx : z = x
    · exact hzx ▸ hun
    · rw [setFlags_vmi, if_neg hzx] at hu
      obtain ⟨hl, hr, hp⟩ := hf z fun hm => ((h.mem_free z).mp hm).2 hu
      obtain ⟨hl', hr', hp'⟩ := h.unlinked z hz hu
      exact ⟨hl.trans hl', hr.trans hr', hp.trans hp'⟩

theorem vmFreeIndex_spec (hx : x ∈ T.inorder) (hus : (vm.vmi x).inUse) :
    Ensures (vmFreeIndex x vm) fun vm' =>
      vm'.vmi = (vm.setFlags x ((vm.vmi x).vmiFlags &&& ~~~ vmIndexFlagInuse)).vmi ∧
      (SizeOrdered vm → SizeOrdered vm') ∧ ∃ F', Linked vm' T F' := by
  have hxF : x ∉ F.inorder := fun hm => ((h.mem_free x).mp hm).2 hus
  obtain ⟨hl, hr, -⟩ := h.unlinked x hx hus
  rw [vmFreeIndex]
  refine (btreeInsert_spec h.free _ hxF hl hr).bind ?_
  rintro free ⟨hf, hfr⟩
  refine .ret ⟨rfl, fun hs => ?_, _, h.tree, hf, ?_, ?_⟩
  · refine (sizeOrdered_iff hf).mpr (pairwise_insert _ ?_ fun z _ => rfl)
    simp only [vmiSize_setFlags]
    exact hs F h.free
  · intro z
    rw [mem_inorder_insert, h.mem_free, setFlags_vmi]
    by_cases hzx : z = x
    · simp [hzx, hx, not_inUse_and_not]
    · simp [hzx]
  · intro z hz hu
    rw [setFlags_vmi] at hu
    by_cases hzx : z = x
    · rw [if_pos hzx] at hu
      exact absurd hu not_inUse_and_not
    · rw [if_neg hzx] at hu
      obtain ⟨hl, hr, hp⟩ := hfr z (fun hm => ((h.mem_free z).mp hm).2 hu) hzx
      obtain ⟨hl', hr', hp'⟩ := h.unlinked z hz hu
      exact ⟨hl.trans hl', hr.trans hr', hp.trans hp'⟩

/-! ## Splitting an index -/

theorem vmClaimLeader_spec
    (hn : ∀ n, new = some n → n ∉ T.inorder) (begin range leader size : UInt64) :
    Ensures (vmClaimLeader new begin range leader size x vm) fun p =>
      (leader = 0 ∧ p.2 = .ok x ∧ p.1 = vm.setSize x (addrToPage range)) ∨
      (leader ≠ 0 ∧ new = none ∧ p.2 = .error .exhausted ∧
        p.1 = (vm.setSize x (addrToPage leader)).setSize x (addrToPage size)) ∨
      ∃ n, leader ≠ 0 ∧ new = some n ∧ p.2 = .ok n ∧
        p.1.vmi = ((vm.setSize x (addrToPage leader)).set n
          ⟨begin, addrToPage range, vmIndexFlagDefault⟩).vmi ∧
        (SizeOrdered (vm.setSize x (addrToPage leader)) → SizeOrdered p.1) ∧
        ∃ T' F', Linked p.1 T' F' ∧ InsertedAt vm.vmi begin n T T' := by
  rw [vmClaimLeader]
  by_cases hl : leader = 0
  · rw [if_neg (by simpa using hl)]
    exact .ret (.inl ⟨hl, rfl, rfl⟩)
  · rw [if_pos hl]
    cases new with
    | none => exact .ret (.inr (.inl ⟨hl, rfl, rfl, rfl⟩))
    | some n =>
      refine (vmInsertIndex_spec (h.setSize _) (hn n rfl) _).bind ?_
      rintro ⟨vm', r⟩ ⟨rfl, hv, hs, T', F', hL, hmem, hpos⟩
      refine .ret (.inr (.inr ⟨n, hl, rfl, rfl, hv, hs, T', F', hL, hmem, ?_⟩))
      -- the bases are those from before the cut
      simpa only [vmiBase_setSize] using hpos

theorem vmClaimTrailer_spec (hn : ∀ n, new = some n → n ∉ T.inorder) (end_ trailer : UInt64) :
    Ensures (vmClaimTrailer new end_ trailer x vm) fun p =>
      (trailer = 0 ∧ p.2 = .ok () ∧ p.1 = vm) ∨
      (trailer ≠ 0 ∧ new = none ∧ p.2 = .error .exhausted ∧
        p.1 = vm.setSize x ((vm.vmi x).vmiSize + addrToPage trailer)) ∨
      ∃ n, trailer ≠ 0 ∧ new = some n ∧ p.2 = .ok () ∧
        p.1.vmi = (vm.set n ⟨end_, addrToPage trailer, vmIndexFlagDefault⟩).vmi ∧
        (SizeOrdered vm → SizeOrdered p.1) ∧
        ∃ T' F', Linked p.1 T' F' ∧ InsertedAt vm.vmi end_ n T T' := by
  rw [vmClaimTrailer]
  by_cases ht : trailer = 0
  · rw [if_neg (by simpa using ht)]
    exact .ret (.inl ⟨ht, rfl, rfl⟩)
  · rw [if_pos ht]
    cases new with
    | none => exact .ret (.inr (.inl ⟨ht, rfl, rfl, rfl⟩))
    | some n =>
      refine (vmInsertIndex_spec h (hn n rfl) _).bind ?_
      rintro ⟨vm', r⟩ ⟨rfl, hv, hL⟩
      exact .ret (.inr (.inr ⟨n, ht, rfl, rfl, hv, hL⟩))

end

end Glatt
