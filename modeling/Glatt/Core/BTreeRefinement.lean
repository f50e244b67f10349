import Glatt.Core.BTree
import Glatt.Lib.Transition

/-!
# Trees as ordered multisets

A tree kept by `BTREE_INSERT` and `BTREE_REMOVE` under a fixed comparison of keys is a multiset of
nodes in key order. The abstract state is the list of the nodes inserted and not removed, in the
order of their insertion; the tree lists the same nodes in key order.

## Main definitions

* `TreeOp`, `TreeStep`: the operations on a tree, with the nodes that it has
* `Tracks`: the tree lists these nodes in key order

## Main results

* `btree_refines_multiset`: the refinement along every run of operations
* `btree_insert_linked_root`: a lone root has no links either, and inserting it again closes a
  cycle
-/

namespace Glatt

open Imperative BinaryTree LinkedTree Transition List

variable {ν κ : Type} [DecidableEq ν] (key : ν → κ) (lt : κ → κ → Prop) [DecidableRel lt]

/-! ## Operations -/

/-- The operations on a tree. -/
inductive TreeOp (ν : Type)
  | insert (x : ν)
  | remove (x : ν)

/-- A tree, and the nodes inserted and not removed in the order of their insertion. -/
structure TrackedTree (ν : Type) where
  tree : LinkedTree ν
  live : List ν

def TreeOp.exec : TreeOp ν → LinkedTree ν → Outcome (LinkedTree ν)
  | insert x => btreeInsert (fun iter => lt (key x) (key iter)) x
  | remove x => btreeRemove x

def TreeOp.track : TreeOp ν → List ν → List ν
  | insert x, live => live ++ [x]
  | remove x, live => live.erase x

/-- Nodes are inserted when they are not in the tree and have no links, and removed when they are
in the tree. -/
def TreeOp.Allowed (s : TrackedTree ν) : TreeOp ν → Prop
  | insert x => x ∉ s.live ∧ Unlinked s.tree x
  | remove x => x ∈ s.live

def TreeStep (s : TrackedTree ν) (op : TreeOp ν) (s' : TrackedTree ν) : Prop :=
  op.Allowed s ∧ op.exec key lt s.tree = .ok s'.tree ∧ s'.live = op.track s.live

/-- `BTREE_FIND` for the key `k`: the comparison of the insertions, and equality of keys. -/
def findKey (k : κ) (tree : LinkedTree ν) : Outcome (Option ν) :=
  btreeFind (fun iter => lt k (key iter)) (fun iter => SameKey lt k (key iter)) tree

/-! ## The refinement -/

/-- **The tree is the live nodes in key order**: its links form a finite tree that lists each live
node once. -/
def Tracks (s : TrackedTree ν) : Prop :=
  s.live.Nodup ∧ ∃ T, Represents s.tree T ∧ StableSort key lt s.live T.inorder

variable {key lt} {s s' : TrackedTree ν}

omit [DecidableEq ν] in
theorem tracks_empty {tree₀ : LinkedTree ν} (h₀ : tree₀.child = none) : Tracks key lt ⟨tree₀, []⟩ :=
  ⟨nodup_nil, .nil, ⟨h₀, nodup_nil, Nat.zero_le _⟩, StableSort.nil⟩

theorem Tracks.exec_spec [IsStrictWeakOrder κ lt] (h : Tracks key lt s) {op : TreeOp ν}
    (ho : op.Allowed s) :
    Ensures (op.exec key lt s.tree) fun tree' => Tracks key lt ⟨tree', op.track s.live⟩ ∧
      (∀ x, op = .remove x → Unlinked tree' x) ∧
      ∀ z, z ∉ s.live → z ∉ op.track s.live → Unlinked s.tree z → Unlinked tree' z := by
  obtain ⟨hn, T, hT, hsr⟩ := h
  have hmem : ∀ z, z ∈ T.inorder ↔ z ∈ s.live := fun z => hsr.perm.mem_iff
  have hsm : ∀ {tree' z}, SameLinks s.tree tree' z → Unlinked s.tree z → Unlinked tree' z := by
    rintro tree' z ⟨hl, hr, hp⟩ ⟨hl', hr', hp'⟩
    exact ⟨hl.trans hl', hr.trans hr', hp.trans hp'⟩
  cases op with
  | insert x =>
    obtain ⟨hx, hu⟩ := ho
    refine (btreeInsert_spec hT _ (by rwa [hmem]) hu.1 hu.2.1).mono ?_
    rintro tree' ⟨hT', hf⟩
    refine ⟨⟨?_, _, hT', ?_⟩, ?_, ?_⟩
    · have hnd := List.Nodup.concat hx hn
      rwa [concat_eq_append] at hnd
    · -- the insertion turns where the keys get greater than the new one
      obtain ⟨xs, ys, hs, hxs, hy⟩ := StableSort.exists_split hsr.sorted (key x)
      rw [inorder_insert hs (by simpa using hxs) (by simpa using hy)]
      exact (hs ▸ hsr).insert hxs hy
    · rintro _ ⟨⟩
    · intro z hz hz' hzu
      refine hsm (hf z (by rwa [hmem]) ?_) hzu
      rintro rfl
      exact hz' (by simp [TreeOp.track])
  | remove x =>
    refine (btreeRemove_spec hT ((hmem x).mpr ho)).mono ?_
    rintro tree' ⟨⟨T', hT', hin⟩, hu, hf⟩
    refine ⟨⟨hn.erase x, T', hT', ?_⟩, ?_, ?_⟩
    · rw [hin]
      exact hsr.erase hn x
    · rintro _ ⟨⟩
      exact hu
    · intro z hz _ hzu
      exact hsm (hf z (by rwa [hmem])) hzu

theorem Tracks.progress [IsStrictWeakOrder κ lt] (h : Tracks key lt s) {op : TreeOp ν}
    (ho : op.Allowed s) : ∃ s', TreeStep key lt s op s' := by
  obtain ⟨tree', ht', -⟩ := h.exec_spec ho
  exact ⟨⟨tree', op.track s.live⟩, ho, ht', rfl⟩

theorem Tracks.step [IsStrictWeakOrder κ lt] (h : Tracks key lt s) {op : TreeOp ν}
    (hs : TreeStep key lt s op s') :
    Tracks key lt s' ∧ (∀ x, op = .remove x → Unlinked s'.tree x) ∧
      ∀ z, z ∉ s.live → z ∉ s'.live → Unlinked s.tree z → Unlinked s'.tree z := by
  obtain ⟨ho, he, hl⟩ := hs
  have hsp := (h.exec_spec ho).yields _ he
  rwa [← hl] at hsp

omit [DecidableEq ν] in
theorem Tracks.findKey_spec [IsStrictWeakOrder κ lt] (h : Tracks key lt s) (k : κ) :
    Ensures (findKey key lt k s.tree) fun r =>
      (∀ x, r = some x → x ∈ s.live ∧ SameKey lt k (key x)) ∧
        (r = none → ∀ x ∈ s.live, ¬ SameKey lt k (key x)) := by
  obtain ⟨-, T, hT, hs⟩ := h
  refine ⟨_, btreeFind_eq hT _ _, ?_, ?_⟩
  · intro x hx
    obtain ⟨hm, -, hh⟩ := find_mem hx
    exact ⟨hs.perm.mem_iff.mp hm, of_decide_eq_true hh⟩
  · intro hn x hx hk
    have hsm : (T.find (fun a => decide (lt k (key a)))
        fun a => decide (SameKey lt k (key a))).isSome := by
      refine (find_isSome_iff ?_ ?_).mpr ⟨x, hs.perm.mem_iff.mpr hx, decide_eq_true hk⟩
      · refine hs.sorted.imp fun {a b} ha => ?_
        simp only [decide_eq_true_eq]
        refine ⟨fun hka => (StableSort.lt_or_lt hka).resolve_right ha, fun hka => ?_⟩
        by_cases hkb : lt k (key b)
        · exact .inl hkb
        · refine .inr ⟨hkb, fun hb => ?_⟩
          rcases StableSort.lt_or_lt hb with hlt | hlt
          · exact ha hlt
          · exact hka.2 hlt
      · intro a _ hka
        exact decide_eq_false (of_decide_eq_true hka).1
    rw [hn] at hsm
    cases hsm

/-! ## Runs -/

theorem Tracks.run [IsStrictWeakOrder κ lt] {tree₀ : LinkedTree ν} (h₀ : tree₀.child = none)
    {h : List (TrackedTree ν × TreeOp ν)} (hr : Run (TreeStep key lt) ⟨tree₀, []⟩ h s) :
    Tracks key lt s ∧ ∀ t x, (t, TreeOp.remove x) ∈ h → x ∉ s.live → Unlinked s.tree x := by
  refine hr.invariant ⟨tracks_empty h₀, by simp⟩ ?_
  rintro h s op s' - ⟨hs, hrem⟩ hst
  obtain ⟨hs', hu, hf⟩ := hs.step hst
  refine ⟨hs', fun t x hm hx => ?_⟩
  rcases mem_append.mp hm with hm | hm
  · by_cases hl : x ∈ s.live
    · -- the only way out of the tree is to be removed by this very step
      refine hu x ?_
      rw [hst.2.2] at hx
      cases op with
      | insert y => exact absurd (mem_append_left _ hl) hx
      | remove y =>
        by_cases hxy : x = y
        · rw [hxy]
        · exact absurd ((mem_erase_of_ne hxy).mpr hl) hx
    · exact hf x hl hx (hrem t x hm hl)
  · obtain ⟨-, rfl⟩ := Prod.mk.inj (mem_singleton.mp hm)
    exact hu x rfl

variable (key lt)

/-- **The tree macros refine an ordered multiset**: along every run of allowed insertions and
removals the links form a finite tree that lists the live nodes in key order, equal keys in the
order of insertion; removed nodes have no links; searching returns a node with the key, or none if
there is none; and every further allowed operation returns. -/
theorem btree_refines_multiset [IsStrictWeakOrder κ lt] {tree₀ : LinkedTree ν}
    (h₀ : tree₀.child = none) {h : List (TrackedTree ν × TreeOp ν)}
    (hr : Run (TreeStep key lt) ⟨tree₀, []⟩ h s) :
    (∃ T, Represents s.tree T ∧ StableSort key lt s.live T.inorder) ∧
      (∀ t x, (t, TreeOp.remove x) ∈ h → x ∉ s.live → Unlinked s.tree x) ∧
      (∀ k, Ensures (findKey key lt k s.tree) fun r =>
        (∀ x, r = some x → x ∈ s.live ∧ SameKey lt k (key x)) ∧
          (r = none → ∀ x ∈ s.live, ¬ SameKey lt k (key x))) ∧
      ∀ op : TreeOp ν, op.Allowed s → ∃ s', TreeStep key lt s op s' := by
  obtain ⟨hs, hrem⟩ := Tracks.run h₀ hr
  exact ⟨hs.2, hrem, hs.findKey_spec, fun _ ho => hs.progress ho⟩

/-- Two insertions and a removal, each allowed in turn. -/
theorem btree_refines_multiset_insert_insert_remove :
    ∃ h s, Run (TreeStep (id : ℕ → ℕ) (· < ·)) ⟨empty, []⟩ h s ∧ s.live = [1] ∧
      ∃ T, Represents s.tree T ∧ StableSort (id : ℕ → ℕ) (· < ·) s.live T.inorder := by
  have : IsStrictWeakOrder ℕ (· < ·) :=
    { irrefl := Nat.lt_irrefl, trans := fun _ _ _ => Nat.lt_trans,
      incomp_trans := fun a b c => by omega }
  obtain ⟨t₁, h₁, hu⟩ : ∃ t₁, TreeStep (id : ℕ → ℕ) (· < ·) ⟨empty, []⟩ (.insert 2) ⟨t₁, [2]⟩ ∧
      Unlinked t₁ 1 := ⟨_, ⟨⟨by simp, rfl, rfl, rfl⟩, rfl, rfl⟩, rfl, rfl, rfl⟩
  have run₁ := Run.nil.snoc h₁
  obtain ⟨s₂, h₂⟩ := (btree_refines_multiset _ _ rfl run₁).2.2.2 (.insert 1) ⟨by simp, hu⟩
  have run₂ := run₁.snoc h₂
  obtain ⟨s₃, h₃⟩ := (btree_refines_multiset _ _ rfl run₂).2.2.2 (.remove 2)
    (by simp [TreeOp.Allowed, h₂.2.2, TreeOp.track])
  have run₃ := run₂.snoc h₃
  refine ⟨_, _, run₃, ?_, (btree_refines_multiset _ _ rfl run₃).1⟩
  rw [h₃.2.2, h₂.2.2]
  rfl

/-- **A lone root has no links either**: inserting it a second time, which its links do not rule
out, makes it its own child, and the links form no tree any more. -/
theorem btree_insert_linked_root : ∃ t₁ t₂ : LinkedTree ℕ,
      (TreeOp.insert 0).exec (id : ℕ → ℕ) (· < ·) empty = .ok t₁ ∧ Unlinked t₁ 0 ∧
      (TreeOp.insert 0).exec (id : ℕ → ℕ) (· < ·) t₁ = .ok t₂ ∧ ¬ ∃ T, Represents t₂ T := by
  refine ⟨_, _, rfl, ⟨rfl, rfl, rfl⟩, rfl, ?_⟩
  rintro ⟨T, hT⟩
  cases T with
  | nil => cases hT.links
  | node x l r =>
    obtain ⟨hx, hp, -, -⟩ := hT.links
    cases hx
    cases hp

end Glatt
