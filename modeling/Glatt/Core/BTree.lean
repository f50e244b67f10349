import Glatt.Lib.LinkedTree
import Glatt.Lib.Outcome

/-!
# The tree macros

The macros of `btree.h`, on the links of one tree: the `field` of a macro selects the link
columns, and its `cmp` and `match` expressions are evaluated at the node `iter` is at. Their loops
run as long as the tree's bound allows.

## Main definitions

* `btreeInsert`, `btreeRemove`, `btreeFind`: the operations on a tree
* `btreeNext`, `btreePrev`, `btreeForeach`: the walks

## Main results

* `btree_traversal`: the walks upwards and downwards visit each linked node once, and end
-/

namespace Glatt

open Imperative BinaryTree LinkedTree List

variable {ν : Type} {tree : LinkedTree ν} {T : BinaryTree ν}

/-! ## Search, minimum and maximum

The descents follow the shape: the invariant of each loop is that `iter` is the root of a subtree
on which the descent of the shape continues. -/

def btreeFind (cmp hit : ν → Bool) (tree : LinkedTree ν) : Outcome (Option ν) :=
  match tree.child with
  | none => pure none
  | some iter => loop (fun iter =>
      if cmp iter then
        match tree.left iter with
        | none => pure (.inr none)
        | some l => pure (.inl l)
      else if hit iter then pure (.inr (some iter))
      else
        match tree.right iter with
        | none => pure (.inr none)
        | some r => pure (.inl r)) tree.bound iter

def btreeMinSub (tree : LinkedTree ν) : Option ν → Outcome (Option ν)
  | none => pure none
  | some top => loop (fun var =>
      match tree.left var with
      | none => pure (.inr (some var))
      | some l => pure (.inl l)) tree.bound top

def btreeMin (tree : LinkedTree ν) : Outcome (Option ν) := btreeMinSub tree tree.child

def btreeMaxSub (tree : LinkedTree ν) : Option ν → Outcome (Option ν)
  | none => pure none
  | some top => loop (fun var =>
      match tree.right var with
      | none => pure (.inr (some var))
      | some r => pure (.inl r)) tree.bound top

def btreeMax (tree : LinkedTree ν) : Outcome (Option ν) := btreeMaxSub tree tree.child

theorem btreeFind_eq (h : Represents tree T) (cmp hit : ν → Bool) :
    btreeFind cmp hit tree = .ok (T.find cmp hit) := by
  cases T with
  | nil =>
    have : tree.child = none := h.links
    simp [btreeFind, this, find, pure, Except.pure]
  | node x l r =>
    have hx : tree.child = some x := h.links.1
    have hb := h.bound
    simp only [numNodes] at hb
    refine Ensures.eq_ok ?_
    simp only [btreeFind, hx]
    refine Ensures.loop (I := fun n iter => ∃ p l' r',
      Subtree tree p (some iter) (node iter l' r') ∧
      (node iter l' r').find cmp hit = (node x l r).find cmp hit ∧ l'.numNodes + r'.numNodes = n)
      ?_ ⟨none, l, r, hx ▸ h.links, rfl, rfl⟩ (by omega)
    rintro n iter ⟨p, l', r', ⟨-, -, hl, hr⟩, hf, rfl⟩
    rw [← hf, find]
    by_cases hc : cmp iter
    · simp only [hc, if_true]
      cases l' with
      | nil => rw [show tree.left iter = none from hl]; simp [find]
      | node y a b =>
        have e := hl.1
        rw [e] at hl ⊢
        simp only [ensures_pure]
        exact ⟨_, by simp only [numNodes]; omega, _, a, b, hl, rfl, rfl⟩
    · by_cases hh : hit iter
      · simp [hc, hh]
      · simp only [hc, hh]
        cases r' with
        | nil => rw [show tree.right iter = none from hr]; simp [find]
        | node y a b =>
          have e := hr.1
          rw [e] at hr ⊢
          simp only [Bool.false_eq_true, if_false, ensures_pure]
          exact ⟨_, by simp only [numNodes]; omega, _, a, b, hr, rfl, rfl⟩

theorem btreeMinSub_eq {p o : Option ν} (h : Subtree tree p o T)
    (hb : T.numNodes ≤ tree.bound) : btreeMinSub tree o = .ok T.inorder.head? := by
  cases T with
  | nil =>
    obtain rfl : o = none := h
    rfl
  | node x l r =>
    have ho := h.1
    subst ho
    simp only [numNodes] at hb
    refine Ensures.eq_ok ?_
    refine Ensures.loop (I := fun n var => ∃ p l' r', Subtree tree p (some var) (node var l' r') ∧
      (node var l' r').inorder.head? = (node x l r).inorder.head? ∧ l'.numNodes = n)
      ?_ ⟨p, l, r, h, rfl, rfl⟩ (by omega)
    rintro n var ⟨p, l', r', ⟨-, -, hl, -⟩, hf, rfl⟩
    rw [← hf]
    cases l' with
    | nil => rw [show tree.left var = none from hl]; simp
    | node y a b =>
      have e := hl.1
      rw [e] at hl ⊢
      simp only [ensures_pure]
      refine ⟨_, by simp only [numNodes]; omega, _, a, b, hl, ?_, rfl⟩
      rw [inorder_node (x := var), head?_append_of_ne_nil _ (by simp)]

theorem btreeMaxSub_eq {p o : Option ν} (h : Subtree tree p o T)
    (hb : T.numNodes ≤ tree.bound) : btreeMaxSub tree o = .ok T.inorder.getLast? := by
  cases T with
  | nil =>
    obtain rfl : o = none := h
    rfl
  | node x l r =>
    have ho := h.1
    subst ho
    simp only [numNodes] at hb
    refine Ensures.eq_ok ?_
    refine Ensures.loop (I := fun n var => ∃ p l' r', Subtree tree p (some var) (node var l' r') ∧
      (node var l' r').inorder.getLast? = (node x l r).inorder.getLast? ∧ r'.numNodes = n)
      ?_ ⟨p, l, r, h, rfl, rfl⟩ (by omega)
    rintro n var ⟨p, l', r', ⟨-, -, -, hr⟩, hf, rfl⟩
    rw [← hf]
    cases r' with
    | nil => rw [show tree.right var = none from hr]; simp
    | node y a b =>
      have e := hr.1
      rw [e] at hr ⊢
      simp only [ensures_pure]
      refine ⟨_, by simp only [numNodes]; omega, _, a, b, hr, ?_, rfl⟩
      rw [inorder_node (x := var), ← singleton_append, ← append_assoc,
        getLast?_append_of_ne_nil _ (by simp)]

theorem btreeMin_eq (h : Represents tree T) : btreeMin tree = .ok T.inorder.head? :=
  btreeMinSub_eq h.links h.bound

theorem btreeMax_eq (h : Represents tree T) : btreeMax tree = .ok T.inorder.getLast? :=
  btreeMaxSub_eq h.links h.bound

variable [DecidableEq ν]

/-! ## Insertion -/

def btreeInsertSub (cmp : ν → Bool) (var iter : ν) (tree : LinkedTree ν) : Outcome (LinkedTree ν) :=
  loop (fun iter =>
    if cmp iter then
      match tree.left iter with
      | none => pure (.inr ((tree.setLeft iter (some var)).setParent var (some iter)))
      | some l => pure (.inl l)
    else
      match tree.right iter with
      | none => pure (.inr ((tree.setRight iter (some var)).setParent var (some iter)))
      | some r => pure (.inl r)) tree.bound iter

def btreeInsert (cmp : ν → Bool) (var : ν) (tree : LinkedTree ν) : Outcome (LinkedTree ν) := do
  let tree ← match tree.child with
    | none => pure ((tree.setChild (some var)).setParent var none)
    | some iter => btreeInsertSub cmp var iter tree
  pure tree.grow

variable {c : List (Frame ν)} {x : ν}

theorem fill_spec (h : Represents tree (plug c .nil)) (hx : x ∉ (plug c .nil).inorder)
    (hl : tree.left x = none) (hr : tree.right x = none) :
    let tree' := ((tree.setSlot (slot c) (some x)).setParent x (above c)).grow
    Represents tree' (plug c (.node x .nil .nil)) ∧
      ∀ z, z ∉ (plug c .nil).inorder → z ≠ x → SameLinks tree tree' z := by
  refine ⟨h.fill hx hl hr, fun z hz hzx => ?_⟩
  have := setSlot_sameLinks (t := tree) (fun hm => hz (mem_plug.mpr (.inl hm))) (some x)
  simpa [SameLinks, hzx] using this

theorem btreeInsert_spec (h : Represents tree T) (cmp : ν → Bool) (hx : x ∉ T.inorder)
    (hl : tree.left x = none) (hr : tree.right x = none) :
    Ensures (btreeInsert cmp x tree) fun tree' => Represents tree' (T.insert cmp x) ∧
      ∀ z, z ∉ T.inorder → z ≠ x → SameLinks tree tree' z := by
  cases T with
  | nil =>
    have hc : tree.child = none := h.links
    simp only [btreeInsert, hc]
    exact .ret (fill_spec (c := []) h hx hl hr)
  | node y l r =>
    have hy : tree.child = some y := h.links.1
    have hb := h.bound
    simp only [numNodes] at hb
    simp only [btreeInsert, hy]
    -- the subtree at `iter` is in a context
    refine Ensures.bind ?_ fun t₁ h₁ => .ret h₁
    refine Ensures.loop (I := fun n iter => ∃ c l' r', plug c (node iter l' r') = node y l r ∧
      plug c ((node iter l' r').insert cmp x) = (node y l r).insert cmp x ∧
      l'.numNodes + r'.numNodes = n) ?_ ⟨[], l, r, rfl, rfl, rfl⟩ (by omega)
    rintro n iter ⟨c, l', r', hT, hI, rfl⟩
    rw [← hI, ← hT, BinaryTree.insert]
    rw [← hT] at h hx
    obtain ⟨o, -, -, -, hs, hsr⟩ := subtree_plug_iff.mp h.links
    by_cases hc : cmp iter
    · simp only [hc]
      cases l' with
      | nil =>
        rw [show tree.left iter = none from hs]
        exact .ret (fill_spec (c := .left iter r' :: c) h hx hl hr)
      | node z a b =>
        rw [hs.1]
        refine .ret ⟨_, ?_, .left iter r' :: c, a, b, rfl, ?_, rfl⟩
        · simp only [numNodes]
          omega
        · simp [plug]
    · simp only [hc]
      cases r' with
      | nil =>
        rw [show tree.right iter = none from hsr]
        exact .ret (fill_spec (c := .right iter l' :: c) h hx hl hr)
      | node z a b =>
        rw [hsr.1]
        refine .ret ⟨_, ?_, .right iter l' :: c, a, b, rfl, ?_, rfl⟩
        · simp only [numNodes]
          omega
        · simp [plug]

/-! ## Removal -/

/-- `BTREE_REMOVE_SUB`: the slot `dst` takes the only child of `var`, or its right child with the
left one hung under the minimum of the right one; then the links of `var` are cleared. -/
def btreeRemoveSub (var : ν) (dst : Slot ν) (tree : LinkedTree ν) : Outcome (LinkedTree ν) := do
  let tree ← match tree.left var, tree.right var with
    | none, none => pure (tree.setSlot dst none)
    | none, some iter => pure ((tree.setSlot dst (some iter)).setParent iter (tree.parent var))
    | some iter, none => pure ((tree.setSlot dst (some iter)).setParent iter (tree.parent var))
    | some _, some iter => do
      let tree := (tree.setSlot dst (some iter)).setParent iter (tree.parent var)
      match ← btreeMinSub tree (tree.right var) with
      | none => .error .fault
      | some iter =>
        let tree := tree.setLeft iter (tree.left var)
        match tree.left var with
        | none => .error .fault
        | some l => pure (tree.setParent l (some iter))
  pure (tree.clear var)

theorem clear_spec {S S' : BinaryTree ν} {t : LinkedTree ν} {o : Option ν}
    (h : Represents tree (plug c S)) (hx : x ∈ S.inorder) (hS : S'.inorder = S.inorder.erase x)
    (hb : t.bound = tree.bound) (hA : Around t c o) (hs : Subtree t (above c) o S')
    (hf : ∀ z, z ∉ (plug c S).inorder → SameLinks tree t z) :
    (∃ T', Represents (t.clear x) T' ∧ T'.inorder = (plug c S).inorder.erase x) ∧
      Unlinked (t.clear x) x ∧
      ∀ z, z ∉ (plug c S).inorder → SameLinks tree (t.clear x) z := by
  have hxc : x ∉ around c := fun hm => not_mem_of_mem_around h.nodup hm hx
  have hn : (front c ++ S.inorder ++ back c).Nodup := inorder_plug ▸ h.nodup
  have hxS : x ∉ S'.inorder := by
    rw [hS]
    exact (nodup_append.mp (nodup_append.mp hn).1).2.1.not_mem_erase
  have hc : ∀ {y}, y ≠ x → SameLinks t (t.clear x) y := fun hy => by simp [SameLinks, hy]
  have hsl : (plug c S').inorder.Sublist (plug c S).inorder := by
    rw [inorder_plug, inorder_plug, hS]
    exact (erase_sublist.append_left _).append_right _
  refine ⟨⟨plug c S', ⟨subtree_plug_iff.mpr ⟨o, ?_, ?_⟩, h.nodup.sublist hsl, ?_⟩, ?_⟩,
    by simp [Unlinked], ?_⟩
  · exact hA.congr rfl fun y hy => hc fun e => hxc (e ▸ hy)
  · exact hs.congr fun y hy => hc fun e => hxS (e ▸ hy)
  · have := hsl.length_le
    rw [length_inorder, length_inorder] at this
    exact Nat.le_trans this (by simpa [hb] using h.bound)
  · have hxf : x ∉ front c := fun hm => hxc (mem_append_left _ hm)
    rw [inorder_plug, inorder_plug, hS, erase_append_left _ (mem_append_right _ hx),
      erase_append_right _ hxf]
  · intro z hz
    have hzx : z ≠ x := fun e => hz (mem_plug.mpr (.inr (e ▸ hx)))
    simpa [SameLinks, hzx] using hf z hz

theorem btreeRemoveSub_spec {l r : BinaryTree ν} (h : Represents tree (plug c (node x l r))) :
    Ensures (btreeRemoveSub x (slot c) tree) fun tree' =>
      (∃ T', Represents tree' T' ∧ T'.inorder = (plug c (node x l r)).inorder.erase x) ∧
        Unlinked tree' x ∧ ∀ z, z ∉ (plug c (node x l r)).inorder → SameLinks tree tree' z := by
  obtain ⟨o, hA, rfl, hp, hl, hr⟩ := subtree_plug_iff.mp h.links
  have hc := around_of_plug_nodup h.nodup
  have hd : ∀ z ∈ l.inorder, z ∉ around c :=
    fun z hz hm => not_mem_of_mem_around h.nodup hm (by simp [hz])
  have hdr : ∀ z ∈ r.inorder, z ∉ around c :=
    fun z hz hm => not_mem_of_mem_around h.nodup hm (by simp [hz])
  have hn : (l.inorder ++ x :: r.inorder).Nodup :=
    (nodup_append.mp (nodup_append.mp (inorder_plug ▸ h.nodup)).1).2.1
  obtain ⟨hnl, hnxr, hlr⟩ := nodup_append.mp hn
  obtain ⟨hxr, hnr⟩ := nodup_cons.mp hnxr
  have hxl : x ∉ l.inorder := fun hm => hlr x hm x (by simp) rfl
  have he : (hang l r).inorder = (node x l r).inorder.erase x := by
    rw [inorder_hang, inorder_node, erase_append_right _ hxl, erase_cons_head]
  have hx : x ∈ (node x l r).inorder := by simp
  have hf : ∀ z, z ∉ (plug c (node x l r)).inorder → ∀ o,
      SameLinks tree (tree.setSlot (slot c) o) z :=
    fun z hz o => setSlot_sameLinks (fun hm => hz (mem_plug.mpr (.inl hm))) o
  -- only `x` has children to move: split on which of them are there
  cases l with
  | nil =>
    have el : tree.left x = none := hl
    cases r with
    | nil =>
      have er : tree.right x = none := hr
      simp only [btreeRemoveSub, el, er]
      exact .ret (clear_spec h hx he (by simp) (hA.setSlot hc none) rfl fun z hz => hf z hz none)
    | node y a b =>
      have er := hr.1
      rw [er] at hr
      obtain ⟨hA', hS⟩ := hA.promote hc hr hnr hdr
      simp only [btreeRemoveSub, el, er, hp]
      refine .ret (clear_spec h hx he (by simp) hA' ?_ fun z hz => ?_)
      · rwa [hang_nil_left]
      · have hzy : z ≠ y := fun e => hz (mem_plug.mpr (.inr (by simp [e])))
        simpa [SameLinks, hzy] using hf z hz (some y)
  | node w u v =>
    have el := hl.1
    rw [el] at hl
    cases r with
    | nil =>
      have er : tree.right x = none := hr
      obtain ⟨hA', hS⟩ := hA.promote hc hl hnl hd
      simp only [btreeRemoveSub, el, er, hp]
      refine .ret (clear_spec h hx he (by simp) hA' hS fun z hz => ?_)
      have hzw : z ≠ w := fun e => hz (mem_plug.mpr (.inr (by simp [e])))
      simpa [SameLinks, hzw] using hf z hz (some w)
    | node y a b =>
      have er := hr.1
      rw [er] at hr
      obtain ⟨hA', hS⟩ := hA.promote hc hr hnr hdr
      obtain ⟨m, hm⟩ : ∃ m, (node y a b).inorder.head? = some m :=
        Option.isSome_iff_exists.mp (by simp)
      have hmr := mem_of_mem_head? hm
      have hw : w ∈ (node w u v).inorder := by simp
      have hne : ∀ z ∈ (node w u v).inorder, ∀ z' ∈ (node y a b).inorder, z ≠ z' :=
        fun z hz z' hz' => hlr z hz z' (mem_cons_of_mem _ hz')
      have hxm : x ≠ m := fun e => hxr (e ▸ hmr)
      have hxc : x ∉ around c := fun hm => not_mem_of_mem_around h.nodup hm hx
      obtain ⟨exl, exr, -⟩ := setSlot_sameLinks (t := tree) hxc (some y)
      simp only [btreeRemoveSub, el, er, hp, setParent_right, exr]
      rw [btreeMinSub_eq hS ?_, hm]
      · simp only [ok_bind, setLeft_left, setParent_left, exl, el, hxm]
        refine .ret (clear_spec h hx he (by simp) (o := some y) ?_ ?_ ?_)
        · refine hA'.congr rfl fun z hz => ?_
          have hzm : z ≠ m := fun e => hdr m hmr (e ▸ hz)
          have hzw : z ≠ w := fun e => hd w hw (e ▸ hz)
          simp [SameLinks, hzm, hzw]
        · -- the left child keeps its links until it is hung under `m`
          have hL : Subtree ((tree.setSlot (slot c) (some y)).setParent y (above c)) (some x)
              (some w) (node w u v) := by
            refine hl.congr fun z hz => ?_
            have hzy : z ≠ y := hne z hz y (by simp)
            have := setSlot_sameLinks (t := tree) (hd z hz) (some y)
            simpa [SameLinks, hzy] using this
          refine hS.hang hL ?_ hm ?_ ?_ ?_ ?_ ?_
          · exact nodup_append.mpr ⟨hnl, hnr, hne⟩
          · intro z hz
            simp [hz]
          · intro z
            simp
          · intro z hz
            have hzw : z ≠ w := fun e => hz (congrArg some e)
            simp [hzw]
          · simp
          · rintro z ⟨⟩
            simp
        · intro z hz
          have hmem : ∀ {z'}, z' ∈ (node x (node w u v) (node y a b)).inorder → z ≠ z' :=
            fun hz' e => hz (mem_plug.mpr (.inr (e ▸ hz')))
          have hzm : z ≠ m := hmem (mem_append_right _ (mem_cons_of_mem _ hmr))
          have hzw : z ≠ w := hmem (by simp)
          have hzy : z ≠ y := hmem (by simp)
          simpa [SameLinks, hzm, hzw, hzy] using hf z hz (some y)
      · have hb := h.bound
        have := numNodes_plug c (node x (node w u v) (node y a b))
        simp only [numNodes, setParent_bound, setSlot_bound] at this ⊢
        omega

def btreeRemove (var : ν) (tree : LinkedTree ν) : Outcome (LinkedTree ν) :=
  if tree.child = some var then btreeRemoveSub var .root tree
  else match tree.parent var with
    | none => .error .fault
    | some p =>
      if tree.left p = some var then btreeRemoveSub var (.left p) tree
      else btreeRemoveSub var (.right p) tree

theorem btreeRemove_eq_sub {l r : BinaryTree ν} (h : Represents tree (plug c (node x l r))) :
    btreeRemove x tree = btreeRemoveSub x (slot c) tree := by
  obtain ⟨o, hA, rfl, hp, -, -⟩ := subtree_plug_iff.mp h.links
  have hx : x ∉ around c := fun hm => not_mem_of_mem_around h.nodup hm (by simp)
  rcases c with _ | ⟨f, c⟩
  · exact if_pos hA
  · have hr : tree.child ≠ some x := fun e => hx (hA.child_mem (by simp) e)
    rw [btreeRemove, if_neg hr, hp]
    cases f with
    | left p r' => exact if_pos hA.1
    | right p l' => exact if_neg (h.left_ne (by simp))

theorem btreeRemove_spec (h : Represents tree T) (hx : x ∈ T.inorder) :
    Ensures (btreeRemove x tree) fun tree' =>
      (∃ T', Represents tree' T' ∧ T'.inorder = T.inorder.erase x) ∧ Unlinked tree' x ∧
        ∀ z, z ∉ T.inorder → SameLinks tree tree' z := by
  obtain ⟨c, l, r, rfl⟩ := exists_plug_of_mem hx
  rw [btreeRemove_eq_sub h]
  exact btreeRemoveSub_spec h

/-! ## Walks -/

/-- `BTREE_NEXT`: the minimum on the right, else the first ancestor reached from the left. -/
def btreeNext (tree : LinkedTree ν) (var : ν) : Outcome (Option ν) :=
  match tree.right var with
  | some r => btreeMinSub tree (some r)
  | none => loop (fun var =>
      match tree.parent var with
      | none => pure (.inr none)
      | some p => if tree.left p = some var then pure (.inr (some p)) else pure (.inl p))
    tree.bound var

theorem btreeNext_eq (h : Represents tree T) {xs ys : List ν} (hT : T.inorder = xs ++ x :: ys) :
    btreeNext tree x = .ok ys.head? := by
  obtain ⟨c, l, r, rfl⟩ := exists_plug_of_mem (x := x) (t := T) (by simp [hT])
  obtain ⟨-, rfl⟩ := inorder_plug_split h.nodup hT
  obtain ⟨o, -, rfl, -, -, hr⟩ := subtree_plug_iff.mp h.links
  have hb := Nat.le_trans (numNodes_plug c (node x l r)) h.bound
  simp only [numNodes] at hb
  cases r with
  | node y a b =>
    have e := hr.1
    rw [e] at hr
    rw [btreeNext, e, head?_append_of_ne_nil _ (by simp)]
    exact btreeMinSub_eq hr (by omega)
  | nil =>
    rw [btreeNext, show tree.right x = none from hr, inorder_nil, nil_append]
    refine Ensures.eq_ok ?_
    -- climbing out of right children changes nothing about what lies behind
    refine Ensures.loop (I := fun n var => ∃ d l' r',
      plug d (node var l' r') = plug c (node x l .nil) ∧ (back d).head? = (back c).head? ∧
        d.length = n) ?_ ⟨c, l, .nil, rfl, rfl, rfl⟩ (by omega)
    rintro n var ⟨d, l', r', hd, hbc, rfl⟩
    rw [← hd] at h
    rw [← hbc, ← hd]
    obtain ⟨o, hA, rfl, hp, -, -⟩ := subtree_plug_iff.mp h.links
    rw [hp]
    rcases d with _ | ⟨p | ⟨p, l''⟩, d⟩
    · exact .ret rfl
    · simp [above, Frame.root, hA.1, back]
    · have hne := h.left_ne (x := var) (by simp)
      simp only [above, Frame.root, hne, if_false, ensures_pure]
      exact ⟨d.length, by simp, d, _, _, rfl, rfl, rfl⟩

/-- `BTREE_PREV`: the maximum on the left, else the first ancestor reached from the right. -/
def btreePrev (tree : LinkedTree ν) (var : ν) : Outcome (Option ν) :=
  match tree.left var with
  | some l => btreeMaxSub tree (some l)
  | none => loop (fun var =>
      match tree.parent var with
      | none => pure (.inr none)
      | some p => if tree.right p = some var then pure (.inr (some p)) else pure (.inl p))
    tree.bound var

theorem btreePrev_eq (h : Represents tree T) {xs ys : List ν} (hT : T.inorder = xs ++ x :: ys) :
    btreePrev tree x = .ok xs.getLast? := by
  obtain ⟨c, l, r, rfl⟩ := exists_plug_of_mem (x := x) (t := T) (by simp [hT])
  obtain ⟨rfl, -⟩ := inorder_plug_split h.nodup hT
  obtain ⟨o, -, rfl, -, hl, -⟩ := subtree_plug_iff.mp h.links
  have hb := Nat.le_trans (numNodes_plug c (node x l r)) h.bound
  simp only [numNodes] at hb
  cases l with
  | node y a b =>
    have e := hl.1
    rw [e] at hl
    rw [btreePrev, e, getLast?_append_of_ne_nil _ (by simp)]
    exact btreeMaxSub_eq hl (by omega)
  | nil =>
    rw [btreePrev, show tree.left x = none from hl, inorder_nil, append_nil]
    refine Ensures.eq_ok ?_
    refine Ensures.loop (I := fun n var => ∃ d l' r',
      plug d (node var l' r') = plug c (node x .nil r) ∧
        (front d).getLast? = (front c).getLast? ∧ d.length = n)
      ?_ ⟨c, .nil, r, rfl, rfl, rfl⟩ (by omega)
    rintro n var ⟨d, l', r', hd, hf, rfl⟩
    rw [← hd] at h
    rw [← hf, ← hd]
    obtain ⟨o, hA, rfl, hp, -, -⟩ := subtree_plug_iff.mp h.links
    rw [hp]
    rcases d with _ | ⟨⟨p, r''⟩ | p, d⟩
    · exact .ret rfl
    · have hne := h.right_ne (x := var) (by simp)
      simp only [above, Frame.root, hne, if_false, ensures_pure]
      exact ⟨d.length, by simp, d, _, _, rfl, rfl, rfl⟩
    · simp [above, Frame.root, hA.1, front]

/-! ## Traversals -/

/-- From the pointer `o` on, the walk by `next` is at the nodes of a list, one after the other, and
then at `NULL`. -/
inductive Visits (next : ν → Outcome (Option ν)) : Option ν → List ν → Prop
  | null : Visits next none []
  | node {x : ν} {o : Option ν} {xs : List ν} (hx : next x = .ok o) (h : Visits next o xs) :
      Visits next (some x) (x :: xs)

omit [DecidableEq ν] in
theorem visits_head? {next : ν → Outcome (Option ν)} {xs : List ν}
    (h : ∀ ys x zs, xs = ys ++ x :: zs → next x = .ok zs.head?) : Visits next xs.head? xs := by
  induction xs with
  | nil => exact .null
  | cons x xs ih =>
    refine .node (h [] x xs rfl) (ih fun ys y zs hx => ?_)
    exact h (x :: ys) y zs (by rw [hx, cons_append])

/-- `BTREE_FOREACH`: `method` at the minimum and at each node that `BTREE_NEXT` leads to. What the
`method` works on is `σ`; the tree is not a part of it. -/
def btreeForeach {σ : Type} (method : σ → ν → Outcome σ) (tree : LinkedTree ν) (s : σ) :
    Outcome σ := do
  let var ← btreeMin tree
  loop (fun (var, s) =>
    match var with
    | none => pure (.inr s)
    | some var => do
      let s ← method s var
      let next ← btreeNext tree var
      pure (.inl (next, s))) (tree.bound + 1) (var, s)

theorem visits_btreeNext (h : Represents tree T) :
    Visits (btreeNext tree) T.inorder.head? T.inorder :=
  visits_head? fun _ _ _ hT => btreeNext_eq h hT

theorem visits_btreePrev (h : Represents tree T) :
    Visits (btreePrev tree) T.inorder.getLast? T.inorder.reverse := by
  rw [← head?_reverse]
  refine visits_head? fun ys x zs hT => ?_
  have hT' : T.inorder = zs.reverse ++ x :: ys.reverse := by
    rw [← reverse_reverse T.inorder, hT]
    simp
  rw [btreePrev_eq h hT', getLast?_reverse]

omit [DecidableEq ν] in
theorem Visits.loop_eq {σ : Type} {next : ν → Outcome (Option ν)} {o : Option ν} {xs : List ν}
    (h : Visits next o xs) (method : σ → ν → Outcome σ) (s : σ) {n : ℕ} (hn : xs.length < n) :
    loop (ρ := σ) (fun (var, s) =>
      match var with
      | none => pure (.inr s)
      | some var => do
        let s ← method s var
        let next ← next var
        pure (.inl (next, s))) n (o, s) = xs.foldlM method s := by
  induction h generalizing n s with
  | null =>
    obtain ⟨n, rfl⟩ := Nat.exists_eq_succ_of_ne_zero (Nat.ne_zero_of_lt hn)
    rfl
  | node hx _ ih =>
    obtain ⟨n, rfl⟩ := Nat.exists_eq_succ_of_ne_zero (Nat.ne_zero_of_lt hn)
    rw [loop]
    simp only [hx, bind_assoc]
    exact bind_congr fun s' => ih s' (Nat.lt_of_succ_lt_succ hn)

theorem btreeForeach_eq (h : Represents tree T) {σ : Type} (method : σ → ν → Outcome σ) (s : σ) :
    btreeForeach method tree s = T.inorder.foldlM method s := by
  rw [btreeForeach, btreeMin_eq h]
  refine (visits_btreeNext h).loop_eq method s ?_
  rw [length_inorder]
  exact Nat.lt_succ_of_le h.bound

/-- **Traversal**: on every tree with consistent child and parent links, whatever its keys, the walk
from `BTREE_MIN` by `BTREE_NEXT` visits each linked node once, in order, and ends; the walk from
`BTREE_MAX` by `BTREE_PREV` visits them in the reverse order, and ends. -/
theorem btree_traversal (h : Represents tree T) :
    T.inorder.Nodup ∧ (∀ x, x ∈ T.inorder ↔ Reaches tree x) ∧
      Ensures (btreeMin tree) (fun var => Visits (btreeNext tree) var T.inorder) ∧
      Ensures (btreeMax tree) (fun var => Visits (btreePrev tree) var T.inorder.reverse) ∧
      ∀ {σ : Type} (method : σ → ν → Outcome σ) (s : σ),
        btreeForeach method tree s = T.inorder.foldlM method s :=
  ⟨h.nodup, fun _ => h.mem_iff, ⟨_, btreeMin_eq h, visits_btreeNext h⟩,
    ⟨_, btreeMax_eq h, visits_btreePrev h⟩, btreeForeach_eq h⟩

/-- Three nodes, the smallest at the root. -/
theorem btree_traversal_three :
    ∃ tree : LinkedTree ℕ, Ensures (btreeMin tree) fun var =>
      Visits (btreeNext tree) var [2, 1, 3] := by
  let tree : LinkedTree ℕ :=
    ⟨some 1, fun x => if x = 1 then some 2 else none, fun x => if x = 1 then some 3 else none,
      fun x => if x = 1 then none else some 1, 3⟩
  have h : Represents tree (.node 1 (.node 2 .nil .nil) (.node 3 .nil .nil)) :=
    ⟨⟨rfl, rfl, ⟨rfl, rfl, rfl, rfl⟩, rfl, rfl, rfl, rfl⟩, by decide, by decide⟩
  exact ⟨tree, (btree_traversal h).2.2.1⟩

end Glatt
