import Glatt.Lib.Shape

/-!
# Trees linked through their nodes

A tree whose nodes carry their own left, right and parent links, and a pointer to the root. The
nodes are anonymous: a node is its address, and the links are functions of it. `Represents t T`
says that the links of `t` form the shape `T`; a context of `T` is represented by the links
around its hole.

## Main definitions

* `LinkedTree ν`: the root pointer and the links
* `Subtree t p o T`: the pointer `o`, under the parent `p`, leads to the shape `T`
* `Around t c o`: the links around the hole of the context `c`, which holds the pointer `o`
* `Represents t T`: the tree `t` has the shape `T`, each node linked once
* `Reaches t x`: the root pointer and the child links lead to the node `x`

## Main results

* `subtree_plug_iff`: a represented tree splits into a context and a subtree
* `Subtree.congr`, `Around.congr`: only the links of the nodes inside matter
* `Around.setSlot`: writing the slot of a context refills its hole
* `Subtree.hang`: hanging one subtree under the minimum of another
* `Around.promote`: moving a subtree into the hole of a context
* `Represents.mem_iff`: the in-order traversal lists the linked nodes
* `Represents.fill`: filling an empty hole links one more node
-/

/-- A root pointer and the links of the nodes. `bound` bounds the walks along the links: it is at
least the number of linked nodes. -/
structure LinkedTree (ν : Type) where
  child : Option ν
  left : ν → Option ν
  right : ν → Option ν
  parent : ν → Option ν
  bound : ℕ

namespace LinkedTree

open BinaryTree Function List

variable {ν : Type}

/-- A tree without nodes, and no links. -/
def empty : LinkedTree ν := ⟨none, fun _ => none, fun _ => none, fun _ => none, 0⟩

/-- The places a pointer to a node is stored in. -/
inductive Slot (ν : Type)
  | root
  | left (x : ν)
  | right (x : ν)

def setChild (t : LinkedTree ν) (o : Option ν) : LinkedTree ν := { t with child := o }

/-- Allow for one more node. -/
def grow (t : LinkedTree ν) : LinkedTree ν := { t with bound := t.bound + 1 }

/-- The node `x` has no links. -/
def Unlinked (t : LinkedTree ν) (x : ν) : Prop :=
  t.left x = none ∧ t.right x = none ∧ t.parent x = none

/-- Two trees have the same links at the node `x`. -/
def SameLinks (t t' : LinkedTree ν) (x : ν) : Prop :=
  t'.left x = t.left x ∧ t'.right x = t.right x ∧ t'.parent x = t.parent x

section Setters

variable (t : LinkedTree ν) (o : Option ν)

@[simp] theorem setChild_child : (t.setChild o).child = o := rfl
@[simp] theorem setChild_left : (t.setChild o).left = t.left := rfl
@[simp] theorem setChild_right : (t.setChild o).right = t.right := rfl
@[simp] theorem setChild_parent : (t.setChild o).parent = t.parent := rfl
@[simp] theorem setChild_bound : (t.setChild o).bound = t.bound := rfl

@[simp] theorem grow_child : t.grow.child = t.child := rfl
@[simp] theorem grow_left : t.grow.left = t.left := rfl
@[simp] theorem grow_right : t.grow.right = t.right := rfl
@[simp] theorem grow_parent : t.grow.parent = t.parent := rfl
@[simp] theorem grow_bound : t.grow.bound = t.bound + 1 := rfl

variable [DecidableEq ν]

def setLeft (t : LinkedTree ν) (x : ν) (o : Option ν) : LinkedTree ν :=
  { t with left := update t.left x o }

def setRight (t : LinkedTree ν) (x : ν) (o : Option ν) : LinkedTree ν :=
  { t with right := update t.right x o }

def setParent (t : LinkedTree ν) (x : ν) (o : Option ν) : LinkedTree ν :=
  { t with parent := update t.parent x o }

/-- Write a pointer to a slot. -/
def setSlot (t : LinkedTree ν) : Slot ν → Option ν → LinkedTree ν
  | .root, o => t.setChild o
  | .left x, o => t.setLeft x o
  | .right x, o => t.setRight x o

def clear (t : LinkedTree ν) (x : ν) : LinkedTree ν :=
  ((t.setLeft x none).setRight x none).setParent x none

variable (x y : ν)

@[simp] theorem setLeft_child : (t.setLeft x o).child = t.child := rfl
@[simp] theorem setLeft_left : (t.setLeft x o).left y = if y = x then o else t.left y := by
  simp [setLeft, update_apply]
@[simp] theorem setLeft_right : (t.setLeft x o).right = t.right := rfl
@[simp] theorem setLeft_parent : (t.setLeft x o).parent = t.parent := rfl
@[simp] theorem setLeft_bound : (t.setLeft x o).bound = t.bound := rfl

@[simp] theorem setRight_child : (t.setRight x o).child = t.child := rfl
@[simp] theorem setRight_left : (t.setRight x o).left = t.left := rfl
@[simp] theorem setRight_right : (t.setRight x o).right y = if y = x then o else t.right y := by
  simp [setRight, update_apply]
@[simp] theorem setRight_parent : (t.setRight x o).parent = t.parent := rfl
@[simp] theorem setRight_bound : (t.setRight x o).bound = t.bound := rfl

@[simp] theorem setParent_child : (t.setParent x o).child = t.child := rfl
@[simp] theorem setParent_left : (t.setParent x o).left = t.left := rfl
@[simp] theorem setParent_right : (t.setParent x o).right = t.right := rfl
@[simp] theorem setParent_parent :
    (t.setParent x o).parent y = if y = x then o else t.parent y := by
  simp [setParent, update_apply]
@[simp] theorem setParent_bound : (t.setParent x o).bound = t.bound := rfl

@[simp] theorem clear_child : (t.clear x).child = t.child := rfl
@[simp] theorem clear_left : (t.clear x).left y = if y = x then none else t.left y := by
  simp [clear]
@[simp] theorem clear_right : (t.clear x).right y = if y = x then none else t.right y := by
  simp [clear]
@[simp] theorem clear_parent : (t.clear x).parent y = if y = x then none else t.parent y := by
  simp [clear]
@[simp] theorem clear_bound : (t.clear x).bound = t.bound := rfl

@[simp] theorem setSlot_parent (d : Slot ν) : (t.setSlot d o).parent = t.parent := by
  cases d <;> rfl
@[simp] theorem setSlot_bound (d : Slot ν) : (t.setSlot d o).bound = t.bound := by
  cases d <;> rfl

end Setters

/-! ## Subtrees -/

/-- The pointer `o`, found under the parent `p`, leads to the shape `T`. -/
def Subtree (t : LinkedTree ν) : Option ν → Option ν → BinaryTree ν → Prop
  | _, o, .nil => o = none
  | p, o, .node x l r => o = some x ∧ t.parent x = p ∧
      Subtree t (some x) (t.left x) l ∧ Subtree t (some x) (t.right x) r

variable {t t' : LinkedTree ν} {p p' o o' : Option ν} {T : BinaryTree ν}

/-- **Frame**: a subtree depends on the links of its own nodes only. -/
theorem Subtree.congr (h : Subtree t p o T) (hs : ∀ x ∈ T.inorder, SameLinks t t' x) :
    Subtree t' p o T := by
  induction T generalizing p o with
  | nil => exact h
  | node x l r hl hr =>
    obtain ⟨rfl, hp, hsl, hsr⟩ := h
    obtain ⟨h₁, h₂, h₃⟩ := hs x (by simp)
    refine ⟨rfl, by rw [h₃, hp], ?_, ?_⟩
    · rw [h₁]
      exact hl hsl fun y hy => hs y (by simp [hy])
    · rw [h₂]
      exact hr hsr fun y hy => hs y (by simp [hy])

/-- A subtree moved under another parent: only the parent link of its root changes. -/
theorem Subtree.reparent (h : Subtree t p o T) (hn : T.inorder.Nodup)
    (hl : ∀ x ∈ T.inorder, t'.left x = t.left x ∧ t'.right x = t.right x)
    (hp : ∀ x ∈ T.inorder, some x ≠ o → t'.parent x = t.parent x)
    (hr : ∀ x, o = some x → t'.parent x = p') : Subtree t' p' o T := by
  cases T with
  | nil => exact h
  | node x l r =>
    obtain ⟨rfl, -, hs, hsr⟩ := h
    have hx := hl x (by simp)
    obtain ⟨hnl, hnr, hc⟩ := nodup_append.mp hn
    have hxr := (nodup_cons.mp hnr).1
    refine ⟨rfl, hr x rfl, ?_, ?_⟩
    · rw [hx.1]
      refine hs.congr fun y hy => ?_
      have hne : y ≠ x := fun e => hc y hy x (by simp) e
      have hy' : y ∈ (node x l r).inorder := by simp [hy]
      exact ⟨(hl y hy').1, (hl y hy').2, hp y hy' (by simpa using hne)⟩
    · rw [hx.2]
      refine hsr.congr fun y hy => ?_
      have hne : y ≠ x := fun e => hxr (e ▸ hy)
      have hy' : y ∈ (node x l r).inorder := by simp [hy]
      exact ⟨(hl y hy').1, (hl y hy').2, hp y hy' (by simpa using hne)⟩

theorem Subtree.eq_none_iff (h : Subtree t p o T) : o = none ↔ T = .nil := by
  cases T with
  | nil => exact ⟨fun _ => rfl, fun _ => h⟩
  | node x l r =>
    obtain ⟨rfl, -⟩ := h
    simp

variable {x : ν}

theorem Subtree.mem_of_some (h : Subtree t p (some x) T) : x ∈ T.inorder := by
  cases T with
  | nil => cases h
  | node y l r =>
    obtain ⟨h, -⟩ := h
    cases h
    simp

/-- **Hanging**: the subtree `R` with `L` linked to the left of its minimum `m`. -/
theorem Subtree.hang {q lo : Option ν} {L R : BinaryTree ν} {m : ν} (hR : Subtree t p o R)
    (hL : Subtree t q lo L) (hn : (L.inorder ++ R.inorder).Nodup) (hm : R.inorder.head? = some m)
    (hl : ∀ x, x ≠ m → t'.left x = t.left x) (hr : ∀ x, t'.right x = t.right x)
    (hpr : ∀ x, some x ≠ lo → t'.parent x = t.parent x) (hml : t'.left m = lo)
    (hlm : ∀ x, lo = some x → t'.parent x = some m) : Subtree t' p o (L.hang R) := by
  -- no node of `R` is the root of `L`
  have hlo : ∀ x ∈ R.inorder, some x ≠ lo := by
    rintro x hx rfl
    exact (nodup_append.mp hn).2.2 x hL.mem_of_some x hx rfl
  induction R generalizing p o with
  | nil => cases hm
  | node y a b ha _ =>
    obtain ⟨rfl, hp, hs, hsb⟩ := hR
    obtain ⟨hnL, hnR, hc⟩ := nodup_append.mp hn
    obtain ⟨hna, hnyb, hab⟩ := nodup_append.mp hnR
    have hy := (nodup_cons.mp hnyb).1
    have hmb : m ∉ b.inorder := fun hmb => by
      cases a with
      | nil =>
        obtain rfl : y = m := by simpa using hm
        exact hy hmb
      | node z u v =>
        rw [inorder_node, head?_append_of_ne_nil _ (by simp)] at hm
        exact hab m (mem_of_mem_head? hm) m (by simp [hmb]) rfl
    refine ⟨rfl, by rw [hpr y (hlo y (by simp)), hp], ?_, ?_⟩
    · cases a with
      | nil =>
        -- `y` itself is the minimum, and `L` becomes its left child
        obtain rfl : y = m := by simpa using hm
        rw [hml]
        refine hL.reparent hnL (fun x hx => ⟨hl x ?_, hr x⟩) (fun x _ hne => hpr x hne) hlm
        exact fun e => hc x hx y (by simp) e
      | node z u v =>
        have hm' : (node z u v).inorder.head? = some m := by
          rwa [inorder_node, head?_append_of_ne_nil _ (by simp)] at hm
        have hmy : y ≠ m := fun e => hab m (mem_of_mem_head? hm') y (by simp) e.symm
        rw [hl y hmy]
        refine ha hs ?_ hm' fun x hx => hlo x (mem_append_left _ hx)
        exact nodup_append.mpr ⟨hnL, hna, fun x hx w hw => hc x hx w (mem_append_left _ hw)⟩
    · rw [hr y]
      refine hsb.congr fun x hx => ⟨hl x fun e => hmb (e ▸ hx), hr x, ?_⟩
      exact hpr x (hlo x (by simp [hx]))

/-! ## Contexts -/

/-- The parent link of what fills the hole of a context. -/
def above : List (Frame ν) → Option ν
  | [] => none
  | f :: _ => some f.root

/-- The slot that is the hole of a context. -/
def slot : List (Frame ν) → Slot ν
  | [] => .root
  | .left x _ :: _ => .left x
  | .right x _ :: _ => .right x

/-- The links around the hole of a context, which holds the pointer `o`. -/
def Around (t : LinkedTree ν) : List (Frame ν) → Option ν → Prop
  | [], o => t.child = o
  | .left x r :: c, o => t.left x = o ∧ Subtree t (some x) (t.right x) r ∧
      t.parent x = above c ∧ Around t c (some x)
  | .right x l :: c, o => t.right x = o ∧ Subtree t (some x) (t.left x) l ∧
      t.parent x = above c ∧ Around t c (some x)

variable {c : List (Frame ν)} {S : BinaryTree ν}

/-- **A represented tree splits** into the links around a hole and the subtree in the hole. -/
theorem subtree_plug_iff :
    Subtree t none t.child (plug c S) ↔ ∃ o, Around t c o ∧ Subtree t (above c) o S := by
  induction c generalizing S with
  | nil => exact ⟨fun h => ⟨_, rfl, h⟩, by rintro ⟨_, rfl, h⟩; exact h⟩
  | cons f c ih =>
    cases f with
    | left x r =>
      refine (ih).trans ⟨?_, ?_⟩
      · rintro ⟨_, hc, rfl, hp, hl, hr⟩
        exact ⟨_, ⟨rfl, hr, hp, hc⟩, hl⟩
      · rintro ⟨_, ⟨rfl, hr, hp, hc⟩, hl⟩
        exact ⟨_, hc, rfl, hp, hl, hr⟩
    | right x l =>
      refine (ih).trans ⟨?_, ?_⟩
      · rintro ⟨_, hc, rfl, hp, hl, hr⟩
        exact ⟨_, ⟨rfl, hl, hp, hc⟩, hr⟩
      · rintro ⟨_, ⟨rfl, hl, hp, hc⟩, hr⟩
        exact ⟨_, hc, rfl, hp, hl, hr⟩

/-- The nodes of a context. -/
def around (c : List (Frame ν)) : List ν := front c ++ back c

theorem mem_around_cons_left {x y : ν} {r : BinaryTree ν} :
    y ∈ around (.left x r :: c) ↔ y = x ∨ y ∈ r.inorder ∨ y ∈ around c := by
  simp only [around, front, back, mem_append, cons_append, mem_cons]
  tauto

theorem mem_around_cons_right {x y : ν} {l : BinaryTree ν} :
    y ∈ around (.right x l :: c) ↔ y = x ∨ y ∈ l.inorder ∨ y ∈ around c := by
  simp only [around, front, back, mem_append, mem_singleton]
  tauto

/-- **Frame**: the links around a hole depend on the links of the nodes around it only. -/
theorem Around.congr (h : Around t c o) (hc : t'.child = t.child)
    (hs : ∀ x ∈ around c, SameLinks t t' x) : Around t' c o := by
  induction c generalizing o with
  | nil => exact hc.trans h
  | cons f c ih =>
    cases f with
    | left x r =>
      obtain ⟨h₁, h₂, h₃, h₄⟩ := h
      obtain ⟨e₁, e₂, e₃⟩ := hs x (mem_around_cons_left.mpr (.inl rfl))
      refine ⟨e₁.trans h₁, ?_, e₃.trans h₃, ih h₄ fun y hy => ?_⟩
      · rw [e₂]
        exact h₂.congr fun y hy => hs y (mem_around_cons_left.mpr (.inr (.inl hy)))
      · exact hs y (mem_around_cons_left.mpr (.inr (.inr hy)))
    | right x l =>
      obtain ⟨h₁, h₂, h₃, h₄⟩ := h
      obtain ⟨e₁, e₂, e₃⟩ := hs x (mem_around_cons_right.mpr (.inl rfl))
      refine ⟨e₂.trans h₁, ?_, e₃.trans h₃, ih h₄ fun y hy => ?_⟩
      · rw [e₁]
        exact h₂.congr fun y hy => hs y (mem_around_cons_right.mpr (.inr (.inl hy)))
      · exact hs y (mem_around_cons_right.mpr (.inr (.inr hy)))

/-- **Refilling the hole**: writing the slot of a context changes what the hole holds, and nothing
around it. -/
theorem Around.setSlot [DecidableEq ν] (h : Around t c o) (hn : (around c).Nodup) (o' : Option ν) :
    Around (t.setSlot (slot c) o') c o' := by
  cases c with
  | nil => rfl
  | cons f c =>
    cases f with
    | left x r =>
      obtain ⟨-, h₂, h₃, h₄⟩ := h
      have hx : x ∉ r.inorder ∧ x ∉ around c := by
        simp only [around, front, back, nodup_append, cons_append, nodup_cons,
          mem_append, mem_cons] at hn ⊢
        refine ⟨fun hx => hn.2.1.1 (.inl hx), fun hx => ?_⟩
        rcases hx with hx | hx
        · exact hn.2.2 x hx x (.inl rfl) rfl
        · exact hn.2.1.1 (.inr hx)
      refine ⟨by simp [LinkedTree.setSlot, slot], ?_, by simpa using h₃, ?_⟩
      · refine h₂.congr fun y hy => ?_
        have : y ≠ x := fun e => hx.1 (e ▸ hy)
        simp [SameLinks, LinkedTree.setSlot, slot, this]
      · refine h₄.congr rfl fun y hy => ?_
        have : y ≠ x := fun e => hx.2 (e ▸ hy)
        simp [SameLinks, LinkedTree.setSlot, slot, this]
    | right x l =>
      obtain ⟨-, h₂, h₃, h₄⟩ := h
      have hx : x ∉ l.inorder ∧ x ∉ around c := by
        simp only [around, front, back, nodup_append, mem_append, mem_singleton] at hn ⊢
        refine ⟨fun hx => hn.1.2.1.2.2 x hx x rfl rfl, fun hx => ?_⟩
        rcases hx with hx | hx
        · exact hn.1.2.2 x hx x (.inr rfl) rfl
        · exact hn.2.2 x (.inr (.inr rfl)) x hx rfl
      refine ⟨by simp [LinkedTree.setSlot, slot], ?_, by simpa using h₃, ?_⟩
      · refine h₂.congr fun y hy => ?_
        have : y ≠ x := fun e => hx.1 (e ▸ hy)
        simp [SameLinks, LinkedTree.setSlot, slot, this]
      · refine h₄.congr rfl fun y hy => ?_
        have : y ≠ x := fun e => hx.2 (e ▸ hy)
        simp [SameLinks, LinkedTree.setSlot, slot, this]

/-! ## Represented trees -/

/-- **The tree `t` has the shape `T`**: its links form it, each node is linked once, and the bound
covers its nodes. -/
structure Represents (t : LinkedTree ν) (T : BinaryTree ν) : Prop where
  links : Subtree t none t.child T
  nodup : T.inorder.Nodup
  bound : T.numNodes ≤ t.bound

/-- A node occurs once in a tree. -/
theorem Represents.ne_of_split {t : LinkedTree ν} {T : BinaryTree ν} (h : t.Represents T)
    {xs ys : List ν} (hT : T.inorder = xs ++ x :: ys) :
    (∀ z ∈ xs, z ≠ x) ∧ ∀ z ∈ ys, z ≠ x := by
  have hn := h.nodup
  rw [hT, nodup_middle, nodup_cons, mem_append, not_or] at hn
  exact ⟨fun z hz e => hn.1.1 (e ▸ hz), fun z hz e => hn.1.2 (e ▸ hz)⟩

theorem around_of_plug_nodup (hn : (plug c S).inorder.Nodup) : (around c).Nodup := by
  rw [inorder_plug] at hn
  refine hn.sublist ?_
  rw [around]
  exact (sublist_append_left _ _).append_right _

theorem mem_plug : x ∈ (plug c S).inorder ↔ x ∈ around c ∨ x ∈ S.inorder := by
  simp only [inorder_plug, around, mem_append]
  tauto

/-- The nodes around a hole are not those of the subtree in it. -/
theorem not_mem_of_mem_around (hn : (plug c S).inorder.Nodup) (hx : x ∈ around c) :
    x ∉ S.inorder := by
  rw [inorder_plug, append_assoc] at hn
  obtain ⟨-, hn, hc⟩ := nodup_append.mp hn
  intro hS
  rcases mem_append.mp hx with hx | hx
  · exact hc x hx x (mem_append_left _ hS) rfl
  · exact (nodup_append.mp hn).2.2 x hS x hx rfl

theorem setSlot_sameLinks [DecidableEq ν] (hx : x ∉ around c) (o : Option ν) :
    SameLinks t (t.setSlot (slot c) o) x := by
  rcases c with _ | ⟨f | f, c⟩
  · exact ⟨rfl, rfl, rfl⟩
  · have : x ≠ f := fun e => hx (mem_around_cons_left.mpr (.inl e))
    simp [SameLinks, setSlot, slot, this]
  · have : x ≠ f := fun e => hx (mem_around_cons_right.mpr (.inl e))
    simp [SameLinks, setSlot, slot, this]

theorem Subtree.unique {T' : BinaryTree ν} (h : Subtree t p o T) (h' : Subtree t p' o T') :
    T = T' := by
  induction T generalizing p p' o T' with
  | nil =>
    obtain rfl : o = none := h
    exact (h'.eq_none_iff.mp rfl).symm
  | node x l r hl hr =>
    obtain ⟨rfl, -, hs, hsr⟩ := h
    cases T' with
    | nil => cases h'
    | node y l' r' =>
      obtain ⟨e, -, hs', hsr'⟩ := h'
      cases e
      rw [hl hs hs', hr hsr hsr']

theorem Represents.unique {T' : BinaryTree ν} (h : Represents t T) (h' : Represents t T') :
    T = T' := h.links.unique h'.links

/-- The nodes that the root pointer and the child links lead to. -/
inductive Reaches (t : LinkedTree ν) : ν → Prop
  | root {x : ν} : t.child = some x → Reaches t x
  | left {x y : ν} : Reaches t x → t.left x = some y → Reaches t y
  | right {x y : ν} : Reaches t x → t.right x = some y → Reaches t y

theorem Subtree.reaches (h : Subtree t p o T) (ho : ∀ y, o = some y → Reaches t y)
    (hx : x ∈ T.inorder) : Reaches t x := by
  induction T generalizing p o with
  | nil => cases hx
  | node y l r hl hr =>
    obtain ⟨rfl, -, hs, hsr⟩ := h
    have hy : Reaches t y := ho y rfl
    rw [inorder_node, mem_append, mem_cons] at hx
    rcases hx with hx | rfl | hx
    · exact hl hs (fun z hz => hy.left hz) hx
    · exact hy
    · exact hr hsr (fun z hz => hy.right hz) hx

/-- **The traversal lists the linked nodes.** -/
theorem Represents.mem_iff (h : Represents t T) : x ∈ T.inorder ↔ Reaches t x := by
  refine ⟨h.links.reaches fun y hy => .root hy, fun hx => ?_⟩
  -- a node in the tree is the root of a subtree, whose links lead into the tree again
  induction hx with
  | root hx => exact (hx ▸ h.links).mem_of_some
  | left _ hy ih =>
    obtain ⟨c, l, r, rfl⟩ := exists_plug_of_mem ih
    obtain ⟨o, -, rfl, -, hl, -⟩ := subtree_plug_iff.mp h.links
    have := (hy ▸ hl).mem_of_some
    exact mem_plug.mpr (.inr (by simp [this]))
  | right _ hy ih =>
    obtain ⟨c, l, r, rfl⟩ := exists_plug_of_mem ih
    obtain ⟨o, -, rfl, -, -, hr⟩ := subtree_plug_iff.mp h.links
    have := (hy ▸ hr).mem_of_some
    exact mem_plug.mpr (.inr (by simp [this]))

/-- Links of nodes outside the tree do not matter to it. -/
theorem Represents.congr (h : Represents t T) (hc : t'.child = t.child)
    (hb : t'.bound = t.bound) (hs : ∀ x ∈ T.inorder, SameLinks t t' x) : Represents t' T :=
  ⟨hc ▸ h.links.congr hs, h.nodup, hb ▸ h.bound⟩

theorem Represents.clear [DecidableEq ν] (h : Represents t T) (hx : x ∉ T.inorder) :
    Represents (t.clear x) T := by
  refine h.congr rfl rfl fun y hy => ?_
  have : y ≠ x := fun e => hx (e ▸ hy)
  simp [SameLinks, this]

theorem Represents.left_ne {x q : ν} {l S : BinaryTree ν}
    (h : Represents t (plug (.right q l :: c) S)) (hx : x ∈ S.inorder) : t.left q ≠ some x := by
  intro e
  obtain ⟨_, ⟨-, hl, -⟩, -⟩ := subtree_plug_iff.mp h.links
  rw [e] at hl
  exact not_mem_of_mem_around h.nodup (mem_around_cons_right.mpr (.inr (.inl hl.mem_of_some))) hx

theorem Represents.right_ne {x q : ν} {r S : BinaryTree ν}
    (h : Represents t (plug (.left q r :: c) S)) (hx : x ∈ S.inorder) : t.right q ≠ some x := by
  intro e
  obtain ⟨_, ⟨-, hr, -⟩, -⟩ := subtree_plug_iff.mp h.links
  rw [e] at hr
  exact not_mem_of_mem_around h.nodup (mem_around_cons_left.mpr (.inr (.inl hr.mem_of_some))) hx

theorem Around.child_mem (h : Around t c o) (hc : c ≠ []) (hx : t.child = some x) :
    x ∈ around c := by
  induction c generalizing o with
  | nil => exact absurd rfl hc
  | cons f c ih =>
    have hr : Around t c (some f.root) := by
      cases f with
      | left y r | right y l => exact h.2.2.2
    have hs : ∀ y, y = f.root ∨ y ∈ around c → y ∈ around (f :: c) := by
      rintro y (rfl | hy)
      · cases f with
        | left y r => exact mem_around_cons_left.mpr (.inl rfl)
        | right y l => exact mem_around_cons_right.mpr (.inl rfl)
      · cases f with
        | left y r => exact mem_around_cons_left.mpr (.inr (.inr hy))
        | right y l => exact mem_around_cons_right.mpr (.inr (.inr hy))
    cases c with
    | nil =>
      have : t.child = some f.root := hr
      exact hs x (.inl (by simpa using hx.symm.trans this))
    | cons g c => exact hs x (.inr (ih hr (by simp)))

/-- **Promotion**: a subtree from elsewhere is moved into the hole of a context. -/
theorem Around.promote [DecidableEq ν] {y : ν} (hA : Around t c o) (hc : (around c).Nodup)
    (hT : Subtree t p (some y) T) (hn : T.inorder.Nodup) (hd : ∀ z ∈ T.inorder, z ∉ around c) :
    Around ((t.setSlot (slot c) (some y)).setParent y (above c)) c (some y) ∧
      Subtree ((t.setSlot (slot c) (some y)).setParent y (above c)) (above c) (some y) T := by
  refine ⟨(hA.setSlot hc (some y)).congr rfl fun z hz => ?_, hT.reparent hn ?_ ?_ ?_⟩
  · have : z ≠ y := fun e => hd y hT.mem_of_some (e ▸ hz)
    simp [SameLinks, this]
  · intro z hz
    obtain ⟨hl, hr, -⟩ := setSlot_sameLinks (hd z hz) (some y)
    exact ⟨hl, hr⟩
  · intro z _ hne
    have : z ≠ y := fun e => hne (congrArg some e)
    simp [this]
  · rintro z ⟨⟩
    simp

/-- **Filling an empty hole** with a node that is not linked yet. -/
theorem Represents.fill [DecidableEq ν] (h : Represents t (plug c .nil))
    (hx : x ∉ (plug c .nil).inorder) (hl : t.left x = none) (hr : t.right x = none) :
    Represents ((t.setSlot (slot c) (some x)).setParent x (above c)).grow
      (plug c (.node x .nil .nil)) := by
  obtain ⟨o, hA, -⟩ := subtree_plug_iff.mp h.links
  have hc := around_of_plug_nodup h.nodup
  have hxc : x ∉ around c := fun hm => hx (mem_plug.mpr (.inl hm))
  have hln := setSlot_sameLinks (t := t) hxc (some x)
  refine ⟨subtree_plug_iff.mpr ⟨some x, ?_, rfl, by simp, ?_, ?_⟩, ?_, ?_⟩
  · refine (hA.setSlot hc (some x)).congr rfl fun y hy => ?_
    have : y ≠ x := fun e => hxc (e ▸ hy)
    simp [SameLinks, this]
  · exact hln.1.trans hl
  · exact hln.2.1.trans hr
  · rw [inorder_plug] at hx ⊢
    have hn := h.nodup
    rw [inorder_plug] at hn
    simp only [inorder_nil, inorder_node, append_nil, nil_append] at hn hx ⊢
    rw [append_assoc, singleton_append]
    exact nodup_middle.mpr (nodup_cons.mpr ⟨hx, hn⟩)
  · have hb := h.bound
    rw [← length_inorder] at hb ⊢
    simp only [inorder_plug, inorder_nil, inorder_node, length_append, length_nil,
      length_cons, grow_bound, setParent_bound, setSlot_bound] at hb ⊢
    omega

end LinkedTree
