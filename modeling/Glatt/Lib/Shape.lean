import Glatt.Lib.StableSort
import Mathlib.Data.List.Find
import Mathlib.Data.List.Induction
import Mathlib.Data.List.Pairwise
import Mathlib.Data.Tree.Basic

/-!
# Shapes of binary trees

The tree algorithms on shapes, without pointers: descending search and insertion, hanging one
tree under the minimum of another, and the contexts around a node. Each is described by the
in-order traversal.

## Main definitions

* `BinaryTree.inorder`: the in-order traversal
* `BinaryTree.find`, `BinaryTree.insert`: search and insertion by a comparison at each node
* `BinaryTree.hang l t`: `l` hung under the minimum of `t`
* `BinaryTree.plug c t`: the tree `t` in the context `c`
* `BinaryTree.SearchTree key t`: the traversal lists the keys in strict order
* `BinaryTree.build before xs`: the tree after the insertion of `xs`, one by one

## Main results

* `BinaryTree.inorder_insert`: insertion puts the new element where the comparison turns
* `BinaryTree.inorder_hang`: hanging appends the traversals
* `BinaryTree.exists_plug_of_mem`: every element is the root of a subtree in some context
* `BinaryTree.find_isSome_iff`: search finds a hit when there is one
* `BinaryTree.SearchTree.find_eq_some_iff`: in a search tree it finds the node with the key
* `BinaryTree.find_build`: after insertions alone it finds the hit that was inserted first
-/

namespace BinaryTree

open List

variable {α : Type} {t : BinaryTree α}

/-- The in-order traversal. -/
def inorder : BinaryTree α → List α
  | nil => []
  | node x l r => l.inorder ++ x :: r.inorder

@[simp] theorem inorder_nil : (nil : BinaryTree α).inorder = [] := rfl

variable {x : α} {l : BinaryTree α}

@[simp] theorem inorder_node (x : α) (r : BinaryTree α) :
    (node x l r).inorder = l.inorder ++ x :: r.inorder := rfl

theorem length_inorder : t.inorder.length = t.numNodes := by
  induction t with
  | nil => rfl
  | node x l r hl hr => simp [hl]; omega

/-! ## Insertion -/

/-- Insertion of `x` as a leaf: to the left of the nodes `x` goes before, to the right of the
others. -/
def insert (before : α → Bool) (x : α) : BinaryTree α → BinaryTree α
  | nil => node x nil nil
  | node y l r => if before y then node y (insert before x l) r else node y l (insert before x r)

theorem inorder_insert_perm (before : α → Bool) :
    (t.insert before x).inorder.Perm (x :: t.inorder) := by
  induction t with
  | nil => exact List.Perm.refl _
  | node y l r hl hr =>
    rw [insert]
    split
    · exact hl.append_right _
    · simp only [inorder_node]
      calc l.inorder ++ y :: (r.insert before x).inorder
          |>.Perm (l.inorder ++ y :: x :: r.inorder) := (hr.cons y).append_left _
        _ |>.Perm (l.inorder ++ x :: y :: r.inorder) := (List.Perm.swap x y _).append_left _
        _ |>.Perm (x :: (l.inorder ++ y :: r.inorder)) := perm_middle

theorem mem_inorder_insert {before : α → Bool} {x z : α} :
    z ∈ (t.insert before x).inorder ↔ z = x ∨ z ∈ t.inorder := by
  rw [(inorder_insert_perm before).mem_iff, mem_cons]

/-- **Insertion puts the new element where the comparison turns**: behind the elements it does
not go before, in front of those it does. -/
theorem inorder_insert {before : α → Bool} {xs ys : List α}
    (ht : t.inorder = xs ++ ys) (hx : ∀ z ∈ xs, before z = false)
    (hys : ∀ z ∈ ys, before z = true) : (t.insert before x).inorder = xs ++ x :: ys := by
  induction t generalizing xs ys with
  | nil =>
    obtain ⟨rfl, rfl⟩ := append_eq_nil_iff.mp ht.symm
    rfl
  | node y l r hl hr =>
    rw [insert]
    by_cases hy : before y = true
    · rw [if_pos hy]
      rcases append_eq_append_iff.mp ht with ⟨zs, rfl, hz⟩ | ⟨zs, hz, rfl⟩
      · -- `y` lies behind the turn, so it is the head of `ys`
        cases zs with
        | nil =>
          subst hz
          have := hl (append_nil _).symm (by simpa using hx) (by simp)
          simp [this]
        | cons z zs =>
          obtain ⟨rfl, -⟩ := cons_eq_cons.mp (cons_append ▸ hz)
          have := hx y (by simp)
          simp [hy] at this
      · have := hl hz hx fun z hmem => hys z (by simp [hmem])
        simp [this]
    · rw [if_neg hy]
      rcases append_eq_append_iff.mp ht with ⟨zs, rfl, hz⟩ | ⟨zs, hz, rfl⟩
      · cases zs with
        | nil =>
          rw [nil_append] at hz
          exact absurd (hys y (by simp [← hz])) hy
        | cons z zs =>
          obtain ⟨rfl, hz'⟩ := cons_eq_cons.mp (cons_append ▸ hz)
          have := hr hz' (fun w hw => hx w (by simp [hw])) hys
          simp [this]
      · exact absurd (hys y (by simp)) hy

/-! ## Hanging one tree under the minimum of another -/

/-- The tree `l` hung to the left of the minimum of `t`; it is `l` itself when `t` is empty. -/
def hang (l : BinaryTree α) : BinaryTree α → BinaryTree α
  | nil => l
  | node x a b => node x (hang l a) b

@[simp] theorem hang_nil_left : hang nil t = t := by
  induction t with
  | nil => rfl
  | node x a b ha _ => rw [hang, ha]

@[simp] theorem inorder_hang : (hang l t).inorder = l.inorder ++ t.inorder := by
  induction t with
  | nil => simp [hang]
  | node x a b ha _ => simp [hang, ha]

/-! ## Contexts -/

/-- One level of a context: the hole is a child of `x`, beside the other child. -/
inductive Frame (α : Type)
  | left (x : α) (r : BinaryTree α)
  | right (x : α) (l : BinaryTree α)

/-- The node the frame belongs to. -/
def Frame.root : Frame α → α
  | left x _ => x
  | right x _ => x

/-- The tree `t` in a context, whose innermost frame comes first. -/
def plug : List (Frame α) → BinaryTree α → BinaryTree α
  | [], t => t
  | .left x r :: c, t => plug c (node x t r)
  | .right x l :: c, t => plug c (node x l t)

/-- What a context contributes in front of the hole. -/
def front : List (Frame α) → List α
  | [] => []
  | .left _ _ :: c => front c
  | .right x l :: c => front c ++ (l.inorder ++ [x])

/-- What a context contributes behind the hole. -/
def back : List (Frame α) → List α
  | [] => []
  | .left x r :: c => x :: r.inorder ++ back c
  | .right _ _ :: c => back c

variable {c : List (Frame α)}

theorem inorder_plug : (plug c t).inorder = front c ++ t.inorder ++ back c := by
  induction c generalizing t with
  | nil => simp [plug, front, back]
  | cons f c ih => cases f <;> simp [plug, front, back, ih]

theorem numNodes_plug (c : List (Frame α)) (t : BinaryTree α) :
    c.length + t.numNodes ≤ (plug c t).numNodes := by
  induction c generalizing t with
  | nil => simp [plug]
  | cons f c ih =>
    cases f with
    | left x r => exact Nat.le_trans (by simp; omega) (ih (node x t r))
    | right x l => exact Nat.le_trans (by simp; omega) (ih (node x l t))

theorem plug_append (d : List (Frame α)) : plug (c ++ d) t = plug d (plug c t) := by
  induction c generalizing t with
  | nil => rfl
  | cons f c ih => cases f <;> simp [plug, ih]

/-- **Every element is the root of a subtree in some context.** -/
theorem exists_plug_of_mem {x : α} (hx : x ∈ t.inorder) : ∃ c l r, t = plug c (node x l r) := by
  induction t with
  | nil => cases hx
  | node y a b ha hb =>
    rcases mem_append.mp hx with hx | hx
    · obtain ⟨c, l, r, rfl⟩ := ha hx
      exact ⟨c ++ [.left y b], l, r, by simp [plug_append, plug]⟩
    · rcases mem_cons.mp hx with rfl | hx
      · exact ⟨[], a, b, rfl⟩
      · obtain ⟨c, l, r, rfl⟩ := hb hx
        exact ⟨c ++ [.right y a], l, r, by simp [plug_append, plug]⟩

theorem inorder_plug_split {c : List (Frame α)} {x : α} {l r : BinaryTree α} {xs ys : List α}
    (hn : (plug c (node x l r)).inorder.Nodup) (h : (plug c (node x l r)).inorder = xs ++ x :: ys) :
    xs = front c ++ l.inorder ∧ ys = r.inorder ++ back c := by
  rw [h] at hn
  have hx := nodup_cons.mp (nodup_middle.mp hn)
  rw [mem_append, not_or] at hx
  have hs : xs ++ x :: ys = (front c ++ l.inorder) ++ x :: (r.inorder ++ back c) := by
    rw [← h, inorder_plug]
    simp
  obtain ⟨hxs, -, hy⟩ := (append_cons_inj_of_notMem hx.1.1 hx.1.2).mp hs
  exact ⟨hxs, hy⟩

/-! ## Search -/

/-- Descending search: to the left where `less` holds, else the node itself if it is a hit, else
to the right. -/
def find (less hit : α → Bool) : BinaryTree α → Option α
  | nil => none
  | node x l r => if less x then find less hit l else if hit x then some x else find less hit r

theorem find_mem {less hit : α → Bool} {x : α} (h : t.find less hit = some x) :
    x ∈ t.inorder ∧ less x = false ∧ hit x = true := by
  induction t with
  | nil => cases h
  | node y l r hl hr =>
    rw [find] at h
    split at h
    · obtain ⟨hm, hx⟩ := hl h
      exact ⟨by simp [hm], hx⟩
    · split at h
      · cases h
        exact ⟨by simp, by simpa using ‹¬ less x = true›, ‹_›⟩
      · obtain ⟨hm, hx⟩ := hr h
        exact ⟨by simp [hm], hx⟩

/-- **Search finds a hit when there is one**, in a tree whose order agrees with the comparison. -/
theorem find_isSome_iff {less hit : α → Bool}
    (ho : t.inorder.Pairwise fun a b =>
      (less a = true → less b = true) ∧ (hit a = true → less b = true ∨ hit b = true))
    (hlt : ∀ x ∈ t.inorder, hit x = true → less x = false) :
    (t.find less hit).isSome ↔ ∃ x ∈ t.inorder, hit x = true := by
  refine ⟨fun h => ?_, ?_⟩
  · obtain ⟨x, hx⟩ := Option.isSome_iff_exists.mp h
    exact ⟨x, (find_mem hx).1, (find_mem hx).2.2⟩
  · rintro ⟨x, hx, hh⟩
    induction t with
    | nil => cases hx
    | node y l r hl hr =>
      obtain ⟨hol, hoyr, hc⟩ := pairwise_append.mp ho
      obtain ⟨hoy, hor⟩ := pairwise_cons.mp hoyr
      rw [find]
      have hxlt := hlt x hx hh
      rcases mem_append.mp hx with hx | hx
      · -- a hit in the left subtree
        split
        · exact hl hol (fun z hz => hlt z (by simp [hz])) hx
        · rcases (hc x hx y (by simp)).2 hh with h | h
          · contradiction
          · simp [h]
      · rcases mem_cons.mp hx with rfl | hx
        · simp [hxlt, hh]
        · have hy : less y = false := by
            by_contra h
            simp [(hoy x hx).1 (by simpa using h)] at hxlt
          simp only [hy, Bool.false_eq_true, if_false]
          split
          · rfl
          · exact hr hor (fun z hz => hlt z (by simp [hz])) hx

/-! ## Search trees -/

section SearchTree

variable {κ : Type} [LinearOrder κ] {key key' : α → κ}

/-- **The nodes are listed in the order of their keys**, which differ. -/
def SearchTree (key : α → κ) (t : BinaryTree α) : Prop :=
  t.inorder.Pairwise fun a b => key a < key b

theorem searchTree_nil : SearchTree key nil := List.Pairwise.nil

theorem SearchTree.congr (h : SearchTree key t) (hk : ∀ x ∈ t.inorder, key' x = key x) :
    SearchTree key' t := by
  refine List.Pairwise.imp_of_mem (fun {a b} ha hb hab => ?_) h
  rwa [hk a ha, hk b hb]

theorem SearchTree.eq_of_key_eq (h : SearchTree key t) {x y : α} (hx : x ∈ t.inorder)
    (hy : y ∈ t.inorder) (hxy : key x = key y) : x = y := by
  by_contra hne
  have hk : t.inorder.Pairwise fun a b => key a ≠ key b := h.imp ne_of_lt
  have : Std.Symm fun a b : α => key a ≠ key b := ⟨fun _ _ ha => ha.symm⟩
  exact hk.forall hx hy hne hxy

section Search

variable {k : κ} {less hit : α → Bool} (hl : ∀ a, less a = true ↔ k < key a)
  (hhit : ∀ a, hit a = true ↔ k = key a)
include hl hhit

/-- **The search finds the node with the key.** -/
theorem SearchTree.find_eq_some_iff (h : SearchTree key t) {x : α} :
    t.find less hit = some x ↔ x ∈ t.inorder ∧ key x = k := by
  constructor
  · intro hf
    obtain ⟨hx, -, hk⟩ := find_mem hf
    exact ⟨hx, ((hhit x).mp hk).symm⟩
  · rintro ⟨hx, hk⟩
    have hs : (t.find less hit).isSome := by
      refine (find_isSome_iff (h.imp fun {a b} hab => ?_) fun a _ ha => ?_).mpr
        ⟨x, hx, (hhit x).mpr hk.symm⟩
      · rw [hl, hl, hhit]
        exact ⟨fun ha => ha.trans hab, fun ha => .inl (ha ▸ hab)⟩
      · rw [← Bool.not_eq_true, hl, (hhit a).mp ha]
        exact lt_irrefl _
    obtain ⟨y, hy⟩ := Option.isSome_iff_exists.mp hs
    obtain ⟨hmem, -, hky⟩ := find_mem hy
    rwa [h.eq_of_key_eq hx hmem (hk.trans ((hhit y).mp hky))]

theorem SearchTree.find_eq_none_iff (h : SearchTree key t) :
    t.find less hit = none ↔ ∀ x ∈ t.inorder, key x ≠ k := by
  rw [Option.eq_none_iff_forall_ne_some]
  refine forall_congr' fun x => ?_
  rw [Ne, h.find_eq_some_iff hl hhit, not_and]

end Search

/-- **Insertion of a node with a new key** keeps the order. -/
theorem SearchTree.insert (h : SearchTree key t) {x : α} {before : α → Bool}
    (hb : ∀ a ∈ t.inorder, before a = true ↔ key x < key a)
    (hx : ∀ y ∈ t.inorder, key y ≠ key x) : SearchTree key (t.insert before x) := by
  have := isStrictWeakOrder_of_isOrderConnected (r := fun a b : κ => a < b)
  obtain ⟨xs, ys, hs, hle, hy⟩ := StableSort.exists_split (h.imp not_lt_of_gt) (key x)
  have hxs : ∀ a ∈ xs, key a < key x := fun a ha =>
    (not_lt.mp (hle a ha)).lt_of_ne (hx a (hs ▸ mem_append_left _ ha))
  have hin : (t.insert before x).inorder = xs ++ x :: ys := by
    refine inorder_insert hs (fun z hz => ?_) fun z hz => ?_
    · rw [← Bool.not_eq_true, hb z (hs ▸ mem_append_left _ hz)]
      exact hle z hz
    · exact (hb z (hs ▸ mem_append_right _ hz)).mpr (hy z hz)
  rw [SearchTree, hs] at h
  obtain ⟨hp, hpy, hc⟩ := pairwise_append.mp h
  rw [SearchTree, hin]
  refine pairwise_append.mpr ⟨hp, pairwise_cons.mpr ⟨hy, hpy⟩, fun a ha => ?_⟩
  exact forall_mem_cons.mpr ⟨hxs a ha, hc a ha⟩

end SearchTree

/-! ## Trees built by insertion

A node lies above all nodes that were inserted after it into its interval. -/

section Build

variable (before : α → α → Bool)

def insertAll (t : BinaryTree α) (xs : List α) : BinaryTree α :=
  xs.foldl (fun t x => t.insert (before x) x) t

/-- The tree after the insertion of a list of elements into the empty tree. -/
def build (xs : List α) : BinaryTree α := insertAll before nil xs

variable {xs : List α}

theorem build_snoc (x : α) : build before (xs ++ [x]) = (build before xs).insert (before x) x := by
  rw [build, insertAll, foldl_append]
  rfl

theorem mem_inorder_build {xs : List α} {z : α} : z ∈ (build before xs).inorder ↔ z ∈ xs := by
  induction xs using reverseRecOn with
  | nil => rfl
  | append_singleton xs x ih =>
    rw [build_snoc, mem_inorder_insert, ih, mem_append, mem_singleton, or_comm]

/-- Below a node, the elements that go before it are inserted on its left and the others on its
right, in the order in which they come. -/
theorem insertAll_node (y : α) (l r : BinaryTree α) : insertAll before (node y l r) xs =
      node y (insertAll before l (xs.filter fun x => before x y))
        (insertAll before r (xs.filter fun x => !before x y)) := by
  induction xs generalizing l r with
  | nil => rfl
  | cons x xs ih =>
    have hs : insertAll before (node y l r) (x :: xs) =
        insertAll before ((node y l r).insert (before x) x) xs := rfl
    rw [hs, insert]
    by_cases hx : before x y = true
    · rw [if_pos hx, ih]
      simp [hx, insertAll]
    · rw [if_neg hx, ih]
      simp [hx, insertAll]

theorem build_cons (y : α) :
    build before (y :: xs) = node y (build before (xs.filter fun x => before x y))
      (build before (xs.filter fun x => !before x y)) :=
  insertAll_node before y nil nil

variable {before} {less hit : α → Bool}

theorem find?_filter_of_hit {xs : List α} {p : α → Bool} (h : ∀ x ∈ xs, hit x = true → p x = true) :
    (xs.filter p).find? hit = xs.find? hit := by
  rw [find?_filter]
  refine find?_congr fun x hx => Bool.eq_iff_iff.mpr ?_
  rw [decide_eq_true_iff]
  exact and_iff_right_of_imp (h x hx)

/-- **The search finds the hit that was inserted first**, if order and comparison agree. -/
theorem find_build : ∀ {xs : List α},
    (∀ y ∈ xs, ∀ z ∈ xs, less y = true → before z y = false → less z = true) →
    (∀ y ∈ xs, ∀ z ∈ xs, hit z = true → before z y = true → less y = true ∨ hit y = true) →
    (∀ x ∈ xs, hit x = true → less x = false) →
    (build before xs).find less hit = xs.find? hit
  | [], _, _, _ => rfl
  | y :: xs, hl, hh, hlt => by
    have hs : ∀ p : α → Bool, ∀ z ∈ xs.filter p, z ∈ y :: xs :=
      fun p z hz => mem_cons_of_mem _ (mem_of_mem_filter hz)
    have ih : ∀ p : α → Bool,
        (build before (xs.filter p)).find less hit = (xs.filter p).find? hit := by
      intro p
      exact find_build (fun a ha b hb => hl a (hs p a ha) b (hs p b hb))
        (fun a ha b hb => hh a (hs p a ha) b (hs p b hb)) fun a ha => hlt a (hs p a ha)
    rw [build_cons, find]
    by_cases hly : less y = true
    · -- all hits go before `y`, which is none
      have hy : hit y = false := by
        by_contra h
        simp [hlt y mem_cons_self (by simpa using h)] at hly
      rw [if_pos hly, ih, find?_cons_of_neg (by simp [hy])]
      refine find?_filter_of_hit fun z hz hzh => ?_
      by_contra hb
      have := hl y mem_cons_self z (mem_cons_of_mem _ hz) hly (by simpa using hb)
      simp [hlt z (mem_cons_of_mem _ hz) hzh] at this
    · rw [if_neg hly]
      by_cases hy : hit y = true
      · rw [if_pos hy, find?_cons_of_pos hy]
      · -- no hit goes before `y`
        rw [if_neg hy, ih, find?_cons_of_neg hy]
        refine find?_filter_of_hit fun z hz hzh => ?_
        by_contra hb
        rcases hh y mem_cons_self z (mem_cons_of_mem _ hz) hzh (by simpa using hb) with h | h
        · exact hly h
        · exact hy h
  termination_by xs => xs.length
  decreasing_by exact Nat.lt_succ_of_le (length_filter_le p xs)

end Build

end BinaryTree
