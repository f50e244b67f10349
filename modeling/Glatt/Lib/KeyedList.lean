import Mathlib.Order.Lattice
import Mathlib.Tactic.Common

/-!
# Keyed lists

Entries listed in the order of their keys, which are distinct, as a search tree lists them: lookup,
change of an entry, and insertion of an entry.

## Main definitions

* `KeyedList κ β`: entries in the order of their keys
* `KeyedList.get k l`: the entry at the key `k`
* `KeyedList.modify k f l`: the entry at the key `k` changed by `f`
* `KeyedList.put k v l`: an entry added at its place, or replaced

## Main results

* `get_modify`, `get_put`: the entries after a change and after an insertion
* `get_eq_some_iff`: the listed entries are those that are found
-/

variable {κ β : Type} [LinearOrder κ] {l : List (κ × β)} {k k' : κ} {v : β}

structure KeyedList (κ β : Type) [LinearOrder κ] where
  entries : List (κ × β)
  sorted : entries.Pairwise fun a b => a.1 < b.1

namespace KeyedList

open List

/-! ## The lists of entries -/

/-- The entry at the key `k` in a list. -/
def find (k : κ) : List (κ × β) → Option β
  | [] => none
  | (k', v) :: l => if k = k' then some v else find k l

/-- A list with an entry added in front of the first greater key, or replaced. -/
def add (k : κ) (v : β) : List (κ × β) → List (κ × β)
  | [] => [(k, v)]
  | (k', v') :: l =>
    if k < k' then (k, v) :: (k', v') :: l
    else if k = k' then (k, v) :: l
    else (k', v') :: add k v l

theorem mem_add {k : κ} {v : β} {e : κ × β} (he : e ∈ add k v l) : e = (k, v) ∨ e ∈ l := by
  induction l with
  | nil => exact .inl (mem_singleton.mp he)
  | cons e' l ih =>
    rw [add] at he
    split_ifs at he
    · exact mem_cons.mp he
    · exact (mem_cons.mp he).imp_right (mem_cons_of_mem _)
    · rcases mem_cons.mp he with rfl | he
      · exact .inr mem_cons_self
      · exact (ih he).imp_right (mem_cons_of_mem _)

theorem sorted_add (hl : l.Pairwise fun a b => a.1 < b.1) :
    (add k v l).Pairwise fun a b => a.1 < b.1 := by
  induction l with
  | nil => exact pairwise_singleton _ _
  | cons e l ih =>
    have hh := (pairwise_cons.mp hl).1
    rw [add]
    split_ifs with hlt heq
    · refine pairwise_cons.mpr ⟨fun e' he' => ?_, hl⟩
      rcases mem_cons.mp he' with rfl | he'
      · exact hlt
      · exact lt_trans hlt (hh e' he')
    · exact pairwise_cons.mpr ⟨heq ▸ hh, (pairwise_cons.mp hl).2⟩
    · refine pairwise_cons.mpr ⟨fun e' he' => ?_, ih (pairwise_cons.mp hl).2⟩
      rcases mem_add he' with rfl | he'
      · exact lt_of_le_of_ne (not_lt.mp hlt) fun h => heq h.symm
      · exact hh e' he'

theorem find_add : find k' (add k v l) = if k' = k then some v else find k' l := by
  induction l with
  | nil => rfl
  | cons e l ih =>
    obtain ⟨k₁, -⟩ := e
    rw [add]
    by_cases hlt : k < k₁
    · rw [if_pos hlt, find]
    · rw [if_neg hlt]
      by_cases heq : k = k₁
      · subst heq
        rw [if_pos rfl, find, find]
        split_ifs <;> rfl
      · rw [if_neg heq, find, find, ih]
        by_cases hk₁ : k' = k₁
        · have hk' : k' ≠ k := fun e => heq (e.symm.trans hk₁)
          rw [if_pos hk₁, if_neg hk', if_pos hk₁]
        · rw [if_neg hk₁, if_neg hk₁]

theorem find_map (g : κ → β → β) :
    find k (l.map fun e => (e.1, g e.1 e.2)) = (find k l).map (g k) := by
  induction l with
  | nil => rfl
  | cons e l ih =>
    rw [map_cons, find, find, ih]
    split_ifs with hk
    · rw [hk]
      rfl
    · rfl

theorem find_eq_some_iff {k : κ} {v : β}
    (hl : l.Pairwise fun a b => a.1 < b.1) : find k l = some v ↔ (k, v) ∈ l := by
  induction l with
  | nil => simp [find]
  | cons e l ih =>
    obtain ⟨k₁, v₁⟩ := e
    obtain ⟨hh, ht⟩ := pairwise_cons.mp hl
    rw [find]
    by_cases hk : k = k₁
    · subst hk
      -- a later entry has a greater key
      have hn : (k, v) ∉ l := fun h => lt_irrefl k (hh _ h)
      simp [hn, eq_comm]
    · rw [if_neg hk, ih ht]
      simp [hk]

/-! ## Keyed lists -/

/-- No entries. -/
def empty : KeyedList κ β := ⟨[], List.Pairwise.nil⟩

/-- The entry at the key `k`. -/
def get (k : κ) (l : KeyedList κ β) : Option β := find k l.entries

/-- The entry at the key `k`, changed by `f`. -/
def modify (k : κ) (f : β → β) (l : KeyedList κ β) : KeyedList κ β where
  entries := l.entries.map fun e => (e.1, if e.1 = k then f e.2 else e.2)
  sorted := pairwise_map.mpr l.sorted

/-- An entry added at its place, or replaced. -/
def put (k : κ) (v : β) (l : KeyedList κ β) : KeyedList κ β where
  entries := add k v l.entries
  sorted := sorted_add l.sorted

@[simp] theorem get_empty : get k (empty : KeyedList κ β) = none := rfl

theorem get_modify (f : β → β) (l : KeyedList κ β) :
    get k' (modify k f l) = if k' = k then (get k' l).map f else get k' l := by
  rw [get, modify, find_map (fun k' v => if k' = k then f v else v)]
  split_ifs with hk
  · simp [get]
  · simp [get]

theorem get_put (l : KeyedList κ β) : get k' (put k v l) = if k' = k then some v else get k' l :=
  find_add

theorem get_eq_some_iff {k : κ} {v : β} {l : KeyedList κ β} :
    get k l = some v ↔ (k, v) ∈ l.entries :=
  find_eq_some_iff l.sorted

end KeyedList
