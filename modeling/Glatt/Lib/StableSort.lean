import Mathlib.Data.List.Nodup

/-!
# Lists in key order

A list of arrivals and the same elements in key order, elements with equal keys in the order of
their arrival. Keys are compared by a strict weak order, so two keys count as equal when neither
is less than the other.

## Main definitions

* `SameKey lt a b`: neither key is less than the other
* `StableSort key lt l s`: `s` lists the elements of `l` in key order, equal keys as in `l`

## Main results

* `StableSort.insert`: one more arrival goes behind the elements whose key is not greater
* `StableSort.erase`: erasing an element from both lists
-/

variable {α κ : Type} {key : α → κ} {lt : κ → κ → Prop} [DecidableRel lt]

/-- Neither of the keys is less than the other. -/
def SameKey (lt : κ → κ → Prop) (a b : κ) : Prop := ¬ lt a b ∧ ¬ lt b a

instance (a b : κ) : Decidable (SameKey lt a b) := inferInstanceAs (Decidable (_ ∧ _))

/-- **`s` is `l` in key order**, with equal keys in the order of `l`. -/
structure StableSort (key : α → κ) (lt : κ → κ → Prop) [DecidableRel lt] (l s : List α) :
    Prop where
  perm : s.Perm l
  sorted : s.Pairwise fun a b => ¬ lt (key b) (key a)
  stable : ∀ k, s.filter (fun a => SameKey lt k (key a)) = l.filter fun a => SameKey lt k (key a)

namespace StableSort

open List

theorem nil : StableSort key lt [] [] := ⟨List.Perm.refl _, List.Pairwise.nil, fun _ => rfl⟩

omit [DecidableRel lt] in
theorem lt_or_lt [IsStrictWeakOrder κ lt] {a b c : κ} (h : lt a c) : lt a b ∨ lt b c := by
  by_contra hn
  rw [not_or] at hn
  have hb : ¬ lt b a := fun hb => hn.2 (trans_of lt hb h)
  have hc : ¬ lt c b := fun hc => hn.1 (trans_of lt h hc)
  exact (IsStrictWeakOrder.incomp_trans a b c ⟨hn.1, hb⟩ ⟨hn.2, hc⟩).1 h

theorem exists_split [IsStrictWeakOrder κ lt] {s : List α}
    (hs : s.Pairwise fun a b => ¬ lt (key b) (key a)) (k : κ) :
    ∃ xs ys, s = xs ++ ys ∧ (∀ a ∈ xs, ¬ lt k (key a)) ∧ ∀ a ∈ ys, lt k (key a) := by
  induction s with
  | nil => exact ⟨[], [], rfl, by simp, by simp⟩
  | cons a s ih =>
    obtain ⟨ha, hs⟩ := pairwise_cons.mp hs
    by_cases hk : lt k (key a)
    · refine ⟨[], a :: s, rfl, by simp, ?_⟩
      rintro b (_ | ⟨_, hb⟩)
      · exact hk
      · exact (lt_or_lt hk).resolve_right (ha b hb)
    · obtain ⟨xs, ys, rfl, hx, hy⟩ := ih hs
      refine ⟨a :: xs, ys, rfl, ?_, hy⟩
      rintro b (_ | ⟨_, hb⟩)
      · exact hk
      · exact hx b hb

/-- **One more arrival** goes behind the elements whose key is not greater. -/
theorem insert [IsStrictWeakOrder κ lt] {l xs ys : List α} (h : StableSort key lt l (xs ++ ys))
    {x : α} (hx : ∀ a ∈ xs, ¬ lt (key x) (key a)) (hy : ∀ a ∈ ys, lt (key x) (key a)) :
    StableSort key lt (l ++ [x]) (xs ++ x :: ys) where
  perm := by
    refine perm_middle.trans ?_
    exact (h.perm.cons x).trans (perm_append_singleton x l).symm
  sorted := by
    obtain ⟨hs, hsy, hxy⟩ := pairwise_append.mp h.sorted
    refine pairwise_append.mpr ⟨hs, pairwise_cons.mpr ⟨?_, hsy⟩, ?_⟩
    · intro a ha hax
      exact irrefl_of lt (key x) (trans_of lt (hy a ha) hax)
    · rintro a ha b (_ | ⟨_, hb⟩)
      · exact hx a ha
      · exact hxy a ha b hb
  stable := by
    intro k
    have hk := h.stable k
    rw [filter_append, filter_append, filter_cons, ← hk]
    split
    · -- an equal key: nothing behind the new element has it
      have hkx : SameKey lt k (key x) := by simpa using ‹decide _ = true›
      have : ys.filter (fun a => SameKey lt k (key a)) = [] := by
        refine filter_eq_nil_iff.mpr fun a ha hka => ?_
        rcases lt_or_lt (hy a ha) with hlt | hlt
        · exact hkx.2 hlt
        · exact (of_decide_eq_true hka).1 hlt
      simp [this, hkx]
    · have hkx : ¬ SameKey lt k (key x) := by simpa using ‹¬ decide _ = true›
      simp [hkx]

/-- **Erasing** an element that occurs once. -/
theorem erase [DecidableEq α] {l s : List α} (h : StableSort key lt l s) (hl : l.Nodup) (x : α) :
    StableSort key lt (l.erase x) (s.erase x) where
  perm := h.perm.erase x
  sorted := h.sorted.sublist erase_sublist
  stable := by
    intro k
    rw [hl.erase_eq_filter, (h.perm.nodup_iff.mpr hl).erase_eq_filter, filter_comm,
      h.stable k, filter_comm]

end StableSort
