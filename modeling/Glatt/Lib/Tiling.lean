import Mathlib.Data.List.Basic

/-!
# Tilings of an interval

A list of items, each with a start and a length, that covers an interval of naturals from one end
to the other without gap or overlap.

## Main definitions

* `Tiles lo len a b xs`: the items `xs` tile the interval from `a` to `b`

## Main results

* `tiles_append`: a tiling splits where the list does
* `Tiles.pairwise`, `Tiles.covers_iff`: the tiles are in order and disjoint, and cover the interval
-/

namespace Tiling

open List

variable {ι : Type} {lo len lo' len' : ι → ℕ} {a b : ℕ} {xs ys : List ι}

/-- The items `xs` tile the interval from `a` to `b`: each starts where the one before ends, and
none is empty. -/
def Tiles (lo len : ι → ℕ) : ℕ → ℕ → List ι → Prop
  | a, b, [] => a = b
  | a, b, x :: xs => lo x = a ∧ 0 < len x ∧ Tiles lo len (a + len x) b xs

theorem tiles_append :
    Tiles lo len a b (xs ++ ys) ↔ ∃ c, Tiles lo len a c xs ∧ Tiles lo len c b ys := by
  induction xs generalizing a with
  | nil => exact ⟨fun h => ⟨a, rfl, h⟩, by rintro ⟨c, rfl, h⟩; exact h⟩
  | cons x xs ih =>
    constructor
    · rintro ⟨hl, hlen, h⟩
      obtain ⟨c, hx, hy⟩ := ih.mp h
      exact ⟨c, ⟨hl, hlen, hx⟩, hy⟩
    · rintro ⟨c, ⟨hl, hlen, hx⟩, hy⟩
      exact ⟨hl, hlen, ih.mpr ⟨c, hx, hy⟩⟩

theorem tiles_middle {x : ι} :
    Tiles lo len a b (xs ++ x :: ys) ↔
      Tiles lo len a (lo x) xs ∧ 0 < len x ∧ Tiles lo len (lo x + len x) b ys := by
  rw [tiles_append]
  constructor
  · rintro ⟨_, hx, rfl, hlen, hy⟩
    exact ⟨hx, hlen, hy⟩
  · rintro ⟨hx, hlen, hy⟩
    exact ⟨_, hx, rfl, hlen, hy⟩

section

variable (h : Tiles lo len a b xs)
include h

theorem Tiles.congr (hs : ∀ x ∈ xs, lo' x = lo x ∧ len' x = len x) :
    Tiles lo' len' a b xs := by
  induction xs generalizing a with
  | nil => exact h
  | cons x xs ih =>
    obtain ⟨hl, hlen, h⟩ := h
    obtain ⟨elo, elen⟩ := hs x (by simp)
    refine ⟨elo.trans hl, elen ▸ hlen, ?_⟩
    rw [elen]
    exact ih h fun y hy => hs y (by simp [hy])

theorem Tiles.le : a ≤ b := by
  induction xs generalizing a with
  | nil => exact Nat.le_of_eq h
  | cons x xs ih =>
    have := ih h.2.2
    omega

theorem Tiles.bounds {x : ι} (hx : x ∈ xs) : a ≤ lo x ∧ 0 < len x ∧ lo x + len x ≤ b := by
  obtain ⟨ys, zs, rfl⟩ := append_of_mem hx
  obtain ⟨hy, hlen, hz⟩ := tiles_middle.mp h
  exact ⟨hy.le, hlen, hz.le⟩

theorem Tiles.dvd {m : ℕ} (ha : m ∣ a) (hlen : ∀ x ∈ xs, m ∣ len x) {x : ι} (hx : x ∈ xs) :
    m ∣ lo x := by
  induction xs generalizing a with
  | nil => cases hx
  | cons y ys ih =>
    obtain ⟨rfl, -, h⟩ := h
    rcases mem_cons.mp hx with rfl | hx
    · exact ha
    · exact ih h (Nat.dvd_add ha (hlen y (by simp))) (fun z hz => hlen z (by simp [hz])) hx

theorem Tiles.eq_of_covers {x y : ι} (hx : x ∈ xs) (hy : y ∈ xs) {n : ℕ}
    (hn : lo x ≤ n ∧ n < lo x + len x) (hny : lo y ≤ n ∧ n < lo y + len y) : x = y := by
  obtain ⟨ys, zs, rfl⟩ := append_of_mem hx
  obtain ⟨hys, -, hz⟩ := tiles_middle.mp h
  rcases mem_append.mp hy with hy | hy
  · have := (hys.bounds hy).2.2
    omega
  · rcases mem_cons.mp hy with rfl | hy
    · rfl
    · have := (hz.bounds hy).1
      omega

theorem Tiles.pairwise : xs.Pairwise fun x y => lo x + len x ≤ lo y := by
  induction xs generalizing a with
  | nil => exact List.Pairwise.nil
  | cons x xs ih =>
    obtain ⟨rfl, -, h⟩ := h
    exact pairwise_cons.mpr ⟨fun y hy => (h.bounds hy).1, ih h⟩

/-- **The tiles cover the interval**, and nothing else. -/
theorem Tiles.covers_iff {n : ℕ} : (∃ x ∈ xs, lo x ≤ n ∧ n < lo x + len x) ↔ a ≤ n ∧ n < b := by
  induction xs generalizing a with
  | nil =>
    obtain rfl : a = b := h
    simp only [not_mem_nil, false_and, exists_false, false_iff]
    omega
  | cons x xs ih =>
    obtain ⟨rfl, -, h⟩ := h
    have hle := h.le
    simp only [mem_cons, exists_eq_or_imp, ih h]
    omega

end

end Tiling
