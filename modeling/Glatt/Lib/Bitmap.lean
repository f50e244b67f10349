import Mathlib.Data.Nat.Bitwise
import Mathlib.Data.UInt
import Mathlib.Order.Interval.Finset.Nat

/-!
# Bitmaps in words

A bitmap is a sequence of 64-bit words; bit `n` is bit `n % 64` of word `n / 64`. The operations are
those that code does on words, and the lemmas say what they do to the set of bits.

## Main definitions

* `bit j`: the word with bit `j`
* `IsSet m n`: bit `n` of the bitmap `m` is set
* `setAt`, `clearAt`: set and clear one bit
* `members m limit`: the set bits below a limit
* `firstSet m words limit`: the search for a set bit, word by word

## Main results

* `isSet_setAt`, `isSet_clearAt`: one bit changes
* `firstSet_eq_some`, `firstSet_eq_none`: the search finds a set bit if there is one
-/

namespace Bitmap

open Function List

/-- The word with bit `j`. -/
def bit (j : ℕ) : UInt64 := 1 <<< UInt64.ofNat j

/-! ## Words -/

section Words

variable {w : UInt64} {j k : ℕ}

theorem toNat_bit (hj : j < 64) : (bit j).toNat = 2 ^ j := by
  have hj' : (UInt64.ofNat j).toNat = j := UInt64.toNat_ofNat_of_lt' (by simp [UInt64.size]; omega)
  have hlt : 2 ^ j < 2 ^ 64 := Nat.pow_lt_pow_right (by decide) hj
  rw [bit, UInt64.toNat_shiftLeft, hj', Nat.mod_eq_of_lt hj, UInt64.toNat_one, Nat.one_shiftLeft,
    Nat.mod_eq_of_lt hlt]

theorem and_bit_ne_zero (hj : j < 64) : w &&& bit j ≠ 0 ↔ w.toNat.testBit j = true := by
  rw [Ne, ← UInt64.toNat_inj, UInt64.toNat_and, toNat_bit hj, Nat.and_two_pow]
  cases w.toNat.testBit j <;> simp

theorem testBit_or_bit (hj : j < 64) :
    (w ||| bit j).toNat.testBit k = true ↔ k = j ∨ w.toNat.testBit k = true := by
  rw [UInt64.toNat_or, Nat.testBit_or, toNat_bit hj, Nat.testBit_two_pow, Bool.or_eq_true,
    decide_eq_true_eq, or_comm, eq_comm]

theorem testBit_not (hk : k < 64) : (~~~ w).toNat.testBit k = !w.toNat.testBit k := by
  have hn : (~~~ w).toNat = 2 ^ 64 - (w.toNat + 1) := by
    rw [UInt64.toNat_not, UInt64.size]
    omega
  rw [hn, Nat.testBit_two_pow_sub_succ w.toNat_lt, decide_eq_true hk, Bool.true_and]

theorem testBit_and_not_bit (hj : j < 64) (hk : k < 64) :
    (w &&& ~~~ bit j).toNat.testBit k = true ↔ k ≠ j ∧ w.toNat.testBit k = true := by
  rw [UInt64.toNat_and, Nat.testBit_and, testBit_not hk, toNat_bit hj, Nat.testBit_two_pow,
    Bool.and_eq_true, Bool.not_eq_true', decide_eq_false_iff_not, and_comm, eq_comm]

theorem testBit_bit_sub_one (hj : j < 64) : (bit j - 1).toNat.testBit k = true ↔ k < j := by
  have hle : (1 : UInt64) ≤ bit j := by
    rw [UInt64.le_iff_toNat_le, toNat_bit hj]
    exact Nat.one_le_two_pow
  rw [UInt64.toNat_sub_of_le _ _ hle, toNat_bit hj, UInt64.toNat_one, Nat.testBit_two_pow_sub_one,
    decide_eq_true_eq]

end Words

/-! ## Bitmaps -/

/-- Bit `n` is set. -/
def IsSet (m : ℕ → UInt64) (n : ℕ) : Prop := (m (n / 64)).toNat.testBit (n % 64) = true

instance (m : ℕ → UInt64) (n : ℕ) : Decidable (IsSet m n) := inferInstanceAs (Decidable (_ = true))

def setAt (m : ℕ → UInt64) (n : ℕ) : ℕ → UInt64 := update m (n / 64) (m (n / 64) ||| bit (n % 64))

def clearAt (m : ℕ → UInt64) (n : ℕ) : ℕ → UInt64 :=
  update m (n / 64) (m (n / 64) &&& ~~~ bit (n % 64))

section Maps

variable {m : ℕ → UInt64} {n k limit words : ℕ}

/-- **One bit is set**, and no other changes. -/
theorem isSet_setAt : IsSet (setAt m n) k ↔ k = n ∨ IsSet m k := by
  unfold IsSet setAt
  by_cases hw : k / 64 = n / 64
  · rw [hw, update_self, testBit_or_bit (Nat.mod_lt _ (by decide))]
    have : k % 64 = n % 64 ↔ k = n := by omega
    rw [this]
  · have hne : k ≠ n := fun h => hw (by rw [h])
    rw [update_of_ne hw]
    simp [hne]

/-- **One bit is cleared**, and no other changes. -/
theorem isSet_clearAt : IsSet (clearAt m n) k ↔ k ≠ n ∧ IsSet m k := by
  unfold IsSet clearAt
  by_cases hw : k / 64 = n / 64
  · rw [hw, update_self, testBit_and_not_bit (Nat.mod_lt _ (by decide)) (Nat.mod_lt _ (by decide))]
    have : k % 64 = n % 64 ↔ k = n := by omega
    rw [Ne, this]
  · have hne : k ≠ n := fun h => hw (by rw [h])
    rw [update_of_ne hw]
    simp [hne]

/-- The set bits below a limit. -/
def members (m : ℕ → UInt64) (limit : ℕ) : Finset ℕ := {n ∈ Finset.range limit | IsSet m n}

theorem mem_members : n ∈ members m limit ↔ n < limit ∧ IsSet m n := by
  rw [members, Finset.mem_filter, Finset.mem_range]

theorem members_setAt (hn : n < limit) :
    members (setAt m n) limit = insert n (members m limit) := by
  ext k
  simp only [mem_members, isSet_setAt, Finset.mem_insert]
  constructor
  · rintro ⟨hk, rfl | hs⟩
    · exact .inl rfl
    · exact .inr ⟨hk, hs⟩
  · rintro (rfl | ⟨hk, hs⟩)
    · exact ⟨hn, .inl rfl⟩
    · exact ⟨hk, .inr hs⟩

theorem members_clearAt : members (clearAt m n) limit = (members m limit).erase n := by
  ext k
  simp only [mem_members, isSet_clearAt, Finset.mem_erase]
  exact and_left_comm

/-! ## The search for a set bit -/

/-- The first of the words below `words` that is not 0 and has a set bit whose number is below
`limit`, and that bit. -/
def firstSet (m : ℕ → UInt64) (words limit : ℕ) : Option ℕ :=
  (range words).findSome? fun i =>
    if m i = 0 then none
    else ((range (min 64 (limit - i * 64))).find? fun j => m i &&& bit j ≠ 0).map (i * 64 + ·)

theorem isSet_mul_add {i j : ℕ} (hj : j < 64) :
    IsSet m (i * 64 + j) ↔ (m i).toNat.testBit j = true := by
  rw [IsSet, show (i * 64 + j) / 64 = i by omega, show (i * 64 + j) % 64 = j by omega]

theorem firstSet_eq_some (h : firstSet m words limit = some n) : n < limit ∧ IsSet m n := by
  obtain ⟨i, -, hi⟩ := exists_of_findSome?_eq_some h
  split at hi
  · cases hi
  · obtain ⟨j, hj, rfl⟩ := Option.map_eq_some_iff.mp hi
    have hlt := mem_range.mp (mem_of_find?_eq_some hj)
    have hs := find?_some hj
    rw [decide_eq_true_eq, and_bit_ne_zero (by omega)] at hs
    exact ⟨by omega, (isSet_mul_add (by omega)).mpr hs⟩

/-- **If nothing is found**, no bit is set. -/
theorem firstSet_eq_none (h : firstSet m words limit = none) (hn : n < limit)
    (hw : n < words * 64) : ¬ IsSet m n := by
  intro hs
  have hi := findSome?_eq_none_iff.mp h (n / 64) (mem_range.mpr (by omega))
  rw [IsSet] at hs
  split at hi
  · rename_i hz
    rw [hz, UInt64.toNat_zero, Nat.zero_testBit] at hs
    cases hs
  · have hj := find?_eq_none.mp (Option.map_eq_none_iff.mp hi) (n % 64) (mem_range.mpr (by omega))
    rw [decide_eq_true_eq] at hj
    exact hj ((and_bit_ne_zero (Nat.mod_lt _ (by decide))).mpr hs)

end Maps

end Bitmap
