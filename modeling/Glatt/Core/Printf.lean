import Glatt.Lib.Outcome
import Mathlib.Data.Nat.Digits.Lemmas

/-!
# Formatted output

`kfformat` of `core_printf.c` writes the digits of a number into a buffer of 64 bytes, the last one
first, and then puts them out in reverse.

## Main definitions

* `kfformat`: the function
* `Numeral`: the digits of a number in a base, the last one first

## Main results

* `kfformat_shortest`: the shortest numeral is put out, after the sign of a negative number
-/

namespace Glatt

open Imperative List

def kfformatSet (d : ℕ) : UInt8 :=
  [48, 49, 50, 51, 52, 53, 54, 55, 56, 57, 97, 98, 99, 100, 101, 102].getD d 0

def kfformatRound (base : UInt64) :
    UInt64 × List UInt8 → Outcome ((UInt64 × List UInt8) ⊕ List UInt8)
  | (val, str) =>
    if 64 ≤ str.length then .error .fault
    else
      let str := str ++ [kfformatSet (val % base).toNat]
      if val / base = 0 then pure (.inr str) else pure (.inl (val / base, str))

def kfformat (val base : UInt64) (sign : Bool) : Outcome (List UInt8) := do
  let minus := sign && decide (val.toInt64 < 0)
  let val := if minus then ~~~val + 1 else val
  let str ← loop (kfformatRound base) (val.toNat + 1) (val, [])
  pure ((if minus then [45] else []) ++ str.reverse)

/-- The digits of a number in a base, the last one first. -/
structure Numeral (base n : ℕ) (ds : List ℕ) : Prop where
  nonempty : ds ≠ []
  digit : ∀ d ∈ ds, d < base
  value : Nat.ofDigits base ds = n

def numeral (base n : ℕ) : List ℕ := if n = 0 then [0] else base.digits n

section

variable {b n : ℕ} (hb : 1 < b)
include hb

theorem numeral_eq : numeral b n = n % b :: if n / b = 0 then [] else numeral b (n / b) := by
  by_cases hn : n = 0
  · simp [hn, numeral]
  rw [numeral, if_neg hn, Nat.digits_def' hb (Nat.pos_of_ne_zero hn)]
  split_ifs with hq
  · simp [hq]
  · rw [numeral, if_neg hq]

theorem numeral_numeral : Numeral b n (numeral b n) := by
  rw [numeral]
  split_ifs with hn
  · exact ⟨by simp, by simpa using by omega, by simp [hn]⟩
  · exact ⟨Nat.digits_ne_nil_iff_ne_zero.mpr hn, fun d => Nat.digits_lt_base hb,
      Nat.ofDigits_digits b n⟩

theorem Numeral.length_le {ds : List ℕ} (h : Numeral b n ds) :
    (numeral b n).length ≤ ds.length := by
  rw [numeral]
  split_ifs with hn
  · exact length_pos_iff.mpr h.nonempty
  · rw [Nat.digits_length_le_iff hb, ← h.value]
    exact Nat.ofDigits_lt_base_pow_length hb h.digit

theorem numeral_fits (hn : n < 2 ^ 64) : (numeral b n).length ≤ 64 := by
  rw [numeral]
  split_ifs
  · decide
  · exact (Nat.digits_length_le_iff hb _).mpr (hn.trans_le (Nat.pow_le_pow_left hb _))

end

theorem kfformatRound_loop {base : UInt64} (hb : 1 < base.toNat) {m : ℕ} {val : UInt64}
    (hm : val.toNat < m) {str : List UInt8}
    (hlen : str.length + (numeral base.toNat val.toNat).length ≤ 64) :
    loop (kfformatRound base) m (val, str) =
      .ok (str ++ (numeral base.toNat val.toNat).map kfformatSet) := by
  induction m generalizing val str with
  | zero => omega
  | succ m ih =>
    rw [numeral_eq hb, length_cons] at hlen
    rw [numeral_eq hb, loop, kfformatRound, if_neg (by omega), ← UInt64.toNat_mod]
    rw [← UInt64.toNat_div] at hlen ⊢
    have hz : (val / base).toNat = 0 ↔ val / base = 0 := by simp [← UInt64.toNat_inj]
    simp only [hz] at hlen ⊢
    split_ifs at hlen ⊢ with hq
    · simp [pure, Except.pure, Bind.bind, Except.bind]
    · have hpos : 0 < val.toNat := Nat.pos_of_ne_zero fun h0 => hq (hz.mp (by simp [h0]))
      have hlt : (val / base).toNat < m := by
        rw [UInt64.toNat_div]
        exact (Nat.div_lt_self hpos hb).trans_le (Nat.le_of_lt_succ hm)
      refine (ih hlt (by rw [length_append, length_singleton]; omega)).trans ?_
      rw [append_assoc, map_cons, singleton_append]

theorem natAbs_toInt (val : UInt64) : val.toInt64.toInt.natAbs =
    (if val.toInt64 < 0 then ~~~val + 1 else val).toNat := by
  have hlt := val.toNat_lt
  have hint : val.toInt64.toInt = if 2 * val.toNat < 2 ^ 64 then (val.toNat : Int) else
      val.toNat - 2 ^ 64 := BitVec.toInt_eq_toNat_cond ..
  by_cases hneg : val.toInt64 < 0
  · rw [if_pos hneg, UInt64.toNat_add, UInt64.toNat_not, UInt64.toNat_one, UInt64.size]
    rw [Int64.lt_iff_toInt_lt, hint, Int64.toInt_zero] at hneg
    split_ifs at hint <;> omega
  · rw [if_neg hneg]
    rw [Int64.lt_iff_toInt_lt, hint, Int64.toInt_zero] at hneg
    split_ifs at hint <;> omega

/-- **`kfformat`** puts out the shortest numeral of the number, after a sign if it is negative, and
does not write outside of its buffer. -/
theorem kfformat_shortest (val base : UInt64) (hb : 2 ≤ base.toNat ∧ base.toNat ≤ 16)
    (sign : Bool) :
    ∃ ds, Numeral base.toNat (if sign then val.toInt64.toInt.natAbs else val.toNat) ds ∧
      (∀ ds', Numeral base.toNat (if sign then val.toInt64.toInt.natAbs else val.toNat) ds' →
        ds.length ≤ ds'.length) ∧
      kfformat val base sign = .ok ((if sign && decide (val.toInt64 < 0) then [45] else []) ++
        (ds.map kfformatSet).reverse) := by
  have habs : (if sign && decide (val.toInt64 < 0) then ~~~val + 1 else val).toNat =
      if sign then val.toInt64.toInt.natAbs else val.toNat := by
    cases sign with
    | false => rfl
    | true => simp only [Bool.true_and, decide_eq_true_eq, if_true, natAbs_toInt]
  refine ⟨_, numeral_numeral hb.1, fun _ h => h.length_le hb.1, ?_⟩
  rw [← habs, kfformat, kfformatRound_loop hb.1 (Nat.lt_succ_self _)]
  · rfl
  · rw [length_nil, Nat.zero_add]
    exact numeral_fits hb.1 (UInt64.toNat_lt _)

theorem kfformat_shortest_decimal : ∃ ds, Numeral 10 42 ds ∧
    kfformat 42 10 false = .ok (ds.map kfformatSet).reverse := by
  obtain ⟨ds, hnum, -, hout⟩ := kfformat_shortest 42 10 (by decide) false
  exact ⟨ds, hnum, hout⟩

end Glatt
