import Glatt.Storage.TarfsLookup

/-!
# The numbers of a tar header

The ustar format has its numbers in octal digits, ended by a space, by a NUL byte or by the end of
the field. `tar_header_decode` knows the space and the end only, and takes `8` and `9` for digits.

## Main definitions

* `ustarNumber`: the number in a field, by the format
* `DecodesRight`: the digits of a field end as `tar_header_decode` expects it

## Main results

* `tar_header_decode_iff`: the fields that `tar_header_decode` decodes as the format does
* `tar_size_rejected`: a size that ends with a NUL byte is rejected
-/

namespace Glatt

open Buffer

def IsOctal (b : UInt8) : Prop := 0x30 ≤ b.toNat ∧ b.toNat ≤ 0x37

def IsDecimal (b : UInt8) : Prop := 0x30 ≤ b.toNat ∧ b.toNat ≤ 0x39

instance : DecidablePred IsOctal := fun _ => inferInstanceAs (Decidable (_ ∧ _))

instance : DecidablePred IsDecimal := fun _ => inferInstanceAs (Decidable (_ ∧ _))

def ustarNumberFrom (v : ℕ) : List UInt8 → Option ℕ
  | [] => some v
  | b :: field =>
    if IsOctal b then ustarNumberFrom (v * 8 + (b.toNat - 0x30)) field
    else if b = 0x20 ∨ b = 0 then some v
    else none

/-- **The number in a field** of the ustar format, if there is one. -/
def ustarNumber (field : List UInt8) : Option ℕ := ustarNumberFrom 0 field

/-- What follows the octal digits is not a NUL byte, and not an `8` or a `9` with decimal digits up
to a space or the end. -/
def DecodesRight (field : List UInt8) : Prop :=
  match field.dropWhile IsOctal with
  | [] => True
  | b :: rest => b ≠ 0 ∧ (IsDecimal b → ∃ c ∈ rest.takeWhile (· ≠ 0x20), ¬ IsDecimal c)

variable {b : UInt8} {field : List UInt8} {v : UInt64}

theorem not_digit_iff : (b < 0x30 ∨ 0x39 < b) ↔ ¬ IsDecimal b := by
  rw [IsDecimal]
  show (b.toNat < 0x30 ∨ 0x39 < b.toNat) ↔ _
  omega

theorem decimal_ne_space (h : IsDecimal b) : b ≠ 0x20 := by
  rintro rfl
  exact absurd h (by decide)

theorem tarHeaderDecodeFrom_decimal (h : IsDecimal b) : tarHeaderDecodeFrom v (b :: field) =
    tarHeaderDecodeFrom (v * 8 ||| (b - 0x30).toUInt64) field := by
  rw [tarHeaderDecodeFrom, if_neg (decimal_ne_space h),
    if_neg (not_digit_iff.not.mpr (not_not.mpr h))]

theorem tarHeaderDecodeFrom_eq_none : tarHeaderDecodeFrom v field = none ↔
    ∃ c ∈ field.takeWhile (· ≠ 0x20), ¬ IsDecimal c := by
  induction field generalizing v with
  | nil => simp [tarHeaderDecodeFrom]
  | cons b field ih =>
    by_cases hs : b = 0x20
    · simp [tarHeaderDecodeFrom, hs]
    by_cases hb : IsDecimal b
    · rw [tarHeaderDecodeFrom_decimal hb, ih]
      simp [hs, hb]
    · rw [tarHeaderDecodeFrom, if_pos (not_digit_iff.mpr hb)]
      simp [hs, hb]

theorem toNat_octal (hb : IsOctal b) {k : ℕ} (hv : v.toNat < 2 ^ (3 * k)) (hk : k < 12) :
    (v * 8 ||| (b - 0x30).toUInt64).toNat = v.toNat * 8 + (b.toNat - 0x30) ∧
      v.toNat * 8 + (b.toNat - 0x30) < 2 ^ (3 * (k + 1)) := by
  obtain ⟨hl, hh⟩ := hb
  have hp : 2 ^ (3 * k) ≤ 2 ^ 33 := Nat.pow_le_pow_right (by decide) (by omega)
  have hs : (b - 0x30).toNat = b.toNat - 0x30 :=
    UInt8.toNat_sub_of_le _ _ (UInt8.le_iff_toNat_le.mpr hl)
  have hm : (v * 8).toNat = 2 ^ 3 * v.toNat := by
    rw [UInt64.toNat_mul]
    show v.toNat * 8 % 2 ^ 64 = _
    omega
  constructor
  · rw [UInt64.toNat_or, hm, UInt8.toNat_toUInt64, hs,
      ← Nat.two_pow_add_eq_or_of_lt (show b.toNat - 0x30 < 2 ^ 3 by omega)]
    omega
  · rw [show 3 * (k + 1) = 3 * k + 3 by omega, Nat.pow_add]
    omega

theorem tarHeaderDecodeFrom_iff {k : ℕ} (hv : v.toNat < 2 ^ (3 * k)) (hk : k + field.length ≤ 12) :
    (tarHeaderDecodeFrom v field).map UInt64.toNat = ustarNumberFrom v.toNat field ↔
      DecodesRight field := by
  induction field generalizing v k with
  | nil => exact ⟨fun _ => trivial, fun _ => rfl⟩
  | cons b field ih =>
    rw [List.length_cons] at hk
    rw [ustarNumberFrom]
    by_cases ho : IsOctal b
    · -- the number goes on
      obtain ⟨hn, hlt⟩ := toNat_octal ho hv (by omega)
      have hr : DecodesRight (b :: field) ↔ DecodesRight field := by
        simp [DecodesRight, ho]
      rw [tarHeaderDecodeFrom_decimal ⟨ho.1, ho.2.trans (by decide)⟩, if_pos ho, hr, ← hn]
      exact ih (hn ▸ hlt) (by omega)
    -- the first byte that is no digit of the format
    have hr : DecodesRight (b :: field) ↔
        b ≠ 0 ∧ (IsDecimal b → ∃ c ∈ field.takeWhile (· ≠ 0x20), ¬ IsDecimal c) := by
      simp [DecodesRight, ho]
    rw [if_neg ho, hr]
    by_cases hd : IsDecimal b
    · have hend : ¬ (b = 0x20 ∨ b = 0) := by
        rintro (rfl | rfl)
        · exact absurd hd (by decide)
        · exact absurd hd (by decide)
      rw [if_neg hend, tarHeaderDecodeFrom_decimal hd, Option.map_eq_none_iff,
        tarHeaderDecodeFrom_eq_none]
      exact ⟨fun h => ⟨fun hz => hend (.inr hz), fun _ => h⟩, fun h => h.2 hd⟩
    by_cases hs : b = 0x20
    · simp [tarHeaderDecodeFrom, hs, IsDecimal]
    · rw [tarHeaderDecodeFrom, if_pos (not_digit_iff.mpr hd)]
      simp [hs, hd]

/-- **A field is decoded as the format says** exactly if its octal digits are not ended by a NUL
byte, or by an `8` or a `9` that only decimal digits follow. -/
theorem tar_header_decode_iff (hlen : field.length ≤ 12) :
    (tarHeaderDecode field).map UInt64.toNat = ustarNumber field ↔ DecodesRight field :=
  tarHeaderDecodeFrom_iff (k := 0) Nat.one_pos (by omega)

/-- The size `12`, ended by a space. -/
theorem tar_header_decode_iff_space :
    (tarHeaderDecode [0x31, 0x32, 0x20]).map UInt64.toNat = ustarNumber [0x31, 0x32, 0x20] :=
  (tar_header_decode_iff (by decide)).mpr
    (show (0x20 : UInt8) ≠ 0 ∧ _ from ⟨by decide, fun hd => absurd hd (by decide)⟩)

def nulHeader (i : ℕ) : UInt8 := if i = 135 then 0 else emptyHeader i

/-- **A size that ends with a NUL byte**, as most archives have it, is rejected, and so is the
header by a lookup that comes across it; a size of `8` is accepted. -/
theorem tar_size_rejected :
    ustarNumber (slice nulHeader 124 12) = some 0 ∧
      tarHeaderDecode (slice nulHeader 124 12) = none ∧
      (TarfsFileContext.ofHeader nulHeader 0).isNone ∧
      ustarNumber [0x38] = none ∧ tarHeaderDecode [0x38] = some 8 := by
  decide +kernel

end Glatt
