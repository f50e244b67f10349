import Mathlib.Data.UInt

/-!
# Page arithmetic

The address macros of `vm_page.h` on 64-bit addresses, with the page shift of the MIPS port, and
their values as naturals.

## Main definitions

* `pageFloor`, `pageRoundup`, `pageCount`, `xkphysMap`: the macros

## Main results

* the `toNat_` lemmas: the macros as division by and multiplication with the page size, and the
  direct map as addition
-/

namespace Glatt

def pageShift : UInt64 := 13

def pageSize : UInt64 := 1 <<< pageShift

def pageMask : UInt64 := pageSize - 1

def addrToPage (a : UInt64) : UInt64 := a >>> pageShift

def pageToAddr (a : UInt64) : UInt64 := a <<< pageShift

def pageFloor (a : UInt64) : UInt64 := a &&& ~~~ pageMask

def pageRoundup (a : UInt64) : UInt64 := pageFloor (a + (pageSize - 1))

def pageOffset (a : UInt64) : UInt64 := a &&& pageMask

def pageCount (a : UInt64) : UInt64 := addrToPage (a + (pageSize - 1))

def userBase : UInt64 := 0x0

def userEnd : UInt64 := 0xffffffffff

def kernelBase : UInt64 := 0xc000000000000000

def kernelEnd : UInt64 := 0xc00000ff7fffffff

def xkphysBase : UInt64 := 0x8000000000000000

def xkphysEnd : UInt64 := 0xbfffffffffffffff

def ccaCnc : UInt64 := 0x03

def xkphysMap (cca a : UInt64) : UInt64 := ((0x2 : UInt64) <<< 62) ||| (cca <<< 59) ||| a

def xkphysExtract (a : UInt64) : UInt64 := a &&& 0x07ffffffffffffff

def directBase : ℕ := 19 * 2 ^ 59

theorem toNat_ofNat {n : ℕ} (h : n < 2 ^ 64) : (UInt64.ofNat n).toNat = n :=
  UInt64.toNat_ofNat_of_lt' h

theorem ofNat_ne_zero {n : ℕ} (h₀ : 0 < n) (h : n < 2 ^ 64) : UInt64.ofNat n ≠ 0 := by
  intro hz
  have := congrArg UInt64.toNat hz
  simp at this
  omega

theorem ofNat_sub {n k : ℕ} (hk : k ≤ n) (h : n < 2 ^ 64) :
    UInt64.ofNat n - UInt64.ofNat k = UInt64.ofNat (n - k) := by
  apply UInt64.toNat_inj.mp
  rw [UInt64.toNat_sub_of_le, toNat_ofNat h, toNat_ofNat (by omega), toNat_ofNat (by omega)]
  rw [UInt64.le_iff_toNat_le, toNat_ofNat h, toNat_ofNat (by omega)]
  exact hk

variable {a : UInt64}

theorem toNat_addrToPage (a : UInt64) : (addrToPage a).toNat = a.toNat / 8192 := by
  rw [addrToPage, UInt64.toNat_shiftRight, Nat.shiftRight_eq_div_pow]
  rfl

theorem toNat_pageToAddr : (pageToAddr a).toNat = a.toNat * 8192 % 2 ^ 64 := by
  rw [pageToAddr, UInt64.toNat_shiftLeft, Nat.shiftLeft_eq]
  rfl

theorem toNat_pageOffset (a : UInt64) : (pageOffset a).toNat = a.toNat % 8192 := by
  exact Nat.and_two_pow_sub_one_eq_mod a.toNat 13

theorem toNat_pageFloor (a : UInt64) : (pageFloor a).toNat = a.toNat / 8192 * 8192 := by
  have hm : (~~~ pageMask).toNat = (2 ^ 51 - 1) <<< 13 := by decide
  have hf : a.toNat / 8192 * 8192 = (a.toNat >>> 13) <<< 13 := by
    rw [Nat.shiftLeft_eq, Nat.shiftRight_eq_div_pow]
  rw [pageFloor, UInt64.toNat_and, hm, hf]
  refine Nat.eq_of_testBit_eq fun i => ?_
  simp only [Nat.testBit_and, Nat.testBit_shiftLeft, Nat.testBit_shiftRight,
    Nat.testBit_two_pow_sub_one]
  by_cases hi : 13 ≤ i
  · simp only [hi, Nat.add_sub_cancel' hi]
    by_cases h6 : i < 64
    · simp [show i - 13 < 51 by omega]
    · -- beyond the width both sides have no bit
      have : a.toNat.testBit i = false :=
        Nat.testBit_lt_two_pow
          (Nat.lt_of_lt_of_le a.toNat_lt (Nat.pow_le_pow_right (by omega) (by omega)))
      simp [this]
  · simp [hi]

theorem toNat_add_pageMask (h : a.toNat + 8191 < 2 ^ 64) :
    (a + (pageSize - 1)).toNat = a.toNat + 8191 := by
  rw [UInt64.toNat_add, Nat.mod_eq_of_lt]
  · rfl
  · exact h

theorem toNat_pageRoundup (h : a.toNat + 8191 < 2 ^ 64) :
    (pageRoundup a).toNat = (a.toNat + 8191) / 8192 * 8192 := by
  rw [pageRoundup, toNat_pageFloor, toNat_add_pageMask h]

theorem pageFloor_eq_self {a : UInt64} (h : 8192 ∣ a.toNat) : pageFloor a = a := by
  apply UInt64.toNat.inj
  rw [toNat_pageFloor]
  omega

theorem pageRoundup_eq_self {a : UInt64} (h : 8192 ∣ a.toNat) : pageRoundup a = a := by
  have hlt := a.toNat_lt
  apply UInt64.toNat.inj
  rw [toNat_pageRoundup (by omega)]
  omega

theorem toNat_pageCount (a : UInt64) (h : a.toNat + 8191 < 2 ^ 64) :
    (pageCount a).toNat = (a.toNat + 8191) / 8192 := by
  rw [pageCount, toNat_addrToPage, toNat_add_pageMask h]

theorem toNat_xkphysMap (h : a.toNat < 2 ^ 59) :
    (xkphysMap ccaCnc a).toNat = directBase + a.toNat := by
  have hb : (((0x2 : UInt64) <<< 62) ||| (ccaCnc <<< 59)).toNat = 19 <<< 59 := by decide
  rw [xkphysMap, UInt64.toNat_or, hb, ← Nat.shiftLeft_add_eq_or_of_lt h, Nat.shiftLeft_eq,
    directBase]

theorem toNat_xkphysExtract : (xkphysExtract a).toNat = a.toNat % 2 ^ 59 := by
  exact Nat.and_two_pow_sub_one_eq_mod a.toNat 59

theorem xkphysExtract_xkphysMap (h : a.toNat < 2 ^ 59) :
    xkphysExtract (xkphysMap ccaCnc a) = a := by
  apply UInt64.toNat_inj.mp
  rw [toNat_xkphysExtract, toNat_xkphysMap h, directBase]
  omega

end Glatt
