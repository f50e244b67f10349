import Glatt.Lib.Buffer
import Mathlib.Data.Nat.Bitwise

/-!
# Copying and filling memory

`memcpy` and `memset` of `core/string.h` work on words of 8, 4 or 2 bytes where the pointers and the
length allow it, and else on bytes. Memory is its bytes by address.

## Main definitions

* `memcpy`, `memset`: the functions, and `memcpyBytes`, `memsetBytes` without words

## Main results

* `memcpy_memset_words`: the words make no difference
-/

namespace Glatt

open Buffer Function List

def wordLoop (w n : ℕ) (step : ℕ → (ℕ → UInt8) → ℕ → UInt8) (mem : ℕ → UInt8) : ℕ → UInt8 :=
  (range n).foldl (fun mem k => step (k * w) mem) mem

def memcpyWords (order : ByteOrder) (w dst src len : ℕ) : (ℕ → UInt8) → ℕ → UInt8 :=
  wordLoop w (len / w) fun o mem => store order mem (dst + o) w (load order mem (src + o) w)

def memcpyBytes (dst src len : ℕ) : (ℕ → UInt8) → ℕ → UInt8 :=
  wordLoop 1 len fun o mem => update mem (dst + o) (mem (src + o))

def memcpy (order : ByteOrder) (dst src len : ℕ) : (ℕ → UInt8) → ℕ → UInt8 :=
  if (dst ||| src ||| len) &&& 7 = 0 then memcpyWords order 8 dst src len
  else if (dst ||| src ||| len) &&& 3 = 0 then memcpyWords order 4 dst src len
  else if (dst ||| src ||| len) &&& 1 = 0 then memcpyWords order 2 dst src len
  else memcpyBytes dst src len

def memset64 (val : UInt64) : UInt64 :=
  val <<< 0 ||| val <<< 8 ||| val <<< 16 ||| val <<< 24 ||| val <<< 32 ||| val <<< 40 |||
    val <<< 48 ||| val <<< 56 ||| val <<< 56

def memset32 (val : UInt32) : UInt32 := val <<< 0 ||| val <<< 8 ||| val <<< 16 ||| val <<< 24

def memset16 (val : UInt32) : UInt16 := (val <<< 0 ||| val <<< 8).toUInt16

def memsetWords (order : ByteOrder) (w dst len v : ℕ) : (ℕ → UInt8) → ℕ → UInt8 :=
  wordLoop w (len / w) fun o mem => store order mem (dst + o) w v

def memsetBytes (dst : ℕ) (val : UInt32) (len : ℕ) : (ℕ → UInt8) → ℕ → UInt8 :=
  wordLoop 1 len fun o mem => update mem (dst + o) val.toUInt8

def memset (order : ByteOrder) (dst : ℕ) (val : UInt32) (len : ℕ) : (ℕ → UInt8) → ℕ → UInt8 :=
  let val := val &&& 0xff
  if (dst ||| len) &&& 7 = 0 then memsetWords order 8 dst len (memset64 val.toUInt64).toNat
  else if (dst ||| len) &&& 3 = 0 then memsetWords order 4 dst len (memset32 val).toNat
  else if (dst ||| len) &&& 1 = 0 then memsetWords order 2 dst len (memset16 val).toNat
  else memsetBytes dst val len

variable {order : ByteOrder} {mem val : ℕ → UInt8} {w n dst src len : ℕ}

theorem wordLoop_eq {step : ℕ → (ℕ → UInt8) → ℕ → UInt8} (h : ∀ k < n,
      step (k * w) (write mem dst (k * w) val) = write (write mem dst (k * w) val) (dst + k * w) w
        fun i => val (k * w + i)) :
    wordLoop w n step mem = write mem dst (n * w) val := by
  induction n with
  | zero =>
    funext i
    simp [wordLoop, write]
  | succ n ih =>
    have hn := ih fun k hk => h k (Nat.lt_succ_of_lt hk)
    rw [wordLoop] at hn ⊢
    rw [range_succ, foldl_append, foldl_cons, foldl_nil, hn, h n (Nat.lt_succ_self n), write_append,
      Nat.succ_mul]

theorem update_eq_store {p q : ℕ} {buf : ℕ → UInt8} :
    update mem p (buf q) = store order mem p 1 (load order buf q 1) := by
  rw [store_load]
  funext i
  by_cases hi : i = p
  · simp [hi, write]
  · rw [update_of_ne hi, write, if_neg (by omega)]

theorem div_mul_of_or_and {a : ℕ} (k : ℕ) (h : (a ||| len) &&& (2 ^ k - 1) = 0) :
    len / 2 ^ k * 2 ^ k = len := by
  rw [Nat.and_or_distrib_right, Nat.or_eq_zero_iff, Nat.and_two_pow_sub_one_eq_mod len] at h
  exact Nat.div_mul_cancel (Nat.dvd_of_mod_eq_zero h.2)

theorem memcpyWords_eq (hd : dst + len ≤ src ∨ src + len ≤ dst) (hw : len / w * w = len) :
    memcpyWords order w dst src len mem = write mem dst len fun i => mem (src + i) := by
  refine (wordLoop_eq fun k hk => ?_).trans
    (congrArg (fun n => write mem dst n fun i => mem (src + i)) hw)
  have hk' : k * w + w ≤ len := by
    rw [← Nat.succ_mul, ← hw]
    exact Nat.mul_le_mul_right w hk
  -- the words that have been written are not read
  have hl : load order (write mem dst (k * w) fun i => mem (src + i)) (src + k * w) w =
      load order mem (src + k * w) w := load_congr fun i hi => by rw [write, if_neg (by omega)]
  rw [hl, store_load]
  simp only [Nat.add_assoc]

theorem memsetWords_eq {b : UInt8} (hw : len / w * w = len) :
    memsetWords order w dst len (load order (fun _ => b) 0 w) mem =
      write mem dst len fun _ => b := by
  refine (wordLoop_eq fun k hk => ?_).trans (congrArg (fun n => write mem dst n fun _ => b) hw)
  exact store_load

theorem memcpyBytes_eq (hd : dst + len ≤ src ∨ src + len ≤ dst) :
    memcpyBytes dst src len mem = write mem dst len fun i => mem (src + i) := by
  rw [← (memcpyWords_eq hd (by simp) : memcpyWords .big 1 dst src len mem = _), memcpyWords,
    Nat.div_one]
  exact congrArg (wordLoop 1 len · mem) (funext fun o => funext fun mem => update_eq_store)

theorem memsetBytes_eq {val : UInt32} :
    memsetBytes dst val len mem = write mem dst len fun _ => val.toUInt8 := by
  rw [← (memsetWords_eq (by simp) : memsetWords .big 1 dst len _ mem = _), memsetWords, Nat.div_one]
  exact congrArg (wordLoop 1 len · mem) (funext fun o => funext fun mem => update_eq_store)

theorem memset_replicated (order : ByteOrder) : ∀ n < 256,
    (memset64 (UInt32.ofNat n).toUInt64).toNat = load order (fun _ => UInt8.ofNat n) 0 8 ∧
    (memset32 (UInt32.ofNat n)).toNat = load order (fun _ => UInt8.ofNat n) 0 4 ∧
    (memset16 (UInt32.ofNat n)).toNat = load order (fun _ => UInt8.ofNat n) 0 2 := by
  cases order <;> decide +kernel

/-- **`memcpy` and `memset`** do to memory what their loops over bytes do. -/
theorem memcpy_memset_words (order : ByteOrder) (mem : ℕ → UInt8) (dst len : ℕ) :
    (∀ src, dst + len ≤ src ∨ src + len ≤ dst →
      memcpy order dst src len mem = memcpyBytes dst src len mem) ∧
    ∀ val, memset order dst val len mem = memsetBytes dst (val &&& 0xff) len mem := by
  constructor
  · intro src hd
    rw [memcpyBytes_eq hd, memcpy]
    split_ifs with h8 h4 h2
    · exact memcpyWords_eq hd (div_mul_of_or_and 3 h8)
    · exact memcpyWords_eq hd (div_mul_of_or_and 2 h4)
    · exact memcpyWords_eq hd (div_mul_of_or_and 1 h2)
    · exact memcpyBytes_eq hd
  · intro val
    obtain ⟨n, hn, hval⟩ : ∃ n < 256, val &&& 0xff = UInt32.ofNat n :=
      ⟨(val &&& 0xff).toNat, Nat.lt_succ_of_le Nat.and_le_right, UInt32.ofNat_toNat.symm⟩
    obtain ⟨h6, h3, h1⟩ := memset_replicated order n hn
    have hb : (UInt32.ofNat n).toUInt8 = UInt8.ofNat n := by simp
    rw [memset, hval, h6, h3, h1, memsetBytes_eq, hb]
    split_ifs with h8 h4 h2
    · exact memsetWords_eq (div_mul_of_or_and 3 h8)
    · exact memsetWords_eq (div_mul_of_or_and 2 h4)
    · exact memsetWords_eq (div_mul_of_or_and 1 h2)
    · exact hb ▸ memsetBytes_eq

theorem memcpy_memset_words_eight : memcpy .big 0 8 8 (fun i => UInt8.ofNat i) 1 = 9 ∧
    memcpy .big 0 8 8 (fun i => UInt8.ofNat i) = memcpyBytes 0 8 8 fun i => UInt8.ofNat i :=
  ⟨by decide, (memcpy_memset_words .big _ 0 8).1 8 (by decide)⟩

end Glatt
