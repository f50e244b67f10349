import Mathlib.Algebra.Order.Ring.Nat
import Mathlib.Data.List.Range

/-!
# Buffers

A buffer is its contents by offset. Copying into a buffer changes a range of offsets, and copying
out of it lists the values of a range.

## Main definitions

* `write buf p n src`: the first `n` values of `src`, copied to offset `p` of `buf`
* `slice buf p n`: the `n` values of `buf` from offset `p` on
* `load order buf p n`: the number in the `n` bytes of `buf` from offset `p` on
* `store order buf p n v`: the number `v` put into these bytes

## Main results

* `write_write`: two writes next to each other are one write
* `slice_congr`: a slice depends on the contents of its range only
* `takeWhile_slice`: a string in a buffer
* `load_store`: a number that fits is read back
* `store_load`: a number that is copied is a copy of its bytes
-/

namespace Buffer

open List

variable {α : Type} {buf buf' src : ℕ → α} {p q n m i : ℕ} {v : ℕ}

/-- The first `n` values of `src`, copied to offset `p` of the buffer. -/
def write (buf : ℕ → α) (p n : ℕ) (src : ℕ → α) : ℕ → α :=
  fun i => if p ≤ i ∧ i < p + n then src (i - p) else buf i

/-- The `n` values from offset `p` on. -/
def slice (buf : ℕ → α) (p n : ℕ) : List α := (range n).map fun i => buf (p + i)

theorem write_apply_of_lt (hp : p ≤ i) (hi : i < p + n) : write buf p n src i = src (i - p) :=
  if_pos ⟨hp, hi⟩

theorem write_apply_of_le (hi : p + n ≤ i) : write buf p n src i = buf i :=
  if_neg fun h => Nat.not_lt.mpr hi h.2

theorem write_apply_of_gt (hi : i < p) : write buf p n src i = buf i :=
  if_neg fun h => Nat.not_le.mpr hi h.1

/-- **Two writes next to each other** are one write of what they write. -/
theorem write_write {src' : ℕ → α} :
    write (write buf 0 n src) n m src' = write buf 0 (n + m) (write src n m src') := by
  funext i
  by_cases hl : i < n
  · rw [write, if_neg (by omega), write_apply_of_lt i.zero_le (by omega),
      write_apply_of_lt i.zero_le (by omega), write, if_neg (by omega)]
  · by_cases hh : i < n + m
    · rw [write_apply_of_lt (by omega) hh, write_apply_of_lt i.zero_le (by omega),
        Nat.sub_zero, write_apply_of_lt (by omega) hh]
    · rw [write_apply_of_le (by omega), write_apply_of_le (by omega), write_apply_of_le (by omega)]

/-- A write next to another one continues it. -/
theorem write_append : write (write buf p n src) (p + n) m (fun i => src (n + i)) =
    write buf p (n + m) src := by
  funext i
  simp only [write]
  split_ifs <;> first | rfl | omega | exact congrArg src (by omega)

@[simp] theorem length_slice : (slice buf p n).length = n := by simp [slice]

theorem getElem_slice (h : i < (slice buf p n).length) : (slice buf p n)[i] = buf (p + i) := by
  simp [slice]

/-- **A slice depends on its range only.** -/
theorem slice_congr (h : ∀ i < n, buf (p + i) = buf' (q + i)) : slice buf p n = slice buf' q n :=
  map_congr_left fun i hi => h i (mem_range.mp hi)

theorem slice_add : slice buf p (n + m) = slice buf p n ++ slice buf (p + n) m := by
  rw [slice, range_add, map_append, map_map]
  refine congrArg _ (map_congr_left fun i _ => ?_)
  exact congrArg buf (p.add_assoc n i).symm

/-- **A string in a buffer**: what is before the first end mark of a slice. -/
theorem takeWhile_slice {stop : α → Bool} (hb : ∀ i < n, stop (buf (p + i)) = true)
    (hend : stop (buf (p + n)) = false) (hlt : n < m) :
    (slice buf p m).takeWhile stop = slice buf p n := by
  obtain ⟨k, rfl⟩ : ∃ k, m = n + (1 + k) := ⟨m - n - 1, by omega⟩
  have ho : slice buf (p + n) 1 = [buf (p + n)] := rfl
  have ha : ∀ x ∈ slice buf p n, stop x = true := by
    intro x hx
    obtain ⟨i, hi, rfl⟩ := mem_map.mp hx
    exact hb i (mem_range.mp hi)
  rw [slice_add, slice_add, takeWhile_append_of_pos ha, ho, singleton_append,
    takeWhile_cons_of_neg (by rw [hend]; decide), append_nil]

/-- The two orders of the bytes of a number. -/
inductive ByteOrder
  | big
  | little
  deriving DecidableEq, Repr

/-- The number in the `n` bytes from offset `p` on. -/
def load (order : ByteOrder) (buf : ℕ → UInt8) (p n : ℕ) : ℕ :=
  match order with
  | .big => (slice buf p n).foldl (fun v b => v * 256 + b.toNat) 0
  | .little => (slice buf p n).foldr (fun b v => v * 256 + b.toNat) 0

variable {order : ByteOrder}

theorem load_congr {buf buf' : ℕ → UInt8} (h : ∀ i < n, buf (p + i) = buf' (q + i)) :
    load order buf p n = load order buf' q n := by
  have hs := slice_congr h
  cases order <;> simp only [load, hs]

/-- The bytes of a number of `n` bytes. -/
def bytesOf (order : ByteOrder) (n v i : ℕ) : UInt8 :=
  match order with
  | .big => UInt8.ofNat (v / 256 ^ (n - 1 - i))
  | .little => UInt8.ofNat (v / 256 ^ i)

/-- The number `v` put into the `n` bytes from offset `p` on. -/
def store (order : ByteOrder) (buf : ℕ → UInt8) (p n v : ℕ) : ℕ → UInt8 :=
  write buf p n (bytesOf order n v)

variable {buf : ℕ → UInt8}

theorem store_apply (hi : i < p ∨ p + n ≤ i) : store order buf p n v i = buf i := by
  rcases hi with hi | hi
  · exact write_apply_of_gt hi
  · exact write_apply_of_le hi

/-- A number elsewhere stays. -/
theorem load_store_of_disjoint (h : q + m ≤ p ∨ p + n ≤ q) :
    load order (store order buf p n v) q m = load order buf q m :=
  load_congr fun i hi => store_apply (by omega)

/-! The last of the bytes is the lowest one, or the first. -/

theorem load_succ_big :
    load .big buf p (n + 1) = load .big buf p n * 256 + (buf (p + n)).toNat := by
  rw [load, slice_add, foldl_append]
  rfl

theorem load_succ_little :
    load .little buf p (n + 1) = load .little buf (p + 1) n * 256 + (buf p).toNat := by
  rw [load, Nat.add_comm n, slice_add]
  rfl

theorem bytesOf_succ_big (hi : i < n) : bytesOf .big (n + 1) v i = bytesOf .big n (v / 256) i := by
  rw [bytesOf, bytesOf, Nat.div_div_eq_div_mul, ← Nat.pow_succ',
    show n + 1 - 1 - i = n - 1 - i + 1 by omega]

theorem bytesOf_succ_little :
    bytesOf .little (n + 1) v (i + 1) = bytesOf .little n (v / 256) i := by
  rw [bytesOf, bytesOf, Nat.div_div_eq_div_mul, ← Nat.pow_succ']

theorem bytesOf_last_big : bytesOf .big (n + 1) v n = UInt8.ofNat v := by
  rw [bytesOf, Nat.add_sub_cancel, Nat.sub_self, Nat.pow_zero, Nat.div_one]

theorem bytesOf_zero_little : bytesOf .little n v 0 = UInt8.ofNat v := by
  rw [bytesOf, Nat.pow_zero, Nat.div_one]

theorem mod_pow_succ : v / 256 % 256 ^ n * 256 + v % 256 = v % 256 ^ (n + 1) := by
  rw [Nat.pow_succ, Nat.mul_comm (256 ^ n), Nat.mod_mul, Nat.add_comm, Nat.mul_comm 256]

theorem load_eq_mod (h : ∀ i < n, buf (p + i) = bytesOf order n v i) :
    load order buf p n = v % 256 ^ n := by
  induction n generalizing p v with
  | zero => cases order <;> exact v.mod_one.symm
  | succ n ih =>
    cases order with
    | big =>
      rw [load_succ_big, h n n.lt_succ_self, bytesOf_last_big, ← mod_pow_succ,
        ih fun i hi => (h i (Nat.lt_succ_of_lt hi)).trans (bytesOf_succ_big hi)]
      rfl
    | little =>
      have hr : ∀ i < n, buf (p + 1 + i) = bytesOf .little n (v / 256) i := by
        intro i hi
        rw [Nat.add_right_comm, Nat.add_assoc, h (i + 1) (Nat.succ_lt_succ hi), bytesOf_succ_little]
      rw [load_succ_little, ← p.add_zero, h 0 n.succ_pos, bytesOf_zero_little, p.add_zero, ih hr,
        ← mod_pow_succ]
      rfl

/-- **A number that fits is read back.** -/
theorem load_store (hv : v < 256 ^ n) : load order (store order buf p n v) p n = v := by
  refine (load_eq_mod fun i hi => ?_).trans (Nat.mod_eq_of_lt hv)
  rw [store, write_apply_of_lt (p.le_add_right i) (Nat.add_lt_add_left hi p),
    Nat.add_sub_cancel_left]

/-- **The bytes of a number that is read.** -/
theorem bytesOf_load (hi : i < n) : bytesOf order n (load order buf p n) i = buf (p + i) := by
  have hlow : ∀ v (b : UInt8), UInt8.ofNat (v * 256 + b.toNat) = b := by
    intro v b
    simp
  have hdiv : ∀ v (b : UInt8), (v * 256 + b.toNat) / 256 = v := by
    intro v b
    have := b.toNat_lt
    omega
  induction n generalizing p i with
  | zero => omega
  | succ n ih =>
    cases order with
    | big =>
      rw [load_succ_big]
      rcases Nat.lt_succ_iff_lt_or_eq.mp hi with hi | rfl
      · rw [bytesOf_succ_big hi, hdiv, ih hi]
      · rw [bytesOf_last_big, hlow]
    | little =>
      rw [load_succ_little]
      cases i with
      | zero => rw [bytesOf_zero_little, hlow, p.add_zero]
      | succ i =>
        rw [bytesOf_succ_little, hdiv, ih (Nat.lt_of_succ_lt_succ hi), Nat.add_right_comm,
          Nat.add_assoc]

/-- **A number that is copied** is a copy of its bytes. -/
theorem store_load {src : ℕ → UInt8} : store order buf q n (load order src p n) =
    write buf q n fun i => src (p + i) := by
  funext i
  rw [store, write, write]
  split_ifs with hi
  · exact bytesOf_load (by omega)
  · rfl

end Buffer
