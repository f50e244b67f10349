import Glatt.Lib.Buffer
import Glatt.Lib.Traced

/-!
# String routines

The functions of `core/string.h` on strings that end with a NUL byte. They read memory byte by byte
from a pointer on, and each byte that they read is an event, so that a call tells how far it has
walked. A walk that meets no NUL byte ends with the memory.

## Main definitions

* `ByteSource`: memory from a pointer on, read byte by byte
* `StrAt`: a string at an offset

## Main results

* `strlcpy_terminated`: what `strlcpy` leaves is a string
* `strlen_spec`, `strlcpy_spec`, `strcmp_spec`, `strncmp_spec`, `strchr_found`, `strchr_absent`:
  what the functions return for a string
* `safe_strlen`, `safe_strlcpy`: both read exactly the bytes up to the first NUL byte, also where
  `strlcpy` has less to copy
* `safe_strcmp`, `safe_strchr`: what the others read at most
-/

namespace Glatt

open Imperative Traced Buffer Function List

variable {ε : Type}

/-! ## Reading memory -/

/-- The bytes of memory from a pointer on, and the events of reading them. -/
structure ByteSource (ε : Type) where
  byte : ℕ → UInt8
  event : ℕ → List ε

namespace ByteSource

def read (src : ByteSource ε) (i : ℕ) : Traced ε UInt8 := ⟨src.event i, .ok (src.byte i)⟩

def readNumber (src : ByteSource ε) (order : ByteOrder) (p n : ℕ) : Traced ε ℕ :=
  ⟨(range n).flatMap fun i => src.event (p + i), .ok (load order src.byte p n)⟩

def quiet (buf : ℕ → UInt8) (p : ℕ) : ByteSource ε := ⟨fun i => buf (p + i), fun _ => []⟩

def page (buf : ℕ → UInt8) : ByteSource ℕ := ⟨buf, fun i => [i]⟩

def Ok (src : ByteSource ε) (P : ε → Prop) (i : ℕ) : Prop := ∀ e ∈ src.event i, P e

/-- **The string at the pointer**, which ends with a NUL byte. -/
structure Str (src : ByteSource ε) (s : List UInt8) : Prop where
  byte : ∀ i < s.length, s[i]? = some (src.byte i)
  nonzero : 0 ∉ s
  terminated : src.byte s.length = 0

variable {src : ByteSource ε} {P : ε → Prop} {Q : Halt → Prop} {s : List UInt8} {i : ℕ}

@[simp] theorem outcome_read : (src.read i).outcome = .ok (src.byte i) := rfl

theorem read_bind {α : Type} (f : UInt8 → Traced ε α) : (src.read i >>= f) =
    ⟨src.event i ++ (f (src.byte i)).log, (f (src.byte i)).outcome⟩ := rfl

@[simp] theorem safe_read : Safe P Q (src.read i) ↔ src.Ok P i :=
  ⟨fun h => h.log, fun h => ⟨h, nofun⟩⟩

theorem safe_readNumber {order : ByteOrder} {p n : ℕ} (h : ∀ i < n, src.Ok P (p + i)) :
    Safe P Q (src.readNumber order p n) := by
  refine ⟨fun e he => ?_, nofun⟩
  obtain ⟨i, hi, he⟩ := mem_flatMap.mp he
  exact h i (mem_range.mp hi) e he

@[simp] theorem ok_quiet {buf : ℕ → UInt8} {p : ℕ} : (quiet buf p : ByteSource ε).Ok P i := nofun

@[simp] theorem ok_page {buf : ℕ → UInt8} {P : ℕ → Prop} : (page buf).Ok P i ↔ P i := by
  simp [Ok, page]

theorem Str.ne_zero (h : src.Str s) (hi : i < s.length) : src.byte i ≠ 0 := fun hz =>
  h.nonzero (hz ▸ mem_of_getElem? (h.byte i hi))

theorem Str.unique {t : List UInt8} (h : src.Str s) (h' : src.Str t) : s = t := by
  have hlen : s.length = t.length := by
    rcases Nat.lt_trichotomy s.length t.length with hlt | heq | hgt
    · exact absurd h.terminated (h'.ne_zero hlt)
    · exact heq
    · exact absurd h'.terminated (h.ne_zero hgt)
  refine ext_getElem? fun i => ?_
  by_cases hi : i < s.length
  · rw [h.byte i hi, h'.byte i (hlen ▸ hi)]
  · rw [getElem?_eq_none (by omega), getElem?_eq_none (by omega)]

theorem Str.congr {ε' : Type} {src' : ByteSource ε'} (h : src.Str s)
    (hb : ∀ i ≤ s.length, src'.byte i = src.byte i) : src'.Str s where
  byte i hi := by rw [hb i (Nat.le_of_lt hi), h.byte i hi]
  nonzero := h.nonzero
  terminated := by rw [hb _ (Nat.le_refl _), h.terminated]

section Quiet

variable {buf : ℕ → UInt8} {p : ℕ} {b : UInt8} {t : List UInt8}

@[simp] theorem byte_quiet {i : ℕ} : (quiet buf p : ByteSource ε).byte i = buf (p + i) := rfl

theorem str_nil : (quiet buf p : ByteSource ε).Str [] ↔ buf p = 0 :=
  ⟨fun h => h.terminated, fun h => ⟨nofun, not_mem_nil, h⟩⟩

theorem Str.append (h : (quiet buf p : ByteSource ε).Str (s ++ t)) :
    (quiet buf (p + s.length) : ByteSource ε).Str t where
  byte i hi := by
    have hb := h.byte (s.length + i) (by rw [length_append]; omega)
    rw [getElem?_append_right (Nat.le_add_right _ _), Nat.add_sub_cancel_left] at hb
    rw [hb, byte_quiet, byte_quiet, Nat.add_assoc]
  nonzero hmem := h.nonzero (s.mem_append_right hmem)
  terminated := by
    have hend := h.terminated
    rwa [length_append, byte_quiet, ← Nat.add_assoc] at hend

theorem Str.head (h : (quiet buf p : ByteSource ε).Str (b :: s)) : buf p = b :=
  (Option.some.inj (h.byte 0 (Nat.succ_pos _))).symm

theorem Str.cut (h : (quiet buf p : ByteSource ε).Str (s ++ b :: t)) :
    (quiet (update buf (p + s.length) 0) p : ByteSource ε).Str s where
  byte i hi := by
    have hb := h.byte i (by rw [length_append]; omega)
    rw [getElem?_append_left hi] at hb
    rw [hb]
    show some (buf (p + i)) = some (update buf (p + s.length) 0 (p + i))
    rw [update_of_ne (by omega)]
  nonzero hmem := h.nonzero (mem_append_left _ hmem)
  terminated := update_self ..

theorem Str.update (h : (quiet buf p : ByteSource ε).Str s) {i : ℕ} (hi : p + s.length < i) :
    (quiet (update buf i b) p : ByteSource ε).Str s :=
  h.congr fun j hj => update_of_ne (by omega) ..

theorem str_takeWhile {n : ℕ} (h : 0 ∈ slice buf p n) :
    (quiet buf p : ByteSource ε).Str ((slice buf p n).takeWhile (· ≠ 0)) ∧
      ((slice buf p n).takeWhile (· ≠ 0)).length < n := by
  obtain ⟨k, hk, hz⟩ := mem_map.mp h
  -- the string ends at the first NUL byte
  have hex : ∃ k, buf (p + k) = 0 := ⟨k, hz⟩
  have hf := Nat.find_spec hex
  have hb : ∀ i < Nat.find hex, buf (p + i) ≠ 0 := fun i hi => Nat.find_min hex hi
  have hlt : Nat.find hex < n := (Nat.find_min' hex hz).trans_lt (mem_range.mp hk)
  have hs : (slice buf p n).takeWhile (· ≠ 0) = slice buf p (Nat.find hex) :=
    takeWhile_slice (fun i hi => decide_eq_true (hb i hi)) (decide_eq_false (not_not.mpr hf)) hlt
  rw [hs, length_slice]
  refine ⟨⟨fun i hi => ?_, fun hmem => ?_, ?_⟩, hlt⟩
  · rw [length_slice] at hi
    rw [getElem?_eq_getElem (by rw [length_slice]; exact hi), getElem_slice]
    rfl
  · obtain ⟨i, hi, hi0⟩ := mem_map.mp hmem
    exact hb i (mem_range.mp hi) hi0
  · rw [length_slice]
    exact hf

end Quiet

end ByteSource

/-- The string at an offset of a buffer. -/
abbrev StrAt (buf : ℕ → UInt8) (p : ℕ) (s : List UInt8) : Prop :=
  (ByteSource.quiet buf p : ByteSource Empty).Str s

theorem StrAt.str {buf : ℕ → UInt8} {p : ℕ} {s : List UInt8} (h : StrAt buf p s) :
    (ByteSource.quiet buf p : ByteSource ε).Str s :=
  h.congr fun _ _ => rfl

theorem ByteSource.Str.strAt {buf : ℕ → UInt8} {p : ℕ} {s : List UInt8}
    (h : (ByteSource.quiet buf p : ByteSource ε).Str s) : StrAt buf p s :=
  h.congr fun _ _ => rfl

def memoryEnd : ℕ := 2 ^ 64

/-! ## The functions -/

def strEndRound (src : ByteSource ε) (i : ℕ) : Traced ε (ℕ ⊕ ℕ) := do
  let b ← src.read i
  if b = 0 then pure (.inr i) else pure (.inl (i + 1))

def strEnd (src : ByteSource ε) (start : ℕ) : Traced ε ℕ :=
  loop (strEndRound src) (memoryEnd - start) start

def strlen (src : ByteSource ε) : Traced ε ℕ := strEnd src 0

/-- One byte of the copying loop of `strlcpy`: the loop ends when one byte is left of the
destination, or with the NUL byte. -/
def strlcpyRound (src : ByteSource ε) (len : ℕ) :
    (ℕ → UInt8) × ℕ → Traced ε (((ℕ → UInt8) × ℕ) ⊕ ((ℕ → UInt8) × ℕ × Bool))
  | (dst, i) =>
    if i + 1 = len then pure (.inr (dst, i, false))
    else do
      let b ← src.read i
      let dst := update dst i b
      if b = 0 then pure (.inr (dst, i, true)) else pure (.inl (dst, i + 1))

/-- The copying loop of `strlcpy`: what has been copied, and whether with the NUL byte. -/
def strlcpyCopy (dst : ℕ → UInt8) (src : ByteSource ε) (len : ℕ) :
    Traced ε ((ℕ → UInt8) × ℕ × Bool) :=
  loop (strlcpyRound src len) len (dst, 0)

/-- `strlcpy`: the destination, and the length of the source. When the destination is full, the rest
of the source is only counted. -/
def Cstr.strlcpy (dst : ℕ → UInt8) (src : ByteSource ε) (len : ℕ) : Traced ε ((ℕ → UInt8) × ℕ) :=
  if len = 0 then do
    let n ← strEnd src 0
    pure (dst, n)
  else do
    let (dst, i, whole) ← strlcpyCopy dst src len
    if whole then pure (dst, i)
    else do
      let n ← strEnd src i
      pure (update dst i 0, n)

def strlcat (dst : ℕ → UInt8) (src : ByteSource ε) (len : UInt64) : Traced ε ((ℕ → UInt8) × ℕ) := do
  let dlen ← strlen (.quiet dst 0)
  let (rest, n) ← Cstr.strlcpy (fun i => dst (dlen + i)) src (len - UInt64.ofNat dlen).toNat
  pure (fun i => if i < dlen then dst i else rest (i - dlen), dlen + n)

/-- How many bytes `strlcpy` stores, one after the other: those of the loop and the NUL byte. -/
def strlcpyStores (src : ByteSource ε) (len : ℕ) : Traced ε ℕ :=
  if len = 0 then pure 0
  else do
    let (_, i, _) ← strlcpyCopy (fun _ => 0) src len
    pure (i + 1)

def strcmpRound (a b : ByteSource ε) (i : ℕ) : Traced ε (ℕ ⊕ ℕ) := do
  let x ← a.read i
  if x = 0 then pure (.inr i)
  else do
    let y ← b.read i
    if x = y then pure (.inl (i + 1)) else pure (.inr i)

def strcmpEnd (a b : ByteSource ε) : Traced ε ℕ := loop (strcmpRound a b) memoryEnd 0

def strcmp (a b : ByteSource ε) : Traced ε Int := do
  let i ← strcmpEnd a b
  let x ← a.read i
  let y ← b.read i
  pure (x.toInt8.toInt - y.toInt8.toInt)

/-- One byte of the loop of `strncmp`. Both bytes are read, also where the loop ends. -/
def strncmpRound (a b : ByteSource ε) (n i : ℕ) : Traced ε (ℕ ⊕ Int) := do
  let x ← a.read i
  let y ← b.read i
  if i ≠ n ∧ x ≠ 0 ∧ x = y then
    if i + 1 = n then pure (.inr 0) else pure (.inl (i + 1))
  else pure (.inr (x.toInt8.toInt - y.toInt8.toInt))

def strncmp (a b : ByteSource ε) (n : ℕ) : Traced ε Int := loop (strncmpRound a b n) memoryEnd 0

def strchrRound (str : ByteSource ε) (ch : UInt8) (i : ℕ) : Traced ε (ℕ ⊕ Option ℕ) := do
  let b ← str.read i
  if b = 0 then pure (.inr none)
  else if b ≠ ch then pure (.inl (i + 1))
  else pure (.inr (some i))

def strchr (str : ByteSource ε) (ch : UInt8) : Traced ε (Option ℕ) :=
  loop (strchrRound str ch) memoryEnd 0

/-! ## What they return -/

section Outcome

variable {src a b : ByteSource ε} {s t : List UInt8} {dst : ℕ → UInt8} {len start : ℕ}

theorem strEnd_spec (h : src.Str s) (hst : start ≤ s.length) (hmem : s.length < memoryEnd) :
    (strEnd src start).outcome = .ok s.length := by
  refine Ensures.eq_ok ?_
  rw [strEnd, outcome_loop]
  refine Ensures.loop (I := fun n i => i ≤ s.length ∧ n = s.length - i) ?_ ⟨hst, rfl⟩ (by omega)
  rintro _ i ⟨hi, rfl⟩
  rw [strEndRound, outcome_bind_eq, ByteSource.outcome_read, ok_bind]
  rcases Nat.lt_or_eq_of_le hi with hlt | rfl
  · rw [if_neg (h.ne_zero hlt)]
    exact .ret ⟨s.length - (i + 1), by omega, hlt, rfl⟩
  · rw [if_pos h.terminated]
    exact .ret rfl

theorem strlen_spec (h : src.Str s) (hmem : s.length < memoryEnd) :
    (strlen src).outcome = .ok s.length :=
  strEnd_spec h (Nat.zero_le _) hmem

theorem strlcpyCopy_spec (h : src.Str s) (hlen : 0 < len) :
    Ensures (strlcpyCopy dst src len).outcome fun r =>
      r.2.1 = min s.length (len - 1) ∧ (∀ i < r.2.1, r.1 i = src.byte i) ∧
        (r.2.2 = true ↔ s.length < len - 1) ∧ (r.2.2 = true → r.1 r.2.1 = 0) ∧
        ∀ i, len ≤ i → r.1 i = dst i := by
  rw [strlcpyCopy, outcome_loop]
  -- what has been copied is the string so far, and neither it nor the room has ended
  refine Ensures.loop (I := fun n (p : (ℕ → UInt8) × ℕ) => p.2 ≤ s.length ∧ p.2 < len ∧
    n = len - 1 - p.2 ∧ (∀ i < p.2, p.1 i = src.byte i) ∧ ∀ i, len ≤ i → p.1 i = dst i) ?_
    ⟨Nat.zero_le _, hlen, rfl, nofun, fun _ _ => rfl⟩ (by omega)
  rintro _ ⟨dst', i⟩ ⟨hi, hr, rfl, hc, hf⟩
  dsimp only at hc
  rw [strlcpyRound]
  by_cases hfl : i + 1 = len
  · rw [if_pos hfl]
    refine .ret ⟨by dsimp only; omega, hc, ?_, nofun, hf⟩
    exact ⟨nofun, fun hlt => (by omega)⟩
  · rw [if_neg hfl, outcome_bind_eq, ByteSource.outcome_read, ok_bind]
    have hf' : ∀ j, len ≤ j → update dst' i (src.byte i) j = dst j := fun j hj =>
      (update_of_ne (by omega) ..).trans (hf j hj)
    have hn : ∀ j < i + 1, update dst' i (src.byte i) j = src.byte j := by
      intro j hj
      rcases Nat.lt_succ_iff_lt_or_eq.mp hj with hlt | rfl
      · rw [update_of_ne (Nat.ne_of_lt hlt), hc j hlt]
      · rw [update_self]
    rcases Nat.lt_or_eq_of_le hi with hlt | rfl
    · rw [if_neg (h.ne_zero hlt)]
      exact .ret ⟨len - 1 - (i + 1), by omega, hlt, by omega, rfl, hn, hf'⟩
    · rw [if_pos h.terminated]
      refine .ret ⟨by dsimp only; omega, fun j hj => hn j (Nat.lt_succ_of_lt hj),
        ⟨fun _ => by omega, fun _ => rfl⟩, fun _ => ?_, hf'⟩
      dsimp only
      rw [update_self, h.terminated]

theorem strlcpy_spec (h : src.Str s) (hlen : 0 < len) (hmem : s.length < memoryEnd) :
    Ensures (Cstr.strlcpy dst src len).outcome fun r => r.2 = s.length ∧
      (ByteSource.quiet r.1 0 : ByteSource ε).Str (s.take (len - 1)) ∧
      ∀ i, len ≤ i → r.1 i = dst i := by
  rw [Cstr.strlcpy, if_neg (Nat.ne_of_gt hlen), outcome_bind_eq]
  refine (strlcpyCopy_spec h hlen).bind ?_
  rintro ⟨dst', i, whole⟩ ⟨rfl, hc, hw, hz, hf⟩
  dsimp only at hc ⊢
  have hb : ∀ {buf : ℕ → UInt8}, (∀ j < min s.length (len - 1), buf j = src.byte j) →
      ∀ j < (s.take (len - 1)).length, (s.take (len - 1))[j]? = some (buf (0 + j)) := by
    intro buf hd j hj
    rw [length_take] at hj
    rw [getElem?_take, if_pos (by omega), h.byte j (by omega), Nat.zero_add, hd j (by omega)]
  have hn : 0 ∉ s.take (len - 1) := fun hm => h.nonzero (mem_of_mem_take hm)
  have ht : (s.take (len - 1)).length = min s.length (len - 1) := by
    rw [length_take, Nat.min_comm]
  cases whole with
  | true =>
    have hft := hw.mp rfl
    refine .ret ⟨by dsimp only; omega, ⟨hb hc, hn, ?_⟩, hf⟩
    show dst' (0 + _) = 0
    rw [ht, Nat.zero_add]
    exact hz rfl
  | false =>
    rw [if_neg (by decide), outcome_bind_eq, strEnd_spec h (by omega) hmem]
    refine .ret ⟨rfl, ⟨?_, hn, ?_⟩, fun j hj => ?_⟩
    · refine @hb (update dst' (min s.length (len - 1)) 0) fun j hj => ?_
      rw [update_of_ne (Nat.ne_of_lt hj), hc j hj]
    · show update dst' _ 0 (0 + _) = 0
      rw [ht, Nat.zero_add, update_self]
    · exact (update_of_ne (by omega) ..).trans (hf j hj)

theorem strlcpyCopy_terminated (hpos : 0 < len) :
    Yields (strlcpyCopy dst src len).outcome fun r =>
      r.2.1 < len ∧ (r.2.2 = true → r.1 r.2.1 = 0) := by
  rw [strlcpyCopy, outcome_loop]
  intro r hr
  refine loop_induction (I := fun p : (ℕ → UInt8) × ℕ => p.2 < len)
    (P := fun r => r.2.1 < len ∧ (r.2.2 = true → r.1 r.2.1 = 0)) ?_ ?_ hpos hr
  · rintro ⟨dst, i⟩ s' hi hs'
    rw [strlcpyRound] at hs'
    split_ifs at hs' with hf
    · cases hs'
    · rw [outcome_bind_eq, ByteSource.outcome_read, ok_bind] at hs'
      split_ifs at hs'
      · cases hs'
      · cases hs'
        exact Nat.lt_of_le_of_ne hi hf
  · rintro ⟨dst, i⟩ r hi hr
    rw [strlcpyRound] at hr
    split_ifs at hr
    · cases hr
      exact ⟨hi, nofun⟩
    · rw [outcome_bind_eq, ByteSource.outcome_read, ok_bind] at hr
      split_ifs at hr with hz
      · cases hr
        refine ⟨hi, fun _ => ?_⟩
        dsimp only
        rw [update_self, hz]
      · cases hr

theorem strlcpy_terminated (hpos : 0 < len) :
    Yields (Cstr.strlcpy dst src len).outcome fun r => 0 ∈ slice r.1 0 len := by
  rw [Cstr.strlcpy, if_neg (Nat.ne_of_gt hpos), outcome_bind_eq]
  refine (strlcpyCopy_terminated hpos).bind ?_
  rintro ⟨dst, i, whole⟩ ⟨hi, hz⟩
  dsimp only
  have hmem : ∀ dst' : ℕ → UInt8, dst' i = 0 → 0 ∈ slice dst' 0 len := fun dst' h =>
    mem_map.mpr ⟨i, mem_range.mpr hi, by rw [Nat.zero_add, h]⟩
  cases whole with
  | true => exact .ret (hmem dst (hz rfl))
  | false =>
    rw [if_neg (by decide), outcome_bind_eq]
    refine yields_bind_of_forall fun n => ?_
    exact .ret (hmem _ (update_self ..))

theorem strlcpyStores_eq (h : src.Str s) :
    (strlcpyStores src len).outcome = .ok (min (s.length + 1) len) := by
  rw [strlcpyStores]
  split_ifs with hlen
  · rw [hlen, Nat.min_zero]
    rfl
  · obtain ⟨r, hr, hi, -⟩ : Ensures (strlcpyCopy (fun _ => 0) src len).outcome _ :=
      strlcpyCopy_spec h (Nat.pos_of_ne_zero hlen)
    rw [outcome_bind_eq, hr, ok_bind]
    show Except.ok (r.2.1 + 1) = _
    rw [hi, show min s.length (len - 1) + 1 = min (s.length + 1) len by omega]

theorem strlcpy_returns (h : src.Str s) (hmem : s.length < memoryEnd) (dst : ℕ → UInt8) (len : ℕ) :
    Ensures (Cstr.strlcpy dst src len).outcome fun r => r.2 = s.length ∧
      (0 < len → 0 ∈ slice r.1 0 len) := by
  rcases Nat.eq_zero_or_pos len with rfl | hlen
  · rw [Cstr.strlcpy, if_pos rfl, outcome_bind_eq, strEnd_spec h (Nat.zero_le _) hmem]
    exact .ret ⟨rfl, nofun⟩
  · obtain ⟨r, hr, hn, -⟩ : Ensures (Cstr.strlcpy dst src len).outcome _ := strlcpy_spec h hlen hmem
    exact ⟨r, hr, hn, fun _ => strlcpy_terminated hlen r hr⟩

/-- **`strlcpy` and `strlcat`** return the length of the string that they try to make, and leave a
string. `strlcpy` stores in the destination only, and `strlcat` exactly if the string that is there
is not longer than the destination. -/
theorem strlcpy_strlcat_iff (h : src.Str s) {t : List UInt8} (ht : StrAt dst 0 t)
    (hmem : t.length + s.length < memoryEnd) (len : UInt64) :
    (∃ r k, (Cstr.strlcpy dst src len.toNat).outcome = .ok r ∧ r.2 = s.length ∧
      (0 < len.toNat → 0 ∈ slice r.1 0 len.toNat) ∧
      (strlcpyStores src len.toNat).outcome = .ok k ∧ k ≤ len.toNat) ∧
    ((∃ r k, (strlcat dst src len).outcome = .ok r ∧ r.2 = t.length + s.length ∧
      (t.length < len.toNat → 0 ∈ slice r.1 0 len.toNat) ∧
      (strlcpyStores src (len - UInt64.ofNat t.length).toNat).outcome = .ok k ∧
      (k = 0 ∨ t.length + k ≤ len.toNat)) ↔ t.length ≤ len.toNat) := by
  have hs : s.length < memoryEnd := by omega
  have htm : t.length < 2 ^ 64 := by rw [memoryEnd] at hmem; omega
  constructor
  · obtain ⟨r, hr, hn, hz⟩ := strlcpy_returns h hs dst len.toNat
    exact ⟨r, _, hr, hn, hz, strlcpyStores_eq h, Nat.min_le_right ..⟩
  have hlen := len.toNat_lt
  have hsz : (len - UInt64.ofNat t.length).toNat = (2 ^ 64 - t.length + len.toNat) % 2 ^ 64 := by
    rw [UInt64.toNat_sub, UInt64.toNat_ofNat_of_lt' htm]
  rw [strlcpyStores_eq h, hsz]
  constructor
  · rintro ⟨r, k, -, -, -, hk, hin⟩
    cases hk
    by_contra hgt
    -- the size that is left has wrapped around
    rw [Nat.mod_eq_of_lt (by omega)] at hin
    omega
  · intro hle
    rw [show 2 ^ 64 - t.length + len.toNat = len.toNat - t.length + 2 ^ 64 by omega,
      Nat.add_mod_right, Nat.mod_eq_of_lt (by omega)] at hsz ⊢
    obtain ⟨r, hr, hn, hz⟩ := strlcpy_returns h hs (fun i => dst (t.length + i))
      (len - UInt64.ofNat t.length).toNat
    refine ⟨(fun i => if i < t.length then dst i else r.1 (i - t.length), t.length + r.2), _, ?_,
      by rw [hn], fun hlt => ?_, rfl, by omega⟩
    · rw [strlcat, outcome_bind_eq, strlen_spec ht.str (by omega), ok_bind, outcome_bind_eq, hr]
      rfl
    · obtain ⟨k, hk, hzero⟩ := mem_map.mp (hz (by omega))
      rw [hsz, mem_range] at hk
      refine mem_map.mpr ⟨t.length + k, mem_range.mpr (by omega), ?_⟩
      dsimp only
      rw [if_neg (by omega), Nat.zero_add, Nat.add_sub_cancel_left, ← hzero, Nat.zero_add]

def repeated (n : ℕ) (b : UInt8) (i : ℕ) : UInt8 := if i < n then b else 0

theorem str_repeated (n : ℕ) {b : UInt8} (hb : b ≠ 0) :
    (ByteSource.quiet (repeated n b) 0 : ByteSource ε).Str (replicate n b) where
  byte i hi := by simp_all [repeated]
  nonzero h := hb (mem_replicate.mp h).2.symm
  terminated := by simp [repeated]

theorem strlcpy_strlcat_iff_fits : ∃ r, r.2 = 2 ∧
    (strlcat (repeated 1 97) (.quiet (repeated 1 98) 0 : ByteSource Empty) 4).outcome = .ok r := by
  obtain ⟨-, h⟩ := strlcpy_strlcat_iff (str_repeated 1 (by decide : (98 : UInt8) ≠ 0))
    (str_repeated 1 (by decide : (97 : UInt8) ≠ 0)) (by decide) 4
  obtain ⟨r, -, hr, hn, -⟩ := h.mpr (by decide)
  exact ⟨r, hn, hr⟩

/-- A string of two bytes in a destination of one byte: the next byte of memory is overwritten. -/
theorem strlcat_overruns : repeated 2 97 2 = 0 ∧ ∃ r, r.1 2 = 98 ∧
    (strlcat (repeated 2 97) (.quiet (repeated 1 98) 0 : ByteSource Empty) 1).outcome = .ok r :=
  ⟨rfl, _, rfl, rfl⟩

theorem strcmpEnd_spec (ha : a.Str s) (hb : b.Str t) (hmem : s.length < memoryEnd) :
    Ensures (strcmpEnd a b).outcome fun i => a.byte i = b.byte i ↔ s = t := by
  rw [strcmpEnd, outcome_loop]
  -- the strings agree up to here, and neither has ended before
  refine Ensures.loop (I := fun n i => i ≤ s.length ∧ i ≤ t.length ∧ n = s.length - i ∧
    ∀ j < i, a.byte j = b.byte j) ?_
    ⟨Nat.zero_le _, Nat.zero_le _, rfl, nofun⟩ hmem
  rintro _ i ⟨hs, ht, rfl, hsm⟩
  rw [strcmpRound, outcome_bind_eq, ByteSource.outcome_read, ok_bind]
  -- equal strings never part
  have hp : a.byte i ≠ b.byte i → s ≠ t := by
    rintro hne rfl
    rcases Nat.lt_or_eq_of_le hs with hlt | rfl
    · exact hne (Option.some.inj ((ha.byte i hlt).symm.trans (hb.byte i hlt)))
    · exact hne (ha.terminated.trans hb.terminated.symm)
  rcases Nat.lt_or_eq_of_le hs with hlt | rfl
  · rw [if_neg (ha.ne_zero hlt), outcome_bind_eq, ByteSource.outcome_read, ok_bind]
    by_cases heq : a.byte i = b.byte i
    · rw [if_pos heq]
      have ht' : i < t.length := by
        refine Nat.lt_of_le_of_ne ht fun h => ha.ne_zero hlt ?_
        rw [heq, h, hb.terminated]
      refine .ret ⟨s.length - (i + 1), by omega, hlt, ht', rfl, fun j hj => ?_⟩
      rcases Nat.lt_succ_iff_lt_or_eq.mp hj with hj | rfl
      · exact hsm j hj
      · exact heq
    · rw [if_neg heq]
      exact .ret ⟨fun h => absurd h heq, fun h => absurd h (hp heq)⟩
  · rw [if_pos ha.terminated]
    refine .ret ⟨fun heq => ?_, fun h => not_imp_not.mp hp h⟩
    -- the first string has ended here, so the second one does as well
    have hlen : s.length = t.length := by
      refine Nat.le_antisymm ht (Nat.not_lt.mp fun hlt => hb.ne_zero hlt ?_)
      rw [← heq, ha.terminated]
    refine ext_getElem? fun j => ?_
    by_cases hj : j < s.length
    · rw [ha.byte j hj, hb.byte j (hlen ▸ hj), hsm j hj]
    · rw [getElem?_eq_none (by omega), getElem?_eq_none (by omega)]

theorem strcmp_spec (ha : a.Str s) (hb : b.Str t) (hmem : s.length < memoryEnd) :
    Ensures (strcmp a b).outcome fun d => d = 0 ↔ s = t := by
  rw [strcmp, outcome_bind_eq]
  refine (strcmpEnd_spec ha hb hmem).bind fun i hi => .ret ?_
  rw [← hi, Int.sub_eq_zero, Int8.toInt_inj]
  exact ⟨fun h => congrArg Int8.toUInt8 h, fun h => congrArg UInt8.toInt8 h⟩

theorem strncmp_spec (ha : a.Str s) (hb : b.Str t) (hs : s ≠ []) (hmem : s.length < memoryEnd) :
    Ensures (strncmp a b s.length).outcome fun d => d = 0 ↔ s <+: t := by
  rw [strncmp, outcome_loop]
  -- the strings agree up to here, and neither has ended before
  refine Ensures.loop (I := fun n i => i < s.length ∧ i ≤ t.length ∧ n = s.length - i ∧
    ∀ j < i, t[j]? = s[j]?) ?_ ⟨length_pos_iff.mpr hs, Nat.zero_le _, rfl, nofun⟩ hmem
  rintro _ i ⟨hi, ht, rfl, hsm⟩
  simp only [strncmpRound, outcome_bind_eq, ByteSource.outcome_read, ok_bind]
  by_cases heq : a.byte i = b.byte i
  · rw [if_pos ⟨Nat.ne_of_lt hi, ha.ne_zero hi, heq⟩]
    have ht' : i < t.length := by
      refine Nat.lt_of_le_of_ne ht fun h => ha.ne_zero hi ?_
      rw [heq, h, hb.terminated]
    have hsm' : ∀ j < i + 1, t[j]? = s[j]? := by
      intro j hj
      rcases Nat.lt_succ_iff_lt_or_eq.mp hj with hj | rfl
      · exact hsm j hj
      · rw [ha.byte j hi, hb.byte j ht', heq]
    split_ifs with hn
    · refine .ret (iff_of_true rfl (prefix_iff_getElem?.mpr fun j hj => ?_))
      rw [hsm' j (hn ▸ hj), getElem?_eq_getElem hj]
    · exact .ret ⟨s.length - (i + 1), by omega, by omega, ht', rfl, hsm'⟩
  · rw [if_neg fun h => heq h.2.2]
    refine .ret (iff_of_false (fun h => heq ?_) fun h => heq ?_)
    · exact congrArg Int8.toUInt8 (Int8.toInt_inj.mp (Int.sub_eq_zero.mp h))
    · have hby := prefix_iff_getElem?.mp h i hi
      rw [← getElem?_eq_getElem hi, ha.byte i hi, hb.byte i (hi.trans_le h.length_le)] at hby
      exact (Option.some.inj hby).symm

theorem strchr_found {ch : UInt8} (h : src.Str (s ++ ch :: t)) (hs : ch ∉ s)
    (hmem : s.length < memoryEnd) : (strchr src ch).outcome = .ok (some s.length) := by
  refine Ensures.eq_ok ?_
  rw [strchr, outcome_loop]
  refine Ensures.loop (I := fun n i => i ≤ s.length ∧ n = s.length - i) ?_ ⟨Nat.zero_le _, rfl⟩ hmem
  rintro _ i ⟨hi, rfl⟩
  rw [strchrRound, outcome_bind_eq, ByteSource.outcome_read, ok_bind,
    if_neg (h.ne_zero (by rw [length_append, length_cons]; omega))]
  have hb := h.byte i (by rw [length_append, length_cons]; omega)
  rcases Nat.lt_or_eq_of_le hi with hlt | rfl
  · rw [getElem?_append_left hlt] at hb
    rw [if_pos fun heq : src.byte i = ch => hs (heq ▸ mem_of_getElem? hb)]
    exact .ret ⟨s.length - (i + 1), by omega, hlt, rfl⟩
  · rw [getElem?_append_right (Nat.le_refl _), Nat.sub_self] at hb
    rw [if_neg (not_not.mpr (Option.some.inj hb).symm)]
    exact .ret rfl

theorem strchr_absent {ch : UInt8} (h : src.Str s) (hs : ch ∉ s) (hmem : s.length < memoryEnd) :
    (strchr src ch).outcome = .ok none := by
  refine Ensures.eq_ok ?_
  rw [strchr, outcome_loop]
  refine Ensures.loop (I := fun n i => i ≤ s.length ∧ n = s.length - i) ?_ ⟨Nat.zero_le _, rfl⟩ hmem
  rintro _ i ⟨hi, rfl⟩
  rw [strchrRound, outcome_bind_eq, ByteSource.outcome_read, ok_bind]
  rcases Nat.lt_or_eq_of_le hi with hlt | rfl
  · have hne : src.byte i ≠ ch := fun heq => hs (heq ▸ mem_of_getElem? (h.byte i hlt))
    rw [if_neg (h.ne_zero hlt), if_pos hne]
    exact .ret ⟨s.length - (i + 1), by omega, hlt, rfl⟩
  · rw [if_pos h.terminated]
    exact .ret rfl

end Outcome

/-! ## What they read -/

section Reads

variable {src a b : ByteSource ε} {P : ε → Prop} {dst : ℕ → UInt8} {len start : ℕ}

/-- Every event of the call satisfies `P`, however it ends. -/
abbrev ReadsOnly {α : Type} (P : ε → Prop) (x : Traced ε α) : Prop := Safe P (fun _ => True) x

def ByteSource.OkToEnd (src : ByteSource ε) (P : ε → Prop) (start : ℕ) : Prop :=
  ∀ k, start ≤ k → k < memoryEnd → (∀ j, start ≤ j → j < k → src.byte j ≠ 0) → src.Ok P k

theorem ByteSource.okToEnd_quiet {buf : ℕ → UInt8} {p : ℕ} :
    (ByteSource.quiet buf p : ByteSource ε).OkToEnd P start := fun _ _ _ _ => ok_quiet

theorem ByteSource.okToEnd_iff (hs : start < memoryEnd) :
    src.OkToEnd P start ↔ src.Ok P start ∧ (src.byte start ≠ 0 → src.OkToEnd P (start + 1)) := by
  constructor
  · intro h
    refine ⟨h start (Nat.le_refl _) hs fun j hj hlt => absurd hlt (by omega), ?_⟩
    intro hne k hk hmem hb
    refine h k (by omega) hmem fun j hj hlt => ?_
    rcases Nat.lt_or_eq_of_le hj with hj | rfl
    · exact hb j hj hlt
    · exact hne
  · rintro ⟨hf, hr⟩ k hk hmem hb
    rcases Nat.lt_or_eq_of_le hk with hk | rfl
    · refine hr (hb start (Nat.le_refl _) hk) k hk hmem fun j hj hlt => ?_
      exact hb j (by omega) hlt
    · exact hf

theorem strEndRound_done {i : ℕ} (h : src.byte i = 0) :
    strEndRound src i = ⟨src.event i, .ok (.inr i)⟩ := by
  rw [strEndRound, ByteSource.read_bind, if_pos h, log_pure, append_nil, outcome_pure]

theorem strEndRound_next {i : ℕ} (h : src.byte i ≠ 0) :
    strEndRound src i = ⟨src.event i, .ok (.inl (i + 1))⟩ := by
  rw [strEndRound, ByteSource.read_bind, if_neg h, log_pure, append_nil, outcome_pure]

theorem safe_strEnd : ReadsOnly P (strEnd src start) ↔ src.OkToEnd P start := by
  rw [strEnd]
  generalize hn : memoryEnd - start = n
  -- the induction is on what is left of the memory
  induction n generalizing start with
  | zero =>
    exact ⟨fun _ k hk hmem => absurd hmem (by omega), fun _ => safe_halt.mpr trivial⟩
  | succ n ih =>
    have hlt : start < memoryEnd := by omega
    rw [ByteSource.okToEnd_iff hlt]
    by_cases hz : src.byte start = 0
    · rw [loop_done (strEndRound_done hz)]
      exact ⟨fun h => ⟨h.log, fun hne => absurd hz hne⟩, fun h => ⟨h.1, fun _ _ => trivial⟩⟩
    · rw [loop_next (strEndRound_next hz)]
      refine safe_append.trans (and_congr_right fun _ => ?_)
      exact (ih (by omega)).trans ⟨fun h _ => h, fun h => h hz⟩

theorem safe_strlen : ReadsOnly P (strlen src) ↔ src.OkToEnd P 0 := safe_strEnd

theorem strlcpyRound_full {i : ℕ} (h : i + 1 = len) :
    strlcpyRound src len (dst, i) = ⟨[], .ok (.inr (dst, i, false))⟩ := by
  rw [strlcpyRound, if_pos h]
  rfl

theorem strlcpyRound_done {i : ℕ} (hr : i + 1 ≠ len) (h : src.byte i = 0) :
    strlcpyRound src len (dst, i) =
      ⟨src.event i, .ok (.inr (update dst i (src.byte i), i, true))⟩ := by
  rw [strlcpyRound, if_neg hr, ByteSource.read_bind, if_pos h, log_pure, append_nil, outcome_pure]

theorem strlcpyRound_next {i : ℕ} (hr : i + 1 ≠ len) (h : src.byte i ≠ 0) :
    strlcpyRound src len (dst, i) =
      ⟨src.event i, .ok (.inl (update dst i (src.byte i), i + 1))⟩ := by
  rw [strlcpyRound, if_neg hr, ByteSource.read_bind, if_neg h, log_pure, append_nil, outcome_pure]

theorem safe_strlcpyCopy {n i : ℕ} (hlen : len ≤ memoryEnd) (hi : i < len) (hn : len ≤ i + n) :
    (ReadsOnly P (Traced.loop (strlcpyRound src len) n (dst, i)) ∧
      ∀ dst' k, (Traced.loop (strlcpyRound src len) n (dst, i)).outcome = .ok (dst', k, false) →
        src.OkToEnd P k) ↔ src.OkToEnd P i := by
  induction n generalizing dst i with
  | zero => omega
  | succ n ih =>
    by_cases hf : i + 1 = len
    · rw [loop_done (strlcpyRound_full hf)]
      constructor
      · exact fun h => h.2 dst i rfl
      · refine fun h => ⟨safe_pure, ?_⟩
        rintro _ _ ⟨⟩
        exact h
    · rw [ByteSource.okToEnd_iff (by omega)]
      by_cases hz : src.byte i = 0
      · rw [loop_done (strlcpyRound_done hf hz)]
        refine ⟨fun h => ⟨h.1.log, fun hne => absurd hz hne⟩, fun h => ⟨⟨h.1, ?_⟩, ?_⟩⟩
        · exact fun _ _ => trivial
        · rintro _ _ ⟨⟩
      · rw [loop_next (strlcpyRound_next hf hz)]
        refine (and_congr_left' safe_append).trans (and_assoc.trans (and_congr_right fun _ => ?_))
        exact (ih (by omega) (by omega)).trans ⟨fun h _ => h, fun h => h hz⟩

theorem safe_strlcpy (hpos : 0 < len) (hlen : len ≤ memoryEnd) :
    ReadsOnly P (Cstr.strlcpy dst src len) ↔ src.OkToEnd P 0 := by
  rw [Cstr.strlcpy, if_neg (Nat.ne_of_gt hpos), ← safe_strlcpyCopy hlen hpos (Nat.le_add_left _ _)]
  refine safe_bind.trans (and_congr_right fun _ => ⟨fun h dst' k hk => ?_, fun h r hr => ?_⟩)
  · exact safe_strEnd.mp (safe_bind.mp (h (dst', k, false) hk)).1
  · obtain ⟨dst', k, whole⟩ := r
    cases whole with
    | true => exact safe_pure
    | false => exact safe_bind.mpr ⟨safe_strEnd.mpr (h dst' k hr), fun n _ => safe_pure⟩

def ByteSource.Agree (a b : ByteSource ε) (i : ℕ) : Prop :=
  ∀ j < i, a.byte j ≠ 0 ∧ a.byte j = b.byte j

theorem strcmpRound_agree {i : ℕ} (h : a.Agree b i) (ha : a.Ok P i) (hb : b.Ok P i) :
    ReadsOnly P (strcmpRound a b i) ∧
      Ensures (strcmpRound a b i).outcome (Sum.elim (a.Agree b) (a.Agree b)) := by
  rw [strcmpRound, outcome_bind_eq, ByteSource.outcome_read, ok_bind]
  by_cases hz : a.byte i = 0
  · rw [if_pos hz]
    refine ⟨safe_bind.mpr ⟨ByteSource.safe_read.mpr ha, ?_⟩, .ret h⟩
    rintro _ ⟨⟩
    rw [if_pos hz]
    exact safe_pure
  · rw [if_neg hz, outcome_bind_eq, ByteSource.outcome_read, ok_bind]
    constructor
    · refine safe_bind.mpr ⟨ByteSource.safe_read.mpr ha, ?_⟩
      rintro _ ⟨⟩
      rw [if_neg hz]
      refine safe_bind.mpr ⟨ByteSource.safe_read.mpr hb, fun y _ => ?_⟩
      split_ifs <;> exact safe_pure
    · split_ifs with heq
      · refine .ret fun j hj => ?_
        rcases Nat.lt_succ_iff_lt_or_eq.mp hj with hlt | rfl
        · exact h j hlt
        · exact ⟨hz, heq⟩
      · exact .ret h

theorem safe_strcmp (h : ∀ k, a.Agree b k → a.Ok P k ∧ b.Ok P k) : ReadsOnly P (strcmp a b) := by
  have hs : a.Agree b 0 := nofun
  have hrn : ∀ i, a.Agree b i → _ := fun i hi => strcmpRound_agree hi (h i hi).1 (h i hi).2
  refine safe_bind.mpr ⟨safe_loop trivial (fun i hi => ?_) hs, fun k hk => ?_⟩
  · refine ⟨(hrn i hi).1, fun i' hi' => ?_⟩
    exact (hrn i hi).2.yields _ hi'
  · -- the last two reads are where the loop has ended
    rw [strcmpEnd, outcome_loop] at hk
    have ha : a.Agree b k := loop_induction (fun i i' hi hi' => (hrn i hi).2.yields _ hi')
      (fun i r hi hr => (hrn i hi).2.yields _ hr) hs hk
    obtain ⟨hka, hkb⟩ := h k ha
    refine safe_bind.mpr ⟨ByteSource.safe_read.mpr hka, fun x _ => ?_⟩
    exact safe_bind.mpr ⟨ByteSource.safe_read.mpr hkb, fun y _ => safe_pure⟩

theorem safe_strchr {ch : UInt8} (h : ∀ k, src.Ok P k) : ReadsOnly P (strchr src ch) := by
  refine safe_loop_of_forall trivial fun i => ?_
  refine safe_bind.mpr ⟨ByteSource.safe_read.mpr (h i), fun b _ => ?_⟩
  split_ifs <;> exact safe_pure

end Reads

end Glatt
