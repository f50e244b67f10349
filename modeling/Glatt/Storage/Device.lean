import Glatt.Core.Error
import Glatt.Lib.Buffer

/-!
# Storage devices

`storage_device_read` of `io/storage/storage_device.c`: a read of whole device blocks into a buffer.
The driver's `sd_read` is a function of the offset, so a device is its contents; the size of its
blocks is a power of two. `tmdisk_size` of `testmips_disk.c` finds the size of a disk by reads.

## Main definitions

* `StorageDevice`, `storageDeviceRead`: a device, and a read

## Main results

* `tmdisk_size_exact`: the size that `tmdisk_size` finds is that of the disk
-/

namespace Glatt

open Imperative Buffer

/-- `struct storage_device`: the size of a block, and the read of the block at an offset, which
delivers as many bytes as a block has. -/
structure StorageDevice where
  sdBsize : UInt32
  sdRead : UInt64 → Except Errno (ℕ → UInt8)
  bsize_pow : ∃ k, sdBsize.toNat = 2 ^ k

theorem exists_pow_512 : ∃ k, (512 : UInt32).toNat = 2 ^ k := ⟨9, rfl⟩

namespace StorageDevice

variable (sdev : StorageDevice)

def bsize : UInt64 := sdev.sdBsize.toUInt64

theorem toNat_bsize : sdev.bsize.toNat = sdev.sdBsize.toNat := by
  simp [bsize]

theorem bsize_pos : 0 < sdev.bsize.toNat := by
  obtain ⟨k, hk⟩ := sdev.bsize_pow
  rw [toNat_bsize, hk]
  exact k.two_pow_pos

theorem and_mask (len : UInt64) :
    (len &&& (sdev.bsize - 1)).toNat = len.toNat % sdev.bsize.toNat := by
  obtain ⟨k, hk⟩ := sdev.bsize_pow
  have hpos : 1 ≤ sdev.bsize := UInt64.le_iff_toNat_le.mpr sdev.bsize_pos
  rw [UInt64.toNat_and, UInt64.toNat_sub_of_le _ _ hpos, toNat_bsize, hk]
  exact Nat.and_two_pow_sub_one_eq_mod _ k

end StorageDevice

/-- One round of the loop of `storage_device_read`: the buffer, what has been filled of it, and what
is left to read. -/
def storageDeviceRound (sdev : StorageDevice) :
    (ℕ → UInt8) × ℕ × UInt64 × UInt64 →
      Outcome (((ℕ → UInt8) × ℕ × UInt64 × UInt64) ⊕ ((ℕ → UInt8) × Except Errno Unit))
  | (buf, filled, len, off) =>
    if len = 0 then pure (.inr (buf, .ok ()))
    else
      match sdev.sdRead off with
      | .error e => pure (.inr (buf, .error e))
      | .ok block => pure (.inl (write buf filled sdev.bsize.toNat block,
          filled + sdev.bsize.toNat, len - sdev.bsize, off + sdev.bsize))

/-- `storage_device_read`: the blocks from `off` on, one after the other, until `len` bytes have
been read or the driver fails. -/
def storageDeviceRead (sdev : StorageDevice) (buf : ℕ → UInt8) (len off : UInt64) :
    Outcome ((ℕ → UInt8) × Except Errno Unit) :=
  if len &&& (sdev.bsize - 1) ≠ 0 ∨ off &&& (sdev.bsize - 1) ≠ 0 then
    pure (buf, .error .invalid)
  else loop (storageDeviceRound sdev) (len.toNat + 1) (buf, 0, len, off)

/-! ## What a device holds -/

namespace StorageDevice

variable (sdev : StorageDevice)

def blocks (off : UInt64) : ℕ → Except Errno (ℕ → UInt8)
  | 0 => .ok fun _ => 0
  | n + 1 => do
    let front ← blocks off n
    let block ← sdev.sdRead (off + UInt64.ofNat (n * sdev.bsize.toNat))
    pure (write front (n * sdev.bsize.toNat) sdev.bsize.toNat block)

/-- What the device holds in the `len` bytes from `off` on; ranges are made of whole blocks. -/
def contents (len off : UInt64) : Except Errno (ℕ → UInt8) :=
  if sdev.bsize.toNat ∣ len.toNat ∧ sdev.bsize.toNat ∣ off.toNat then
    sdev.blocks off (len.toNat / sdev.bsize.toNat)
  else .error .invalid

def byteAt (addr : UInt64) : Except Errno UInt8 := do
  let block ← sdev.sdRead (addr - addr % sdev.bsize)
  pure (block (addr.toNat % sdev.bsize.toNat))

end StorageDevice

variable {sdev : StorageDevice} {buf c : ℕ → UInt8} {len off : UInt64} {e : Errno} {k n : ℕ}

theorem blocks_succ : sdev.blocks off (n + 1) = .ok c ↔ ∃ front block,
    sdev.blocks off n = .ok front ∧
      sdev.sdRead (off + UInt64.ofNat (n * sdev.bsize.toNat)) = .ok block ∧
      c = write front (n * sdev.bsize.toNat) sdev.bsize.toNat block := by
  rw [StorageDevice.blocks]
  cases sdev.blocks off n with
  | error e => exact ⟨nofun, fun ⟨_, _, h, _⟩ => by cases h⟩
  | ok front =>
    cases sdev.sdRead (off + UInt64.ofNat (n * sdev.bsize.toNat)) with
    | error e => exact ⟨nofun, fun ⟨_, _, _, h, _⟩ => by cases h⟩
    | ok block =>
      constructor
      · rintro ⟨⟩
        exact ⟨front, block, rfl, rfl, rfl⟩
      · rintro ⟨_, _, ⟨⟩, ⟨⟩, rfl⟩
        rfl

theorem blocks_error (hc : sdev.blocks off k = .ok c)
    (hk : sdev.sdRead (off + UInt64.ofNat (k * sdev.bsize.toNat)) = .error e) (hlt : k < n) :
    sdev.blocks off n = .error e := by
  induction n, hlt using Nat.le_induction with
  | base => simp only [StorageDevice.blocks, hc, hk]; rfl
  | succ n hn ih => simp only [StorageDevice.blocks, ih]; rfl

theorem storageDeviceRead_spec :
    Ensures (storageDeviceRead sdev buf len off) fun r =>
      r.2 = (sdev.contents len off).map (fun _ => ()) ∧
        ∀ c, sdev.contents len off = .ok c → r.1 = write buf 0 len.toNat c := by
  have hm : (len &&& (sdev.bsize - 1) ≠ 0 ∨ off &&& (sdev.bsize - 1) ≠ 0) ↔
      ¬ (sdev.bsize.toNat ∣ len.toNat ∧ sdev.bsize.toNat ∣ off.toNat) := by
    simp only [ne_eq, ← UInt64.toNat_inj, sdev.and_mask, Nat.dvd_iff_mod_eq_zero]
    exact not_and_or.symm
  rw [storageDeviceRead, StorageDevice.contents]
  by_cases hdvd : sdev.bsize.toNat ∣ len.toNat ∧ sdev.bsize.toNat ∣ off.toNat
  · rw [if_neg (hm.not.mpr (not_not.mpr hdvd)), if_pos hdvd]
    obtain ⟨N, hN⟩ := hdvd.1
    have hpos := sdev.bsize_pos
    rw [hN, Nat.mul_div_cancel_left N hpos]
    -- after `k` rounds the first `k` blocks have been read, and `N - k` are left
    refine Ensures.loop (I := fun m s => ∃ k c, k ≤ N ∧ sdev.blocks off k = .ok c ∧
      s = (write buf 0 (k * sdev.bsize.toNat) c, k * sdev.bsize.toNat,
        UInt64.ofNat ((N - k) * sdev.bsize.toNat), off + UInt64.ofNat (k * sdev.bsize.toNat)) ∧
      m = N - k) ?_ ⟨0, _, Nat.zero_le N, rfl, ?_, rfl⟩ ?_
    · rintro m _ ⟨k, c, hk, hc, rfl, rfl⟩
      have ha : ∀ j, UInt64.ofNat ((j + 1) * sdev.bsize.toNat) =
          UInt64.ofNat (j * sdev.bsize.toNat) + sdev.bsize := fun j => by
        rw [Nat.succ_mul, UInt64.ofNat_add, UInt64.ofNat_toNat]
      rcases Nat.eq_or_lt_of_le hk with rfl | hlt
      · -- nothing is left
        have hd : UInt64.ofNat ((k - k) * sdev.bsize.toNat) = 0 := by
          rw [Nat.sub_self, Nat.zero_mul]
          rfl
        rw [storageDeviceRound, if_pos hd, hc]
        refine .ret ⟨rfl, fun c' hc' => ?_⟩
        cases hc'
        rw [Nat.mul_comm]
      · have hl : UInt64.ofNat ((N - k) * sdev.bsize.toNat) ≠ 0 := by
          have hle : (N - k) * sdev.bsize.toNat ≤ sdev.bsize.toNat * N :=
            (Nat.mul_le_mul_right _ (Nat.sub_le N k)).trans_eq (Nat.mul_comm _ _)
          have hne : (N - k) * sdev.bsize.toNat ≠ 0 := Nat.mul_ne_zero (by omega) hpos.ne'
          have hlen := len.toNat_lt
          rw [Ne, ← UInt64.toNat_inj, UInt64.toNat_ofNat_of_lt' (show _ < 2 ^ 64 by omega)]
          exact hne
        rw [storageDeviceRound, if_neg hl]
        cases hr : sdev.sdRead (off + UInt64.ofNat (k * sdev.bsize.toNat)) with
        | error e =>
          rw [blocks_error hc hr hlt]
          exact .ret ⟨rfl, nofun⟩
        | ok block =>
          have hb := blocks_succ.mpr ⟨c, block, hc, hr, rfl⟩
          refine .ret ⟨N - (k + 1), by omega, k + 1, _, hlt, hb, ?_, rfl⟩
          · rw [write_write, ← Nat.succ_mul, ha, ← UInt64.add_assoc,
              show N - k = N - (k + 1) + 1 by omega, ha, UInt64.add_sub_cancel]
    · rw [Nat.zero_mul, Nat.sub_zero, Nat.mul_comm N, ← hN, UInt64.ofNat_toNat]
      exact congrArg (fun o => (buf, 0, len, o)) off.add_zero.symm
    · exact Nat.lt_succ_of_le (Nat.le_mul_of_pos_left N hpos)
  · rw [if_pos (hm.mpr hdvd), if_neg hdvd]
    exact .ret ⟨rfl, nofun⟩

theorem addr_mod_bsize (ho : sdev.bsize.toNat ∣ off.toNat) (i : ℕ) :
    (off + UInt64.ofNat i).toNat % sdev.bsize.toNat = i % sdev.bsize.toNat := by
  obtain ⟨k, hk⟩ := sdev.bsize_pow
  rw [← sdev.toNat_bsize] at hk
  have hle : sdev.bsize.toNat ∣ 2 ^ 64 := by
    have hlt := sdev.bsize.toNat_lt
    rw [hk] at hlt ⊢
    exact Nat.pow_dvd_pow 2 ((Nat.pow_lt_pow_iff_right (by decide)).mp hlt).le
  rw [UInt64.toNat_add, UInt64.toNat_ofNat', Nat.mod_mod_of_dvd _ hle, Nat.add_mod,
    Nat.mod_mod_of_dvd _ hle, Nat.mod_eq_zero_of_dvd ho, Nat.zero_add, Nat.mod_mod]

theorem blocks_apply (ho : sdev.bsize.toNat ∣ off.toNat) (hc : sdev.blocks off n = .ok c) {i : ℕ}
    (hi : i < n * sdev.bsize.toNat) : sdev.byteAt (off + UInt64.ofNat i) = .ok (c i) := by
  induction n generalizing c with
  | zero => omega
  | succ n ih =>
    obtain ⟨front, block, hf, hb, rfl⟩ := blocks_succ.mp hc
    rcases i.lt_or_ge (n * sdev.bsize.toNat) with hlt | hge
    · rw [write, if_neg (by omega)]
      exact ih hf hlt
    · rw [Nat.succ_mul] at hi
      have hi' : i = n * sdev.bsize.toNat + (i - n * sdev.bsize.toNat) := by omega
      have hm : i % sdev.bsize.toNat = i - n * sdev.bsize.toNat := by
        rw [hi', Nat.add_comm, Nat.add_mul_mod_self_right, Nat.mod_eq_of_lt (by omega)]
        omega
      have hs : off + UInt64.ofNat i - (off + UInt64.ofNat i) % sdev.bsize =
          off + UInt64.ofNat (n * sdev.bsize.toNat) := by
        have hin : (off + UInt64.ofNat i) % sdev.bsize =
            UInt64.ofNat (i - n * sdev.bsize.toNat) := by
          rw [← UInt64.toNat_inj, UInt64.toNat_mod, addr_mod_bsize ho, hm,
            UInt64.toNat_ofNat_of_lt' (show _ < 2 ^ 64 by have := sdev.bsize.toNat_lt; omega)]
        have hsum : off + UInt64.ofNat i = off + UInt64.ofNat (n * sdev.bsize.toNat) +
            UInt64.ofNat (i - n * sdev.bsize.toNat) := by
          rw [UInt64.add_assoc, ← UInt64.ofNat_add, ← hi']
        rw [hin, hsum, UInt64.add_sub_cancel]
      rw [StorageDevice.byteAt, hs, hb, addr_mod_bsize ho, hm, write_apply_of_lt hge (by omega)]
      rfl

theorem contents_apply (hc : sdev.contents len off = .ok c) {i : ℕ} (hi : i < len.toNat) :
    sdev.byteAt (off + UInt64.ofNat i) = .ok (c i) := by
  rw [StorageDevice.contents] at hc
  split_ifs at hc with hd
  exact blocks_apply hd.2 hc (by rwa [Nat.div_mul_cancel hd.1])

theorem toNat_min (a b : UInt64) : (if a < b then a else b).toNat = min a.toNat b.toNat := by
  split_ifs with h
  · exact (Nat.min_eq_left (UInt64.lt_iff_toNat_lt.mp h).le).symm
  · exact (Nat.min_eq_right (UInt64.le_iff_toNat_le.mp (UInt64.not_lt.mp h))).symm

/-! ## The size of a disk -/

def tmdiskRead (fails : ℕ → Bool) (off : ℕ) : Except Errno Unit :=
  if 2 ^ 63 ≤ off ∨ off % 512 ≠ 0 then .error .invalid
  else if fails off then .error .unexpected
  else .ok ()

/-- The variables of `tmdisk_size`. -/
structure TmdiskProbe where
  ogood : ℕ
  m : ℕ
  s : ℕ

def tmdiskSize (fails : ℕ → Bool) : ℕ → Outcome ℕ := fun fuel =>
  loop (fun (p : TmdiskProbe) =>
    let offset := (p.ogood * p.s + p.m * 512) % 2 ^ 64
    match tmdiskRead fails offset with
    | .error _ =>
      if p.m = 1 ∧ p.s = 1 then pure (.inr ((p.ogood + 512) % 2 ^ 64))
      else pure (.inl ⟨p.ogood, if 1 < p.m then p.m / 2 else p.m, if 1 < p.s then p.s - 1 else p.s⟩)
    | .ok () =>
      if p.ogood = offset then pure (.inl ⟨p.ogood, 1, p.s⟩)
      else pure (.inl ⟨offset, (p.m + 1) % 2 ^ 64, p.s⟩)) fuel ⟨0, 1, 3⟩

/-- **The probe finds the size of the disk**, in at most two rounds for each block. -/
theorem tmdisk_size_exact {fails : ℕ → Bool} {b : ℕ} (hb : 1 ≤ b) (hsize : b * 512 < 2 ^ 60)
    (hfails : ∀ off, fails off = true ↔ b * 512 ≤ off) {fuel : ℕ} (hfuel : 2 * b + 4 < fuel) :
    tmdiskSize fails fuel = .ok (b * 512) := by
  -- a read at `k` blocks has succeeded; a success moves `k`, a failure decreases `m` or `s`
  refine Ensures.eq_ok ?_
  refine Ensures.loop (I := fun n p => ∃ k < b, p.ogood = k * 512 ∧ 1 ≤ p.m ∧ p.m ≤ k + 1 ∧
    1 ≤ p.s ∧ p.s ≤ 3 ∧ n = 2 * (b - k) + p.m + p.s) ?_
    ⟨0, hb, rfl, Nat.le_refl 1, Nat.le_refl 1, by decide, Nat.le_refl 3, rfl⟩ hfuel
  rintro n ⟨ogood, m, s⟩ ⟨k, hk, rfl, hm, hmk, hs, hs', rfl⟩
  dsimp only at hm hmk hs hs' ⊢
  obtain ⟨j, hj, hlow, hh, ho⟩ : ∃ j, k * 512 * s + m * 512 = j * 512 ∧ k + m ≤ j ∧
      j ≤ 3 * k + m ∧ (s = 1 → j = k + m) := by
    obtain rfl | rfl | rfl : s = 1 ∨ s = 2 ∨ s = 3 := by omega
    · exact ⟨k + m, by omega, by omega, by omega, fun _ => rfl⟩
    · exact ⟨2 * k + m, by omega, by omega, by omega, nofun⟩
    · exact ⟨3 * k + m, by omega, by omega, by omega, nofun⟩
  have hmod : j * 512 % 2 ^ 64 = j * 512 := by omega
  rw [hj, hmod, tmdiskRead, if_neg (by omega)]
  by_cases hbad : b * 512 ≤ j * 512
  · rw [if_pos ((hfails _).mpr hbad)]
    dsimp only
    split_ifs with hl hm' hs' hs'
    · have hl : j = k + m := ho hl.2
      have hv : k * 512 + 512 = b * 512 := by omega
      rw [hv, Nat.mod_eq_of_lt (by omega)]
      exact .ret rfl
    all_goals
      refine .ret ⟨_, ?_, k, hk, rfl, ?_, ?_, ?_, ?_, rfl⟩
      all_goals dsimp only; omega
  · rw [if_neg (mt (hfails _).mp hbad)]
    dsimp only
    rw [if_neg (by omega), Nat.mod_eq_of_lt (by omega)]
    refine .ret ⟨_, ?_, j, by omega, rfl, ?_, ?_, hs, hs', rfl⟩
    all_goals dsimp only; omega

/-- A disk of three blocks. -/
theorem tmdisk_size_exact_three : tmdiskSize (fun off => 3 * 512 ≤ off) 11 = .ok (3 * 512) :=
  tmdisk_size_exact (by decide) (by decide) (fun _ => decide_eq_true_iff) (by decide)

end Glatt
