import Glatt.Storage.Tarfs

/-!
# Reading a file of an archive back

What `tarfs_op_file_read` returns when the device serves a disk image. Each call is cut off three
times: at the length that was asked for, at the end of a block, and at the end of the file. A file
whose data lie in the image is nevertheless read back whole by calls that go on where the last one
ended.

## Main definitions

* `DiskImage`, `StorageDevice.Serves`: an image, and a device that serves it
* `tarfsReadWhole`: the calls

## Main results

* `tarfs_reads_back`: the pieces are the file
-/

namespace Glatt

open Imperative Buffer List

/-! ## Images -/

/-- The bytes of a disk: whole blocks of an archive, as many as `off_t` can number. -/
structure DiskImage where
  bytes : List UInt8
  blocks : 512 ∣ bytes.length
  addressable : bytes.length < 2 ^ 63

/-- The device returns the image's block at each aligned offset in the image. -/
structure StorageDevice.Serves (sdev : StorageDevice) (image : DiskImage) : Prop where
  bsize_dvd : sdev.bsize.toNat ∣ 512
  read : ∀ off : UInt64, sdev.bsize.toNat ∣ off.toNat → off.toNat < image.bytes.length →
    ∃ block, sdev.sdRead off = .ok block ∧
      ∀ i < sdev.bsize.toNat, image.bytes[off.toNat + i]? = some (block i)

variable {sdev : StorageDevice} {image : DiskImage}

def DiskImage.disk (image : DiskImage) : StorageDevice :=
  ⟨512, fun off => .ok fun i => (image.bytes[off.toNat + i]?).getD 0, exists_pow_512⟩

theorem DiskImage.disk_serves : image.disk.Serves image := by
  refine ⟨Nat.dvd_refl 512, fun off ha ho => ⟨_, rfl, fun i hi => ?_⟩⟩
  have ha : 512 ∣ off.toNat := ha
  have hi : i < 512 := hi
  have hb := image.blocks
  rw [getElem?_eq_getElem (by omega), Option.getD_some]

theorem StorageDevice.Serves.byteAt (h : sdev.Serves image) {addr : UInt64}
    (ha : addr.toNat < image.bytes.length) :
    ∃ b, sdev.byteAt addr = .ok b ∧ image.bytes[addr.toNat]? = some b := by
  have hpos := sdev.bsize_pos
  have hm : (addr % sdev.bsize).toNat = addr.toNat % sdev.bsize.toNat := UInt64.toNat_mod _ _
  have hle : addr % sdev.bsize ≤ addr := by
    exact Nat.mod_le _ _
  have hb : (addr - addr % sdev.bsize).toNat = addr.toNat - addr.toNat % sdev.bsize.toNat := by
    rw [UInt64.toNat_sub_of_le _ _ hle, hm]
  obtain ⟨block, hr, hbl⟩ := h.read (addr - addr % sdev.bsize)
    (by rw [hb]; exact Nat.dvd_sub_mod _) (by omega)
  refine ⟨block (addr.toNat % sdev.bsize.toNat), ?_, ?_⟩
  · rw [StorageDevice.byteAt, hr]
    rfl
  · have hlt := Nat.mod_lt addr.toNat hpos
    have := hbl (addr.toNat % sdev.bsize.toNat) hlt
    rwa [hb, Nat.sub_add_cancel (Nat.mod_le _ _)] at this

theorem StorageDevice.Serves.contents (h : sdev.Serves image) {addr : UInt64}
    (hal : 512 ∣ addr.toNat) (ha : addr.toNat < image.bytes.length) :
    ∃ cont, sdev.contents 512 addr = .ok cont ∧
      ∀ i < 512, image.bytes[addr.toNat + i]? = some (cont i) := by
  have hbc := image.blocks
  have hd : sdev.bsize.toNat ∣ addr.toNat := h.bsize_dvd.trans hal
  have hlt := image.addressable
  obtain ⟨N, hN⟩ := h.bsize_dvd
  have hpos := sdev.bsize_pos
  -- every device block of the range can be read
  have hr : ∀ n ≤ N, ∃ cont, sdev.blocks addr n = .ok cont := by
    intro n hn
    induction n with
    | zero => exact ⟨_, rfl⟩
    | succ n ih =>
      obtain ⟨front, hf⟩ := ih (by omega)
      have ho : n * sdev.bsize.toNat + sdev.bsize.toNat ≤ 512 := by
        rw [hN, Nat.mul_comm]
        exact Nat.mul_le_mul_left _ hn
      have ha' : (addr + UInt64.ofNat (n * sdev.bsize.toNat)).toNat =
          addr.toNat + n * sdev.bsize.toNat := by
        rw [UInt64.toNat_add, UInt64.toNat_ofNat_of_lt' (show _ < 2 ^ 64 by omega)]
        omega
      obtain ⟨block, hbl, -⟩ := h.read (addr + UInt64.ofNat (n * sdev.bsize.toNat))
        (by rw [ha']; exact Nat.dvd_add hd (Nat.dvd_mul_left _ _)) (by omega)
      exact ⟨_, blocks_succ.mpr ⟨front, block, hf, hbl, rfl⟩⟩
  obtain ⟨cont, hcn⟩ := hr N le_rfl
  have hc : sdev.contents 512 addr = .ok cont := by
    rw [StorageDevice.contents, if_pos ⟨h.bsize_dvd, hd⟩,
      show (512 : UInt64).toNat / sdev.bsize.toNat = N from ?_]
    · exact hcn
    · show 512 / sdev.bsize.toNat = N
      rw [hN, Nat.mul_div_cancel_left _ hpos]
  refine ⟨cont, hc, fun i hi => ?_⟩
  have hi' : (addr + UInt64.ofNat i).toNat = addr.toNat + i := by
    rw [UInt64.toNat_add, UInt64.toNat_ofNat_of_lt' (show _ < 2 ^ 64 by omega)]
    omega
  obtain ⟨b, hb, him⟩ := h.byteAt (show (addr + UInt64.ofNat i).toNat < _ by omega)
  rw [contents_apply hc (show i < (512 : UInt64).toNat from hi)] at hb
  cases hb
  rwa [hi'] at him

/-! ## One call -/

/-- The data of the file lie in the image, from the beginning of a block on. -/
structure TarfsFileContext.On (fc : TarfsFileContext) (image : DiskImage) : Prop where
  aligned : 512 ∣ fc.fDaddr.toNat
  inside : fc.fDaddr.toNat + fc.fDsize.toNat ≤ image.bytes.length

def TarfsFileContext.bytes (fc : TarfsFileContext) (image : DiskImage) : List UInt8 :=
  (image.bytes.drop fc.fDaddr.toNat).take fc.fDsize.toNat

theorem TarfsFileContext.On.length_bytes {fc : TarfsFileContext} (h : fc.On image) :
    (fc.bytes image).length = fc.fDsize.toNat := by
  have := h.inside
  rw [bytes, length_take, length_drop]
  omega

namespace TarfsRead

variable {c : TarfsRead}

theorem Inside.toNat_length (h : c.Inside) :
    c.length.toNat = min (min c.len.toNat (512 - c.off.toUInt64.toNat % 512))
      (c.fc.fDsize.toNat - c.off.toUInt64.toNat) := by
  have ho := h.toNat_offset
  have hb : (512 - c.offset).toUInt64.toNat = 512 - c.off.toUInt64.toNat % 512 := by
    rw [UInt32.toNat_toUInt64, UInt32.toNat_sub_of_le]
    · exact congrArg (512 - ·) ho
    · rw [UInt32.le_iff_toNat_le]
      show _ ≤ 512
      omega
  have hr : (c.fc.fDsize - c.off.toUInt64).toNat = c.fc.fDsize.toNat - c.off.toUInt64.toNat :=
    UInt64.toNat_sub_of_le _ _ (UInt64.le_of_lt h)
  rw [length, toNat_min, fitting, toNat_min, hb, hr]

theorem result_on (hs : sdev.Serves image) (hon : c.fc.On image) (h : c.Inside) :
    c.result sdev = .ok (((c.fc.bytes image).drop c.off.toUInt64.toNat).take c.length.toNat) := by
  have hlt := UInt64.lt_iff_toNat_lt.mp h
  have hin := hon.inside
  have hm := image.addressable
  have ho := h.toNat_offset
  have hlen := h.toNat_length
  have ha : c.address.toNat = c.off.toUInt64.toNat - c.off.toUInt64.toNat % 512 := by
    have hle : c.offset.toUInt64 ≤ c.off.toUInt64 := by
      rw [UInt64.le_iff_toNat_le, UInt32.toNat_toUInt64, ho]
      exact Nat.mod_le _ _
    rw [address, UInt64.toNat_sub_of_le _ _ hle, UInt32.toNat_toUInt64, ho]
  have hd : c.daddr.toNat =
      c.fc.fDaddr.toNat + (c.off.toUInt64.toNat - c.off.toUInt64.toNat % 512) := by
    rw [daddr, UInt64.toNat_add]
    omega
  have hal := hon.aligned
  obtain ⟨cont, hc, hby⟩ := hs.contents (show 512 ∣ c.daddr.toNat by omega) (by omega)
  rw [result, if_neg (UInt64.not_lt.mpr (UInt64.le_of_lt h)), if_neg (UInt64.ne_of_lt h), hc]
  -- the piece is the part of the block from the offset on
  refine congrArg Except.ok (ext_getElem? fun i => ?_)
  rw [copy, TarfsFileContext.bytes]
  by_cases hi : i < c.length.toNat
  · have hb := hby (c.offset.toNat + i) (by omega)
    rw [getElem?_eq_getElem (by simpa using hi), getElem_slice, ← hb, getElem?_take,
      if_pos hi, getElem?_drop, getElem?_take, if_pos (by omega), getElem?_drop]
    congr 1
    omega
  · rw [getElem?_eq_none (by simpa using hi), getElem?_take, if_neg hi]

end TarfsRead

/-! ## Call after call -/

/-- One round of a client's loop, which reads on where the last call ended: the mount, the number of
the call, the offset, and the bytes so far. The loop ends with a call that fails or returns
nothing. -/
def tarfsReadRound (fc : TarfsFileContext) (lens : ℕ → UInt64) :
    TarfsMount × ℕ × Int64 × List UInt8 →
      Outcome ((TarfsMount × ℕ × Int64 × List UInt8) ⊕ Except Errno (List UInt8))
  | (tm, k, off, acc) => do
    let (tm, r) ← tarfsOpFileRead tm ⟨fc, off, lens k⟩
    match r with
    | .error e => pure (.inr (.error e))
    | .ok bytes =>
      if bytes.length = 0 then pure (.inr (.ok acc))
      else pure (.inl (tm, k + 1, off + Int64.ofNat bytes.length, acc ++ bytes))

/-- Calls of `tarfs_op_file_read` from the beginning of the file on, the `k`-th of which asks for
`lens k` bytes. -/
def tarfsReadWhole (tm : TarfsMount) (fc : TarfsFileContext) (lens : ℕ → UInt64) :
    Outcome (Except Errno (List UInt8)) :=
  loop (tarfsReadRound fc lens) (fc.fDsize.toNat + 1) (tm, 0, 0, [])

variable {tm : TarfsMount} {fc : TarfsFileContext}

theorem tarfsOpFileRead_sdev {c : TarfsRead} :
    Yields (tarfsOpFileRead tm c) fun r => r.1.tmSdev = tm.tmSdev := by
  rw [tarfsOpFileRead]
  split_ifs
  · exact .ret rfl
  · exact .ret rfl
  · intro x hx
    obtain ⟨⟨block, r⟩, -, hx⟩ := bind_eq_ok.mp hx
    cases r with
    | error e | ok u =>
      cases hx
      rfl

theorem tarfsOpFileRead_on (hs : tm.tmSdev.Serves image) (hon : fc.On image) {off : Int64}
    {len : UInt64} (hlen : 0 < len) (ho : off.toUInt64 ≤ fc.fDsize) :
    Ensures (tarfsOpFileRead tm ⟨fc, off, len⟩) fun r => r.1.tmSdev = tm.tmSdev ∧
      ∃ bytes, r.2 = .ok bytes ∧ bytes.length ≤ len.toNat ∧
        bytes <+: (fc.bytes image).drop off.toUInt64.toNat ∧
        (bytes = [] ↔ off.toUInt64 = fc.fDsize) := by
  refine (tarfsOpFileRead_spec.and tarfsOpFileRead_sdev).mono ?_
  rintro ⟨tm', r⟩ ⟨hr, hsd⟩
  refine ⟨hsd, ?_⟩
  by_cases hend : off.toUInt64 = fc.fDsize
  · have hn : TarfsRead.result ⟨fc, off, len⟩ tm.tmSdev = .ok [] :=
      (if_neg (UInt64.not_lt.mpr ho)).trans (if_pos hend)
    exact ⟨[], hr.trans hn, Nat.zero_le _, nil_prefix, fun _ => hend, fun _ => rfl⟩
  · have hin : TarfsRead.Inside ⟨fc, off, len⟩ := UInt64.lt_of_le_of_ne ho hend
    have hlt := UInt64.lt_iff_toNat_lt.mp hin
    have hpos := UInt64.lt_iff_toNat_lt.mp hlen
    have hl := hin.toNat_length
    dsimp only at hlt hl
    have hb := hon.length_bytes
    refine ⟨_, hr.trans (TarfsRead.result_on hs hon hin), ?_, take_prefix _ _, ?_⟩
    · rw [length_take]
      omega
    · refine ⟨fun hn => ?_, fun h => absurd h hend⟩
      have := congrArg length hn
      rw [length_take, length_drop, length_nil] at this
      dsimp only at this
      omega

theorem toNat_off_add {off : Int64} {n : ℕ} (h : off.toUInt64.toNat + n < 2 ^ 64) :
    (off + Int64.ofNat n).toUInt64.toNat = off.toUInt64.toNat + n := by
  show (off.toUInt64 + UInt64.ofNat n).toNat = _
  rw [UInt64.toNat_add, UInt64.toNat_ofNat_of_lt' (show _ < 2 ^ 64 by omega)]
  exact Nat.mod_eq_of_lt h

/-- What the loop keeps: the bytes so far are those in front of the offset, and the variant is what
is left of the file. -/
def ReadsBack (image : DiskImage) (fc : TarfsFileContext) (n : ℕ) :
    TarfsMount × ℕ × Int64 × List UInt8 → Prop
  | (tm, _, off, acc) => tm.tmSdev.Serves image ∧
      off.toUInt64.toNat + n = fc.fDsize.toNat ∧
      acc = (fc.bytes image).take off.toUInt64.toNat

/-- **Files read back whole**: calls with any positive lengths, each going on where the last one
ended, come to an end, and what they return is the data of the file, the bytes of the device from
`f_daddr` to `f_daddr + f_dsize`; a call at any offset up to the end returns a prefix of the bytes
from there on, which is empty at the end only. -/
theorem tarfs_reads_back (hs : tm.tmSdev.Serves image) (hon : fc.On image) :
    (∀ lens : ℕ → UInt64, (∀ k, 0 < lens k) →
      tarfsReadWhole tm fc lens = .ok (.ok (fc.bytes image))) ∧
    ∀ (off : Int64) (len : UInt64), 0 < len → off.toUInt64 ≤ fc.fDsize →
      Ensures (tarfsOpFileRead tm ⟨fc, off, len⟩) fun r => ∃ bytes, r.2 = .ok bytes ∧
        bytes <+: (fc.bytes image).drop off.toUInt64.toNat ∧
        (bytes = [] ↔ off.toUInt64 = fc.fDsize) := by
  have hb := hon.length_bytes
  have hsz := fc.dsize_lt
  refine ⟨fun lens hl => ?_, fun off len hlen ho => ?_⟩
  · refine Ensures.eq_ok ?_
    refine Ensures.loop (I := ReadsBack image fc) ?_ ?_ (Nat.lt_succ_self _)
    · rintro n ⟨tm, k, off, -⟩ ⟨hs, hlf, rfl⟩
      have ho : off.toUInt64 ≤ fc.fDsize := UInt64.le_iff_toNat_le.mpr (by omega)
      refine (tarfsOpFileRead_on hs hon (hl k) ho).bind ?_
      rintro ⟨tm', r⟩ ⟨hsd, bytes, rfl, -, hp, hnil⟩
      dsimp only
      split_ifs with hz
      · -- nothing is returned at the end
        have hend := hnil.mp (eq_nil_of_length_eq_zero hz)
        refine .ret ?_
        rw [Sum.elim_inr, hend, ← hb, take_length]
      · have hle := hp.length_le
        rw [length_drop] at hle
        have hn := toNat_off_add (show off.toUInt64.toNat + bytes.length < 2 ^ 64 by omega)
        refine .ret ⟨n - bytes.length, by omega, hsd ▸ hs, by omega, ?_⟩
        rw [hn, take_add, ← prefix_iff_eq_take.mp hp]
    · exact ⟨hs, Nat.zero_add _, rfl⟩
  · refine (tarfsOpFileRead_on hs hon hlen ho).mono ?_
    rintro r ⟨-, bytes, hr, -, hp, hnil⟩
    exact ⟨bytes, hr, hp, hnil⟩

def flatImage : DiskImage where
  bytes := replicate 1536 7
  blocks := by
    rw [length_replicate]
    decide
  addressable := by
    rw [length_replicate]
    decide

def flatDisk : StorageDevice := ⟨512, fun _ => .ok fun _ => 7, exists_pow_512⟩

theorem length_flatImage : flatImage.bytes.length = 1536 := length_replicate

theorem flatDisk_serves : flatDisk.Serves flatImage := by
  refine ⟨by decide, fun off ha ho => ⟨fun _ => 7, rfl, fun i hi => ?_⟩⟩
  have ha : 512 ∣ off.toNat := ha
  have hi : i < 512 := hi
  rw [length_flatImage] at ho
  exact getElem?_replicate_of_lt (by omega)

def shortFile : TarfsFileContext := ⟨512, 600, by decide⟩

theorem shortFile_on : shortFile.On flatImage := by
  refine ⟨by decide, ?_⟩
  rw [length_flatImage]
  decide

theorem bytes_shortFile : shortFile.bytes flatImage = replicate 600 7 := by
  rw [TarfsFileContext.bytes, flatImage, drop_replicate, take_replicate]
  rfl

/-- The file is read 100 bytes at a time. -/
theorem tarfs_reads_back_flat :
    tarfsReadWhole ⟨flatDisk, fun _ => 0, fun _ => 0⟩ ⟨512, 600, by decide⟩ (fun _ => 100) =
      .ok (.ok (replicate 600 7)) := by
  rw [← bytes_shortFile]
  exact (tarfs_reads_back flatDisk_serves shortFile_on).1 _ fun _ => by decide

end Glatt
