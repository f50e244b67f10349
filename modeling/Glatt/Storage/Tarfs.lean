import Glatt.Lib.Transition
import Glatt.Storage.Device

/-!
# Reads from a tar archive

`tarfs_op_file_read` and `tarfs_read_header` of `io/storage/tarfs/tarfs_mount.c`. Both read one
block of the archive into `tm_block`, of which a mount has one, and copy out of it. An open file is
served by a thread of its own, and no lock is held across the two steps.

## Main definitions

* `TarfsMount`, `tarfsOpFileRead`: a mount, and a read of a file
* `TarfsStep`: reads by threads, in their two parts

## Main results

* `tarfs_reads_isolated`: a call returns what the device holds of the file, if no device read comes
  between its own and its copy, except of the same block
-/

namespace Glatt

open Imperative Transition Buffer Function

/-! ## Files -/

def tarHeaderDecodeFrom (fieldval : UInt64) : List UInt8 → Option UInt64
  | [] => some fieldval
  | digit :: field =>
    if digit = 0x20 then some fieldval
    else if digit < 0x30 ∨ 0x39 < digit then none
    else tarHeaderDecodeFrom (fieldval * 8 ||| (digit - 0x30).toUInt64) field

def tarHeaderDecode (field : List UInt8) : Option UInt64 := tarHeaderDecodeFrom 0 field

theorem tarHeaderDecodeFrom_lt {field : List UInt8} {fieldval v : UInt64} {m : ℕ}
    (hval : fieldval.toNat < 2 ^ (m + 1)) (hm : m + 3 * field.length < 63)
    (h : tarHeaderDecodeFrom fieldval field = some v) :
    v.toNat < 2 ^ (m + 3 * field.length + 1) := by
  induction field generalizing fieldval m with
  | nil =>
    cases h
    exact hval
  | cons digit field ih =>
    rw [List.length_cons] at hm
    rw [tarHeaderDecodeFrom] at h
    split_ifs at h with hsp hd
    · cases h
      exact hval.trans_le (Nat.pow_le_pow_right (by decide) (by omega))
    · -- a digit adds three bits; it has four itself, since `8` and `9` pass
      have hs : (fieldval * 8).toNat < 2 ^ (m + 3 + 1) := by
        rw [UInt64.toNat_mul]
        refine (Nat.mod_le _ _).trans_lt ?_
        show fieldval.toNat * 8 < _
        rw [show m + 3 + 1 = m + 1 + 3 by omega, Nat.pow_add]
        omega
      have hl : (digit - 0x30).toUInt64.toNat < 2 ^ (m + 3 + 1) := by
        have h9 : digit.toNat ≤ 0x39 := UInt8.le_iff_toNat_le.mp (by simpa using (not_or.mp hd).2)
        have h0 : 0x30 ≤ digit := by simpa using (not_or.mp hd).1
        have hsub : (digit - 0x30).toNat = digit.toNat - 0x30 := UInt8.toNat_sub_of_le _ _ h0
        have h1 : 2 ^ 4 ≤ 2 ^ (m + 3 + 1) := Nat.pow_le_pow_right (by decide) (by omega)
        rw [UInt8.toNat_toUInt64]
        omega
      have ho := Nat.or_lt_two_pow hs hl
      have hv := ih ho (by omega) h
      rwa [show m + 3 + 3 * field.length = m + 3 * (field.length + 1) by omega] at hv

theorem tarHeaderDecode_lt {field : List UInt8} (hlen : field.length = 12) {v : UInt64}
    (h : tarHeaderDecode field = some v) : v.toNat < 2 ^ 37 := by
  have hv := tarHeaderDecodeFrom_lt (m := 0) (by decide) (by omega) h
  rwa [hlen] at hv

/-- `struct tarfs_file_context`, as far as a read uses it: where the data of the file are on the
device, and their size, the number of a header. -/
structure TarfsFileContext where
  fDaddr : UInt64
  fDsize : UInt64
  dsize_lt : fDsize.toNat < 2 ^ 37

/-- What `tarfs_lookup` fills in for the header that it finds at `offset`: the data follow the
header, and their size is decoded from `th_size`. -/
def TarfsFileContext.ofHeader (header : ℕ → UInt8) (offset : UInt64) : Option TarfsFileContext :=
  match h : tarHeaderDecode (slice header 124 12) with
  | none => none
  | some dsize => some ⟨offset + 512, dsize, tarHeaderDecode_lt length_slice h⟩

/-! ## Reads -/

/-- `struct tarfs_mount`, as far as reads use it: the device, the block, and the header. -/
structure TarfsMount where
  tmSdev : StorageDevice
  tmBlock : ℕ → UInt8
  tmHeader : ℕ → UInt8

/-- `tarfs_read_header`: the header at an offset, and whether it is the end of the archive; the end
is an error to a caller that passes no `eofp`. -/
def tarfsReadHeader (tm : TarfsMount) (offset : UInt64) (eofp : Bool) :
    Outcome (TarfsMount × Except Errno Bool) :=
  if offset % 512 ≠ 0 then pure (tm, .error .invalid)
  else do
    let (block, r) ← storageDeviceRead tm.tmSdev tm.tmBlock 512 offset
    let tm := { tm with tmBlock := block }
    match r with
    | .error e => pure (tm, .error e)
    | .ok () =>
      let tm := { tm with tmHeader := write tm.tmHeader 0 500 tm.tmBlock }
      let magic := slice tm.tmHeader 257 6
      if magic ≠ [0x75, 0x73, 0x74, 0x61, 0x72, 0] then
        if magic = [0, 0, 0, 0, 0, 0] then
          pure (tm, if eofp then .ok true else .error .notFound)
        else pure (tm, .error .invalid)
      else pure (tm, .ok false)

/-- The arguments of a call of `tarfs_op_file_read`. -/
structure TarfsRead where
  fc : TarfsFileContext
  off : Int64
  len : UInt64

namespace TarfsRead

variable (c : TarfsRead)

def offset : UInt32 := (c.off % 512).toUInt64.toUInt32

def address : UInt64 := c.off.toUInt64 - c.offset.toUInt64

def daddr : UInt64 := c.fc.fDaddr + c.address

/-- The number of bytes that fit: as many as asked for, up to the end of the block. -/
def fitting : UInt64 :=
  if c.len < (512 - c.offset).toUInt64 then c.len else (512 - c.offset).toUInt64

/-- The number of bytes that the call returns: those that fit, up to the end of the file. -/
def length : UInt64 :=
  if c.fitting < c.fc.fDsize - c.off.toUInt64 then c.fitting else c.fc.fDsize - c.off.toUInt64

def copy (block : ℕ → UInt8) : List UInt8 := slice block c.offset.toNat c.length.toNat

end TarfsRead

def tarfsOpFileRead (tm : TarfsMount) (c : TarfsRead) :
    Outcome (TarfsMount × Except Errno (List UInt8)) :=
  if c.fc.fDsize < c.off.toUInt64 then pure (tm, .error .invalid)
  else if c.off.toUInt64 = c.fc.fDsize then pure (tm, .ok [])
  else do
    let (block, r) ← storageDeviceRead tm.tmSdev tm.tmBlock 512 c.daddr
    let tm := { tm with tmBlock := block }
    match r with
    | .error e => pure (tm, .error e)
    | .ok () => pure (tm, .ok (c.copy tm.tmBlock))

/-! ## A call alone -/

variable {c : TarfsRead} {tm : TarfsMount}

namespace TarfsRead

def Inside (c : TarfsRead) : Prop := c.off.toUInt64 < c.fc.fDsize

def result (c : TarfsRead) (sdev : StorageDevice) : Except Errno (List UInt8) :=
  if c.fc.fDsize < c.off.toUInt64 then .error .invalid
  else if c.off.toUInt64 = c.fc.fDsize then .ok []
  else (sdev.contents 512 c.daddr).map c.copy

theorem Inside.off_lt (h : c.Inside) : c.off.toUInt64.toNat < 2 ^ 37 :=
  (UInt64.lt_iff_toNat_lt.mp h).trans c.fc.dsize_lt

theorem Inside.toNat_offset (h : c.Inside) : c.offset.toNat = c.off.toUInt64.toNat % 512 := by
  have ho := h.off_lt
  have hr : (c.off % 512).toUInt64.toNat = c.off.toUInt64.toNat % 512 := by
    show (c.off.toBitVec.srem 512#64).toNat = _
    rw [BitVec.srem_eq, BitVec.msb_eq_false_iff_two_mul_lt.mpr]
    · rfl
    · show 2 * c.off.toUInt64.toNat < _
      omega
  rw [offset, UInt64.toNat_toUInt32]
  omega

theorem Inside.copy_le (h : c.Inside) : c.offset.toNat + c.length.toNat ≤ 512 := by
  have ho := h.toNat_offset
  have hf : c.length ≤ c.fitting := by
    rw [length]
    split_ifs with hlt
    · exact UInt64.le_refl _
    · exact UInt64.not_lt.mp hlt
  have hle : c.fitting ≤ (512 - c.offset).toUInt64 := by
    rw [fitting]
    split_ifs with hlt
    · exact UInt64.le_of_lt hlt
    · exact UInt64.le_refl _
  rw [UInt64.le_iff_toNat_le] at hf
  rw [UInt64.le_iff_toNat_le, UInt32.toNat_toUInt64, UInt32.toNat_sub_of_le] at hle
  · have h5 : (512 : UInt32).toNat = 512 := rfl
    omega
  · rw [UInt32.le_iff_toNat_le]
    show _ ≤ 512
    omega

theorem Inside.copy_congr (h : c.Inside) {block block' : ℕ → UInt8}
    (hb : ∀ i < 512, block i = block' i) : c.copy block = c.copy block' := by
  have hle := h.copy_le
  exact slice_congr fun i hi => hb _ (by omega)

end TarfsRead

theorem storageDeviceRead_block {sdev : StorageDevice} {block : ℕ → UInt8} {daddr : UInt64} :
    Ensures (storageDeviceRead sdev block 512 daddr) fun r =>
      (∃ e, r.2 = .error e ∧ sdev.contents 512 daddr = .error e) ∨
        r.2 = .ok () ∧ ∃ cont, sdev.contents 512 daddr = .ok cont ∧ ∀ i < 512, r.1 i = cont i := by
  refine storageDeviceRead_spec.mono ?_
  rintro ⟨block', r⟩ ⟨rfl, hb⟩
  cases hc : sdev.contents 512 daddr with
  | error e => exact Or.inl ⟨e, rfl, rfl⟩
  | ok cont =>
    refine Or.inr ⟨rfl, cont, rfl, fun i hi => ?_⟩
    rw [hb cont hc]
    exact write_apply_of_lt i.zero_le (by rw [Nat.zero_add]; exact hi)

theorem tarfsOpFileRead_spec :
    Ensures (tarfsOpFileRead tm c) fun r => r.2 = c.result tm.tmSdev := by
  rw [tarfsOpFileRead, TarfsRead.result]
  split_ifs with hp hend
  · exact .ret rfl
  · exact .ret rfl
  · have hin : c.Inside := UInt64.lt_of_le_of_ne (UInt64.not_lt.mp hp) hend
    refine storageDeviceRead_block.bind ?_
    rintro ⟨block, r⟩ (⟨e, rfl, hc⟩ | ⟨rfl, cont, hc, hb⟩)
    · rw [hc]
      exact .ret rfl
    · rw [hc]
      exact .ret (congrArg Except.ok (hin.copy_congr hb))

theorem TarfsRead.result_bytes {sdev : StorageDevice} {bytes : List UInt8}
    (h : c.result sdev = .ok bytes) (i : ℕ) (hi : i < bytes.length) :
    sdev.byteAt (c.fc.fDaddr + c.off.toUInt64 + UInt64.ofNat i) = .ok bytes[i] := by
  rw [result] at h
  split_ifs at h with hp hend
  · cases h
    cases hi
  · have hin : c.Inside := UInt64.lt_of_le_of_ne (UInt64.not_lt.mp hp) hend
    cases hc : sdev.contents 512 c.daddr with
    | error e =>
      rw [hc] at h
      cases h
    | ok cont =>
      rw [hc] at h
      cases h
      rw [copy, length_slice] at hi
      have hle := hin.copy_le
      have hb := contents_apply hc (i := c.offset.toNat + i) (show _ < 512 by omega)
      have ha : c.daddr + UInt64.ofNat (c.offset.toNat + i) =
          c.fc.fDaddr + c.off.toUInt64 + UInt64.ofNat i := by
        have ho : UInt64.ofNat c.offset.toNat = c.offset.toUInt64 := UInt64.toNat_inj.mp (by simp)
        rw [UInt64.ofNat_add, ← UInt64.add_assoc, ho, daddr, address,
          UInt64.add_assoc c.fc.fDaddr, UInt64.sub_add_cancel]
      rw [ha] at hb
      simpa only [copy, getElem_slice] using hb

/-! ## Calls at the same time -/

variable {τ : Type} [DecidableEq τ]

/-- Where a thread is in its call of `tarfs_op_file_read`: before the device read, between it and
the copy, or back with a result. -/
inductive ReadPhase
  | idle
  | called (c : TarfsRead)
  | filled (c : TarfsRead)
  | returned (c : TarfsRead) (r : Except Errno (List UInt8))

def ReadPhase.Free : ReadPhase → Prop
  | idle => True
  | called _ => False
  | filled _ => False
  | returned _ _ => True

def TarfsRead.enter (c : TarfsRead) : ReadPhase :=
  if c.fc.fDsize < c.off.toUInt64 then .returned c (.error .invalid)
  else if c.off.toUInt64 = c.fc.fDsize then .returned c (.ok [])
  else .called c

def TarfsRead.afterFill (c : TarfsRead) : Except Errno Unit → ReadPhase
  | .ok () => .filled c
  | .error e => .returned c (.error e)

/-- The mount, and the threads that read its files. -/
structure TarfsState (τ : Type) where
  mount : TarfsMount
  phase : τ → ReadPhase

/-- The steps of the threads: a call and its checks, the device read into the block, the copy out of
the block, and the read of a header by a lookup or a directory read. -/
inductive TarfsEvent (τ : Type)
  | call (t : τ) (c : TarfsRead)
  | fill (t : τ)
  | copy (t : τ)
  | header (offset : UInt64) (eofp : Bool)

/-- The steps of the threads of a mount, in any order. -/
inductive TarfsStep : TarfsState τ → TarfsEvent τ → TarfsState τ → Prop
  | call {s t c} (hfree : (s.phase t).Free) :
      TarfsStep s (.call t c) { s with phase := update s.phase t c.enter }
  | fill {s t c b r} (hphase : s.phase t = .called c)
      (hread : storageDeviceRead s.mount.tmSdev s.mount.tmBlock 512 c.daddr = .ok (b, r)) :
      TarfsStep s (.fill t) { mount := { s.mount with tmBlock := b },
                              phase := update s.phase t (c.afterFill r) }
  | copy {s t c} (hphase : s.phase t = .filled c) :
      TarfsStep s (.copy t) { s with
        phase := update s.phase t (.returned c (.ok (c.copy s.mount.tmBlock))) }
  | header {s o e m r} (hread : tarfsReadHeader s.mount o e = .ok (m, r)) :
      TarfsStep s (.header o e) { s with mount := m }

def startTarfs (tm : TarfsMount) : TarfsState τ := ⟨tm, fun _ => .idle⟩

def TarfsEvent.reads (s : TarfsState τ) : TarfsEvent τ → Option UInt64
  | .call _ _ => none
  | .fill t =>
    match s.phase t with
    | .called c => some c.daddr
    | _ => none
  | .copy _ => none
  | .header offset _ => some offset

/-- The step does not read the device while a call is between its device read and its copy, except
where that call read. -/
def Undisturbed (s : TarfsState τ) (e : TarfsEvent τ) : Prop :=
  ∀ a, e.reads s = some a → ∀ t c, s.phase t = .filled c → a = c.daddr

def TarfsMount.Holds (tm : TarfsMount) (daddr : UInt64) : Prop :=
  ∃ cont, tm.tmSdev.contents 512 daddr = .ok cont ∧ ∀ i < 512, tm.tmBlock i = cont i

/-- What every phase of a call says: a call in progress is inside its file, the block holds what a
call has read, and what a call has returned is the result it has alone. -/
def ReadPhase.Sound (tm : TarfsMount) : ReadPhase → Prop
  | idle => True
  | called c => c.Inside
  | filled c => c.Inside ∧ tm.Holds c.daddr
  | returned c r => r = c.result tm.tmSdev

/-- The device stays, and every call is sound. -/
structure TarfsSound (sdev : StorageDevice) (s : TarfsState τ) : Prop where
  sdev : s.mount.tmSdev = sdev
  phase : ∀ t, (s.phase t).Sound s.mount

theorem TarfsMount.Holds.refill {daddr : UInt64} (h : tm.Holds daddr) {block : ℕ → UInt8}
    {r : Except Errno Unit}
    (hr : storageDeviceRead tm.tmSdev tm.tmBlock 512 daddr = .ok (block, r)) :
    { tm with tmBlock := block }.Holds daddr := by
  obtain ⟨cont, hc, -⟩ := h
  obtain ⟨e, -, he⟩ | ⟨-, cont', hc', hb⟩ := storageDeviceRead_block.yields _ hr
  · rw [hc] at he
    cases he
  · exact ⟨cont', hc', hb⟩

theorem tarfsReadHeader_holds {offset : UInt64} {eofp : Bool} :
    Yields (tarfsReadHeader tm offset eofp) fun r =>
      r.1.tmSdev = tm.tmSdev ∧ (tm.Holds offset → r.1.Holds offset) := by
  rw [tarfsReadHeader]
  by_cases ha : offset % 512 ≠ 0
  · rw [if_pos ha]
    exact .ret ⟨rfl, id⟩
  · rw [if_neg ha]
    intro x hx
    obtain ⟨⟨block, r⟩, hr, hx⟩ := bind_eq_ok.mp hx
    have hh : tm.Holds offset → { tm with tmBlock := block }.Holds offset := fun h => h.refill hr
    cases r with
    | error e =>
      cases hx
      exact ⟨rfl, hh⟩
    | ok u =>
      dsimp only at hx
      split_ifs at hx <;> cases hx <;> exact ⟨rfl, hh⟩

omit [DecidableEq τ] in
theorem ReadPhase.Sound.frame {p : ReadPhase} {tm' : TarfsMount} (h : p.Sound tm)
    (hs : tm'.tmSdev = tm.tmSdev) (hb : ∀ c, p = .filled c → tm'.Holds c.daddr) :
    p.Sound tm' := by
  cases p with
  | idle => trivial
  | called c => exact h
  | filled c => exact ⟨h.1, hb c rfl⟩
  | returned c r => exact h.trans (congrArg c.result hs.symm)

theorem TarfsSound.update {sdev : StorageDevice} {s : TarfsState τ} (h : TarfsSound sdev s) {t : τ}
    {p : ReadPhase} {tm' : TarfsMount} (hs : tm'.tmSdev = s.mount.tmSdev) (hp : p.Sound tm')
    (hb : ∀ u c, s.phase u = .filled c → tm'.Holds c.daddr) :
    TarfsSound sdev { mount := tm', phase := update s.phase t p } := by
  refine ⟨hs.trans h.sdev, fun u => ?_⟩
  rcases eq_or_ne u t with rfl | hne
  · exact (congrArg (ReadPhase.Sound tm') (update_self ..)).mpr hp
  · refine (congrArg (ReadPhase.Sound tm') (update_of_ne hne ..)).mpr ?_
    exact (h.phase u).frame hs (hb u)

omit [DecidableEq τ] in
theorem TarfsSound.holds {sdev : StorageDevice} {s : TarfsState τ} (h : TarfsSound sdev s) {u : τ}
    (hp : s.phase u = .filled c) : c.Inside ∧ s.mount.Holds c.daddr := by
  have hu := h.phase u
  rw [hp] at hu
  exact hu

theorem TarfsSound.step {sdev : StorageDevice} {s s' : TarfsState τ} {e : TarfsEvent τ}
    (h : TarfsSound sdev s) (hun : Undisturbed s e) (hs : TarfsStep s e s') :
    TarfsSound sdev s' := by
  cases hs with
  | @call t c hf =>
    refine h.update rfl ?_ fun u c' hu => (h.holds hu).2
    rw [TarfsRead.enter]
    split_ifs with hps hend
    · exact (if_pos hps).symm
    · exact ((if_neg hps).trans (if_pos hend)).symm
    · exact UInt64.lt_of_le_of_ne (UInt64.not_lt.mp hps) hend
  | @fill t c b r hp hr =>
    have hin : c.Inside := by
      have ht := h.phase t
      rwa [hp] at ht
    refine h.update rfl ?_ fun u c' hu => ?_
    · have hrs : c.result s.mount.tmSdev = (s.mount.tmSdev.contents 512 c.daddr).map c.copy :=
        (if_neg (UInt64.not_lt.mpr (UInt64.le_of_lt hin))).trans (if_neg (UInt64.ne_of_lt hin))
      obtain ⟨e, rfl, he⟩ | ⟨rfl, cont, hc, hb⟩ := storageDeviceRead_block.yields _ hr
      · show Except.error e = c.result s.mount.tmSdev
        rw [hrs, he]
        rfl
      · exact ⟨hin, cont, hc, hb⟩
    · -- another call is past its device read: then this one reads the same block
      have hsm : c.daddr = c'.daddr := hun c.daddr (by simp only [TarfsEvent.reads, hp]) u c' hu
      have hh := (h.holds hu).2
      rw [← hsm] at hh ⊢
      exact hh.refill hr
  | @copy t c hp =>
    obtain ⟨hin, cont, hc, hb⟩ := h.holds hp
    refine h.update rfl ?_ fun u c' hu => (h.holds hu).2
    show Except.ok _ = c.result s.mount.tmSdev
    rw [TarfsRead.result, if_neg (UInt64.not_lt.mpr (UInt64.le_of_lt hin)),
      if_neg (UInt64.ne_of_lt hin), hc]
    exact congrArg Except.ok (hin.copy_congr hb)
  | @header o eofp m r hr =>
    obtain ⟨hsd, hh⟩ := tarfsReadHeader_holds _ hr
    refine ⟨hsd.trans h.sdev, fun u => (h.phase u).frame hsd fun c hu => ?_⟩
    obtain rfl : o = c.daddr := hun o rfl u c hu
    exact hh (h.holds hu).2

def numberedDisk : StorageDevice := ⟨512, fun a => .ok fun _ => (a / 512).toUInt8, exists_pow_512⟩

def numberedMount : TarfsMount := ⟨numberedDisk, fun _ => 0, fun _ => 0⟩

def readAt (block : UInt64) : TarfsRead := ⟨⟨512 * block, 2, by decide⟩, 0, 2⟩

/-- **Reads at the same time are isolated**, if no device read of another block comes between the
device read and the copy of a call: whatever the order of their steps, every call returns what it
returns alone, and that is bytes of its own file from its own offset on. -/
theorem tarfs_reads_isolated {h : List (TarfsState τ × TarfsEvent τ)} {s : TarfsState τ}
    (hr : Run TarfsStep (startTarfs tm) h s) (hundisturbed : ∀ e ∈ h, Undisturbed e.1 e.2) {t : τ}
    {r : Except Errno (List UInt8)} (hreturned : s.phase t = .returned c r) :
    (∃ tm', tarfsOpFileRead tm c = .ok (tm', r)) ∧
      ∀ bytes, r = .ok bytes → ∀ i (hi : i < bytes.length),
        tm.tmSdev.byteAt (c.fc.fDaddr + c.off.toUInt64 + UInt64.ofNat i) = .ok bytes[i] := by
  have hst : TarfsSound (τ := τ) tm.tmSdev (startTarfs tm) := ⟨rfl, fun _ => trivial⟩
  have hs := Run.invariant_of_forall hst (fun _ _ _ => TarfsSound.step) hr hundisturbed
  have hrs : r = c.result tm.tmSdev := by
    have ht := hs.phase t
    rw [hreturned] at ht
    exact ht.trans (congrArg c.result hs.sdev)
  constructor
  · obtain ⟨⟨tm', r'⟩, hc, hr'⟩ : Ensures (tarfsOpFileRead tm c) fun r => r.2 = _ :=
      tarfsOpFileRead_spec
    exact ⟨tm', hc.trans (by rw [hrs, ← hr'])⟩
  · rintro bytes rfl
    exact TarfsRead.result_bytes hrs.symm

/-- Two calls at the same time, the copy of the first before the device read of the second. -/
theorem tarfs_reads_isolated_turns : ∃ h s,
    Run TarfsStep (startTarfs numberedMount : TarfsState Bool) h s ∧
      (∀ e ∈ h, Undisturbed e.1 e.2) ∧ s.phase false = .returned (readAt 1) (.ok [1, 1]) ∧
      ∃ tm', tarfsOpFileRead numberedMount (readAt 1) = .ok (tm', .ok [1, 1]) := by
  have h₁ : Run (fun s a s' => TarfsStep s a s' ∧ Undisturbed s a)
      (startTarfs numberedMount : TarfsState Bool) _ _ :=
    Run.nil.snoc ⟨.call (t := false) (c := readAt 1) trivial, nofun⟩
  have h₂ := h₁.snoc ⟨.call (t := true) (c := readAt 3) trivial, nofun⟩
  have h₃ := h₂.snoc ⟨.fill (t := false) rfl rfl, fun _ _ t _ hc => by cases t <;> cases hc⟩
  have h₄ := h₃.snoc ⟨.copy (t := false) rfl, nofun⟩
  have h₅ := h₄.snoc ⟨.fill (t := true) rfl rfl, fun _ _ t _ hc => by cases t <;> cases hc⟩
  have h₆ := h₅.snoc ⟨.copy (t := true) rfl, nofun⟩
  obtain ⟨h, s, ⟨hr, hu⟩, hrt⟩ : ∃ h s,
      (Run TarfsStep (startTarfs numberedMount : TarfsState Bool) h s ∧
        ∀ e ∈ h, Undisturbed e.1 e.2) ∧ s.phase false = .returned (readAt 1) (.ok [1, 1]) :=
    ⟨_, _, h₆.of_and, rfl⟩
  exact ⟨h, s, hr, hu, hrt, (tarfs_reads_isolated hr hu hrt).1⟩

/-- The device reads of two calls, one after the other, and then their copies. -/
theorem tarfs_reads_mixed : ∃ h s,
    Run TarfsStep (startTarfs numberedMount : TarfsState Bool) h s ∧
      s.phase false = .returned (readAt 1) (.ok [3, 3]) ∧
      s.phase true = .returned (readAt 3) (.ok [3, 3]) ∧
      ∃ tm', tarfsOpFileRead numberedMount (readAt 1) = .ok (tm', .ok [1, 1]) := by
  have h₁ : Run TarfsStep (startTarfs numberedMount : TarfsState Bool) _ _ :=
    Run.nil.snoc (TarfsStep.call (t := false) (c := readAt 1) trivial)
  have h₂ := h₁.snoc (TarfsStep.call (t := true) (c := readAt 3) trivial)
  have h₃ := h₂.snoc (TarfsStep.fill (t := false) rfl rfl)
  have h₄ := h₃.snoc (TarfsStep.fill (t := true) rfl rfl)
  have h₅ := h₄.snoc (TarfsStep.copy (t := false) rfl)
  have h₆ := h₅.snoc (TarfsStep.copy (t := true) rfl)
  exact ⟨_, _, h₆, rfl, rfl, _, rfl⟩

end Glatt
