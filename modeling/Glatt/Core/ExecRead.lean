import Glatt.Core.Exec
import Glatt.Storage.TarfsRead
import Glatt.Storage.UfsDirectory

/-!
# Reads of the program loader

`exec_read` over the files of the two file systems. Both answer a read at the end of a file with
success and no bytes, which `exec_read` takes for one more short read. So a request that goes beyond
the end of a file from a place in it is repeated for ever, unless a block on the way cannot be read,
and the others come to an end.

## Main definitions

* `FileReader.Reads`: a file of one of the two file systems
* `ReadsRight`: a call that returns what it should

## Main results

* `exec_read_right_iff`: the calls of `exec_read` that are right
-/

namespace Glatt

open Imperative Buffer List

/-! ## Files -/

/-- **A file with its data**: a read in the file gives some of the bytes that follow, if what it
touches there is at hand, at the end nothing, and beyond the end an error. -/
structure FileReader.Serves (f : FileReader) (file : List UInt8)
    (touch : ℕ → Outcome (Except Errno Unit)) : Prop where
  size : file.length < 2 ^ 64
  inside : ∀ off len, off.toUInt64.toNat < file.length → len < 2 ^ 64 →
    touch off.toUInt64.toNat = .ok (.ok ()) → ∃ bytes, f.read off len = .ok (.ok bytes) ∧
      bytes <+: file.drop off.toUInt64.toNat ∧ (bytes = [] → len = 0) ∧
      ∀ i < bytes.length, touch (off.toUInt64.toNat + i) = .ok (.ok ())
  refused : ∀ off len, off.toUInt64.toNat < file.length →
    touch off.toUInt64.toNat ≠ .ok (.ok ()) →
      f.read off len = (touch off.toUInt64.toNat).map fun r => r.map fun _ => []
  atEnd : ∀ off len, off.toUInt64.toNat = file.length → f.read off len = .ok (.ok [])
  past : ∀ off len, file.length < off.toUInt64.toNat → ∃ e, f.read off len = .ok (.error e)

theorem ufsOpFileRead_length (um : UfsVolume) (fc : UfsFileContext) (off : Int64) (len : UInt64)
    (iblock : ℕ → UInt8) : Yields (ufsOpFileRead um fc off len iblock) fun r =>
      ∀ bytes, r.2 = .ok bytes → bytes.length ≤ len.toNat := by
  rw [ufsOpFileRead]
  dsimp only
  split
  · exact .ret nofun
  split
  · refine .ret ?_
    rintro _ ⟨⟩
    exact Nat.zero_le _
  refine yields_bind_of_forall ?_
  rintro ⟨⟨iblock', block⟩, r⟩
  cases r with
  | error e => exact .ret nofun
  | ok _ =>
    refine .ret ?_
    rintro _ ⟨⟩
    rw [length_slice, toNat_min, toNat_min]
    omega

/-- A file of a UFS volume: what `ufs_op_file_read` returns. The buffers do not matter to it
(`ufsOpFileRead_eq`). -/
def ufsReader (um : UfsVolume) (inode : Ufs2Inode) : FileReader where
  read off len :=
    (ufsOpFileRead um ⟨inode, fun _ => 0⟩ off (UInt64.ofNat len) fun _ => 0).map Prod.snd
  length_le off len bytes h := by
    have hl := ufsOpFileRead_length um ⟨inode, fun _ => 0⟩ off (UInt64.ofNat len) fun _ => 0
    cases hc : ufsOpFileRead um ⟨inode, fun _ => 0⟩ off (UInt64.ofNat len) fun _ => 0 with
    | error e =>
      rw [hc] at h
      cases h
    | ok p =>
      rw [hc] at h
      refine (hl p hc bytes (Except.ok.inj h)).trans ?_
      rw [UInt64.toNat_ofNat']
      exact Nat.mod_le _ _

/-- What a UFS volume has of a file at an offset: in a block that `ufs_map_block` reaches, those
bytes from there on that are wanted and in the block. -/
def UfsVolume.readAt (um : UfsVolume) (inode : Ufs2Inode) (off : UInt64) (len : ℕ) :
    Except Errno (List UInt8) :=
  if inode.inSize < off then .error .invalid
  else if off = inode.inSize then .ok []
  else (um.fileBlock inode off).map fun block => slice block (off % um.bsize).toNat
    (min (min len (um.bsize.toNat - (off % um.bsize).toNat)) (inode.inSize.toNat - off.toNat))

/-- What a read at an offset in the file comes to, apart from its bytes: a panic beyond the reach of
`ufs_map_block`, or the error of a block that is missing or cannot be read. -/
def UfsVolume.touch (um : UfsVolume) (inode : Ufs2Inode) (x : ℕ) : Outcome (Except Errno Unit) :=
  if x / um.bsize.toNat < 12 + um.pointers then
    .ok ((um.blockNumber inode (x / um.bsize.toNat) >>= um.fsBlock).map fun _ => ())
  else .error .panic

/-- The data of a file of a UFS volume, as far as the volume has it. -/
structure UfsVolume.Stores (um : UfsVolume) (inode : Ufs2Inode) (file : List UInt8) : Prop where
  size : inode.inSize.toNat = file.length
  bytes : ∀ off < inode.inSize, ∀ block, um.fileBlock inode off = .ok block →
    file[off.toNat]? = some (block (off.toNat % um.bsize.toNat))

/-- The data of a file of a UFS volume, in blocks within the reach of `ufs_map_block`. -/
structure UfsVolume.Holds (um : UfsVolume) (inode : Ufs2Inode) (file : List UInt8) : Prop where
  size : inode.inSize.toNat = file.length
  near : ∀ off < inode.inSize, um.Near off
  bytes : ∀ off < inode.inSize, ∃ block, um.fileBlock inode off = .ok block ∧
    file[off.toNat]? = some (block (off.toNat % um.bsize.toNat))

theorem UfsVolume.Holds.stores {um : UfsVolume} {inode : Ufs2Inode} {file : List UInt8}
    (h : um.Holds inode file) : um.Stores inode file := by
  refine ⟨h.size, fun off ho block hb => ?_⟩
  obtain ⟨block', hb', hby⟩ := h.bytes off ho
  obtain rfl := Except.ok.inj (hb.symm.trans hb')
  exact hby

variable {um : UfsVolume} {fc : UfsFileContext} {off : Int64} {iblock : ℕ → UInt8}

theorem UfsVolume.toNat_address (um : UfsVolume) (ho : off.toUInt64.toNat < 2 ^ 63) :
    ((off >>> (sext um.umSb.sbBshift).toInt64) <<<
      (sext um.umSb.sbBshift).toInt64).toUInt64.toNat =
        off.toUInt64.toNat / um.bsize.toNat * um.bsize.toNat := by
  have hb := um.toNat_lblock ho
  rw [show off.toUInt64.toInt64 = off from rfl] at hb
  have hm := Nat.div_mul_le_self off.toUInt64.toNat um.bsize.toNat
  have ha : ((sext um.umSb.sbBshift).toBitVec.smod 64#64).toNat = _ := toNat_smod um.bshift_le
  generalize off >>> (sext um.umSb.sbBshift).toInt64 = q at hb
  have hs : (q <<< (sext um.umSb.sbBshift).toInt64).toUInt64.toNat =
      q.toUInt64.toNat * um.bsize.toNat := by
    show (q.toBitVec <<< ((sext um.umSb.sbBshift).toBitVec.smod 64#64)).toNat = _
    rw [BitVec.shiftLeft_eq', ha, BitVec.toNat_shiftLeft, Nat.shiftLeft_eq, um.toNat_bsize,
      Nat.mod_eq_of_lt]
    · rfl
    · rw [um.toNat_bsize] at hb hm
      show q.toUInt64.toNat * _ < _
      rw [hb]
      omega
  rw [hs, hb]

theorem ufsOpFileRead_spec (hn : off.toUInt64 < fc.fIn.inSize → um.Near off.toUInt64)
    {len : UInt64} :
    Ensures (ufsOpFileRead um fc off len iblock) fun r =>
      r.1.2.fIn = fc.fIn ∧ r.2 = um.readAt fc.fIn off.toUInt64 len.toNat := by
  rw [ufsOpFileRead, UfsVolume.readAt]
  dsimp only
  by_cases hp : fc.fIn.inSize < off.toUInt64
  · rw [if_pos hp, if_pos hp]
    exact .ret ⟨rfl, rfl⟩
  by_cases hend : off.toUInt64 = fc.fIn.inSize
  · rw [if_neg hp, if_neg hp, if_pos hend, if_pos hend]
    exact .ret ⟨rfl, rfl⟩
  · rw [if_neg hp, if_neg hp, if_neg hend, if_neg hend]
    have hin := UInt64.lt_of_le_of_ne (UInt64.not_lt.mp hp) hend
    have ha := um.toNat_address (hn hin).off_lt
    generalize ((off >>> _) <<< _).toUInt64 = address at ha
    have hd : address.toNat / um.bsize.toNat = off.toUInt64.toNat / um.bsize.toNat := by
      rw [ha, Nat.mul_div_cancel _ um.bsize_pos]
    have hf : um.fileBlock fc.fIn address = um.fileBlock fc.fIn off.toUInt64 := by
      rw [UfsVolume.fileBlock, hd]
      rfl
    refine (ufsReadBlock_spec (hd.trans_lt (hn hin))).bind ?_
    rintro ⟨⟨iblock', block⟩, r⟩ ⟨rfl, hb⟩
    rw [hf] at hb ⊢
    cases hc : um.fileBlock fc.fIn off.toUInt64 with
    | error e => exact .ret ⟨rfl, rfl⟩
    | ok cont =>
      refine .ret ⟨rfl, congrArg Except.ok ?_⟩
      have hm : (off.toUInt64 % um.bsize).toNat < um.bsize.toNat := Nat.mod_lt _ um.bsize_pos
      have ho := um.toNat_offset off.toUInt64
      have hr : (um.bsize - (off.toUInt64 % um.bsize).toUInt32.toUInt64).toNat =
          um.bsize.toNat - (off.toUInt64 % um.bsize).toNat := by
        rw [UInt64.toNat_sub_of_le, UInt32.toNat_toUInt64, ho]
        rw [UInt64.le_iff_toNat_le, UInt32.toNat_toUInt64, ho]
        exact hm.le
      have hl : (fc.fIn.inSize - off.toUInt64).toNat = fc.fIn.inSize.toNat - off.toUInt64.toNat :=
        UInt64.toNat_sub_of_le _ _ (UInt64.le_of_lt hin)
      rw [ho, ← hr, ← hl, ← toNat_min, ← toNat_min]
      refine slice_congr fun i hi => hb cont hc _ ?_
      rw [toNat_min, toNat_min] at hi
      omega

theorem ufsOpFileRead_far (h8 : 8 ≤ um.bsize.toNat) (hs : fc.fIn.inSize.toNat < 2 ^ 63)
    (hin : off.toUInt64 < fc.fIn.inSize) (hn : ¬ um.Near off.toUInt64) {len : UInt64} :
    ufsOpFileRead um fc off len iblock = .error .panic := by
  have ho := (UInt64.lt_iff_toNat_lt.mp hin).trans hs
  have ha := um.toNat_address ho
  rw [ufsOpFileRead]
  dsimp only
  rw [if_neg (UInt64.lt_asymm hin), if_neg (UInt64.ne_of_lt hin)]
  generalize ((off >>> _) <<< _).toUInt64 = address at ha
  have hm := Nat.div_mul_le_self off.toUInt64.toNat um.bsize.toNat
  have hf : ¬ um.Near address := by
    rwa [UfsVolume.Near, ha, Nat.mul_div_cancel _ um.bsize_pos]
  rw [ufsReadBlock, ufsMapBlock_far h8 (by omega) hf]
  rfl

theorem UfsVolume.touch_near {inode : Ufs2Inode} {x : UInt64} (h : um.Near x) :
    um.touch inode x.toNat = .ok ((um.fileBlock inode x).map fun _ => ()) := if_pos h

theorem ufsOpFileRead_eq (h8 : 8 ≤ um.bsize.toNat) (hs : fc.fIn.inSize.toNat < 2 ^ 63)
    (len : UInt64) : (ufsOpFileRead um fc off len iblock).map Prod.snd =
      if off.toUInt64 < fc.fIn.inSize then (um.touch fc.fIn off.toUInt64.toNat).map fun _ =>
        um.readAt fc.fIn off.toUInt64 len.toNat
      else .ok (um.readAt fc.fIn off.toUInt64 len.toNat) := by
  by_cases hf : off.toUInt64 < fc.fIn.inSize ∧ ¬ um.Near off.toUInt64
  · have ht : um.touch fc.fIn off.toUInt64.toNat = .error .panic := if_neg hf.2
    rw [ufsOpFileRead_far h8 hs hf.1 hf.2, if_pos hf.1, ht]
    rfl
  · have hn : off.toUInt64 < fc.fIn.inSize → um.Near off.toUInt64 := fun hin =>
      not_not.mp fun h => hf ⟨hin, h⟩
    obtain ⟨p, hp, -, hr⟩ : Ensures (ufsOpFileRead um fc off len iblock) _ := ufsOpFileRead_spec hn
    rw [hp]
    split_ifs with hin
    · rw [UfsVolume.touch_near (hn hin)]
      exact congrArg Except.ok hr
    · exact congrArg Except.ok hr

theorem UfsVolume.div_mod_add (um : UfsVolume) {x i : ℕ}
    (h : x % um.bsize.toNat + i < um.bsize.toNat) :
    (x + i) / um.bsize.toNat = x / um.bsize.toNat ∧
      (x + i) % um.bsize.toNat = x % um.bsize.toNat + i := by
  have hd := Nat.div_add_mod x um.bsize.toNat
  exact (Nat.div_mod_unique um.bsize_pos).mpr ⟨by omega, h⟩

section Ufs

variable {inode : Ufs2Inode} {file : List UInt8} (h : um.Stores inode file)
include h

theorem UfsVolume.Stores.readAt {off : UInt64} (hin : off < inode.inSize) {block : ℕ → UInt8}
    (hb : um.fileBlock inode off = .ok block) (len : ℕ) :
    ∃ bytes, um.readAt inode off len = .ok bytes ∧ bytes <+: file.drop off.toNat ∧
      bytes.length ≤ len ∧ (bytes = [] → len = 0) ∧
      off.toNat % um.bsize.toNat + bytes.length ≤ um.bsize.toNat := by
  have hm : off.toNat % um.bsize.toNat < um.bsize.toNat := Nat.mod_lt _ um.bsize_pos
  have hlt := UInt64.lt_iff_toNat_lt.mp hin
  have hsz := h.size
  rw [UfsVolume.readAt, if_neg (UInt64.lt_asymm hin), if_neg (UInt64.ne_of_lt hin), hb,
    UInt64.toNat_mod]
  refine ⟨_, rfl, ?_, ?_, fun hnil => ?_, ?_⟩
  · refine prefix_iff_eq_take.mpr (ext_getElem? fun i => ?_)
    rw [length_slice, getElem?_take, getElem?_drop]
    split_ifs with hi
    · -- the byte is in the same block
      have hn : (off + UInt64.ofNat i).toNat = off.toNat + i := by
        have := inode.inSize.toNat_lt
        rw [UInt64.toNat_add, UInt64.toNat_ofNat_of_lt' (show _ < 2 ^ 64 by omega)]
        omega
      have hs := um.div_mod_add (x := off.toNat) (i := i) (by omega)
      have hb' : um.fileBlock inode (off + UInt64.ofNat i) = .ok block := by
        rw [fileBlock, hn, hs.1]
        exact hb
      have hby := h.bytes (off + UInt64.ofNat i)
        (UInt64.lt_iff_toNat_lt.mpr (by omega)) block hb'
      rw [hn, hs.2] at hby
      rw [hby, getElem?_eq_getElem (by rw [length_slice]; omega), getElem_slice]
    · exact getElem?_eq_none (by rw [length_slice]; omega)
  · rw [length_slice]
    omega
  · have := congrArg length hnil
    rw [length_slice, length_nil] at this
    omega
  · rw [length_slice]
    omega

theorem UfsVolume.Stores.serves (h8 : 8 ≤ um.bsize.toNat) (hs : file.length < 2 ^ 63) :
    (ufsReader um inode).Serves file (um.touch inode) := by
  have hlt (x : UInt64) : x < inode.inSize ↔ x.toNat < file.length := by
    rw [UInt64.lt_iff_toNat_lt, h.size]
  have hrd (off : Int64) (len : ℕ) : (ufsReader um inode).read off len = _ :=
    ufsOpFileRead_eq h8 (h.size ▸ hs) (UInt64.ofNat len)
  refine ⟨by omega, fun off len ho hl ht => ?_, fun off len ho ht => ?_, fun off len ho => ?_,
    fun off len ho => ?_⟩
  · rw [hrd, if_pos ((hlt _).mpr ho), ht]
    have hn : um.Near off.toUInt64 := by
      by_contra hn
      cases ht.symm.trans (if_neg hn)
    have ht₀ := ht
    rw [UfsVolume.touch_near hn] at ht
    obtain ⟨block, hb⟩ : ∃ block, um.fileBlock inode off.toUInt64 = .ok block := by
      cases hb : um.fileBlock inode off.toUInt64 with
      | ok block => exact ⟨block, rfl⟩
      | error e =>
        rw [hb] at ht
        cases ht
    obtain ⟨bytes, hr, hp, -, hnil, hle⟩ := h.readAt ((hlt _).mpr ho) hb (UInt64.ofNat len).toNat
    rw [UInt64.toNat_ofNat_of_lt' hl] at hr hnil
    refine ⟨bytes, ?_, hp, hnil, fun i hi => ?_⟩
    · rw [UInt64.toNat_ofNat_of_lt' hl]
      exact congrArg Except.ok hr
    · rw [← ht₀, UfsVolume.touch, UfsVolume.touch, (um.div_mod_add (by omega)).1]
  · rw [hrd, if_pos ((hlt _).mpr ho)]
    by_cases hn : um.Near off.toUInt64
    · rw [UfsVolume.touch_near hn] at ht ⊢
      cases hb : um.fileBlock inode off.toUInt64 with
      | ok block =>
        rw [hb] at ht
        exact absurd rfl ht
      | error e =>
        rw [UfsVolume.readAt, if_neg (UInt64.lt_asymm ((hlt _).mpr ho)),
          if_neg (UInt64.ne_of_lt ((hlt _).mpr ho)), hb]
        rfl
    · rw [show um.touch inode off.toUInt64.toNat = .error .panic from if_neg hn]
      rfl
  · have hend : off.toUInt64 = inode.inSize := UInt64.toNat_inj.mp (ho.trans h.size.symm)
    rw [hrd, hend, if_neg (UInt64.lt_irrefl _), UfsVolume.readAt, if_neg (UInt64.lt_irrefl _),
      if_pos rfl]
  · have hp : inode.inSize < off.toUInt64 := UInt64.lt_iff_toNat_lt.mpr (h.size ▸ ho)
    refine ⟨.invalid, ?_⟩
    rw [hrd, if_neg (UInt64.lt_asymm hp), UfsVolume.readAt, if_pos hp]

end Ufs

/-- A file of one of the two file systems, its data, and what a read touches of it. -/
inductive FileReader.Reads : FileReader → List UInt8 → (ℕ → Outcome (Except Errno Unit)) → Prop
  | tarfs {sdev image fc} (hs : sdev.Serves image) (hon : fc.On image) :
      Reads (tarfsReader sdev fc) (fc.bytes image) fun _ => .ok (.ok ())
  | ufs {um inode file} (h : UfsVolume.Stores um inode file) (h8 : 8 ≤ um.bsize.toNat)
      (hs : file.length < 2 ^ 63) : Reads (ufsReader um inode) file (um.touch inode)

theorem FileReader.Reads.serves {f : FileReader} {file : List UInt8}
    {touch : ℕ → Outcome (Except Errno Unit)} (h : f.Reads file touch) : f.Serves file touch := by
  cases h with
  | ufs h h8 hs => exact h.serves h8 hs
  | @tarfs sdev image fc hs hon =>
    have hb := hon.length_bytes
    have hlt (off : Int64) : off.toUInt64 < fc.fDsize ↔
        off.toUInt64.toNat < (fc.bytes image).length := by
      rw [UInt64.lt_iff_toNat_lt, hb]
    refine ⟨hb ▸ fc.fDsize.toNat_lt, fun off len ho hlen _ => ?_, fun _ _ _ h => absurd rfl h,
      fun off len ho => ?_, fun off len ho => ⟨.invalid, congrArg Except.ok
        (if_pos (UInt64.lt_iff_toNat_lt.mpr (hb ▸ ho)))⟩⟩
    · have hin : TarfsRead.Inside ⟨fc, off, UInt64.ofNat len⟩ := (hlt off).mpr ho
      have hl := hin.toNat_length
      dsimp only at hl
      rw [UInt64.toNat_ofNat_of_lt' hlen] at hl
      refine ⟨_, congrArg Except.ok (TarfsRead.result_on hs hon hin), take_prefix _ _, fun hn => ?_,
        fun _ _ => rfl⟩
      have := congrArg length hn
      rw [length_take, length_drop, length_nil] at this
      dsimp only at this
      omega
    · have hend : off.toUInt64 = fc.fDsize := UInt64.toNat_inj.mp (ho.trans hb)
      exact congrArg Except.ok
        ((if_neg (by rw [hend]; exact UInt64.lt_irrefl _)).trans (if_pos hend))

/-! ## The loop -/

/-- **A call that is right**: it returns, with an error if there are fewer bytes than it asks for,
and otherwise with the bytes. -/
def ReadsRight (f : FileReader) (file : List UInt8) (off : Int64) (len : UInt64) : Prop :=
  let wanted := (file.drop off.toUInt64.toNat).take len.toNat
  (wanted.length < len.toNat → ∃ rounds e, (execReadFrom f rounds off len.toNat).2 = .failed e) ∧
    (wanted.length = len.toNat → ∃ rounds, execReadFrom f rounds off len.toNat = (wanted, .done))

def ReadStatus.of : Outcome (Except Errno Unit) → ReadStatus
  | .error h => .halted h
  | .ok (.error e) => .failed e
  | .ok (.ok ()) => .done

theorem ReadStatus.of_ne_stuck (r : Outcome (Except Errno Unit)) : of r ≠ .stuck := by
  rcases r with h | e | u <;> exact nofun

theorem ReadStatus.of_inj {r r' : Outcome (Except Errno Unit)} (h : of r = of r') : r = r' := by
  rcases r with _ | _ | _ <;> rcases r' with _ | _ | _ <;> cases h <;> rfl

section Loop

variable {f : FileReader} {file : List UInt8} {touch : ℕ → Outcome (Except Errno Unit)} {resid : ℕ}

theorem execReadFrom_agree {m n : ℕ} (hm : (execReadFrom f m off resid).2 ≠ .stuck)
    (hn : (execReadFrom f n off resid).2 ≠ .stuck) :
    execReadFrom f m off resid = execReadFrom f n off resid := by
  induction m generalizing n off resid with
  | zero => exact absurd rfl hm
  | succ m ih =>
    cases n with
    | zero => exact absurd rfl hn
    | succ n =>
      rcases hr : f.read off resid with h | e | bytes
      · simp only [execReadFrom, hr]
      · simp only [execReadFrom, hr]
      · by_cases hlen : bytes.length = resid
        · simp only [execReadFrom, hr, if_pos hlen]
        · simp only [execReadFrom, hr, if_neg hlen] at hm hn ⊢
          rw [ih hm hn]

theorem FileReader.Serves.reads (h : f.Serves file touch)
    (hin : off.toUInt64.toNat + resid ≤ file.length)
    (ht : ∀ x, off.toUInt64.toNat ≤ x → x < min file.length (off.toUInt64.toNat + max resid 1) →
      touch x = .ok (.ok ())) :
    ∃ rounds, execReadFrom f rounds off resid =
      ((file.drop off.toUInt64.toNat).take resid, .done) := by
  -- by induction on what is left to read
  induction resid using Nat.strong_induction_on generalizing off with
  | _ resid ih =>
    have hs := h.size
    obtain ⟨bytes, hr, hp, hnil⟩ : ∃ bytes, f.read off resid = .ok (.ok bytes) ∧
        bytes <+: file.drop off.toUInt64.toNat ∧ (bytes = [] → resid = 0) := by
      rcases Nat.lt_or_ge off.toUInt64.toNat file.length with hlt | hge
      · obtain ⟨bytes, hr, hp, hnil, -⟩ := h.inside off resid hlt (by omega)
          (ht _ le_rfl (by omega))
        exact ⟨bytes, hr, hp, hnil⟩
      · exact ⟨[], h.atEnd off resid (by omega), nil_prefix, fun _ => by omega⟩
    have hle := f.length_le off resid bytes hr
    have htk := prefix_iff_eq_take.mp hp
    by_cases hlen : bytes.length = resid
    · refine ⟨1, ?_⟩
      rw [execReadFrom, hr]
      simp only [if_pos hlen]
      rw [← hlen, ← htk]
    · have hpos : 0 < bytes.length := length_pos_iff.mpr fun h => hlen (by rw [h, hnil h]; rfl)
      have ho := toNat_off_add (show off.toUInt64.toNat + bytes.length < 2 ^ 64 by omega)
      have hn : (off + Int64.ofNat bytes.length).toUInt64.toNat + (resid - bytes.length) ≤
          file.length := by omega
      obtain ⟨rounds, hrn⟩ := ih (resid - bytes.length) (by omega) hn
        fun x hx hxl => ht x (by omega) (by omega)
      refine ⟨rounds + 1, ?_⟩
      rw [execReadFrom, hr]
      simp only [if_neg hlen, hrn, ho]
      rw [← drop_drop, ← Nat.add_sub_cancel' hle, take_add, Nat.add_sub_cancel_left, ← htk]

theorem FileReader.Serves.spins (h : f.Serves file touch) (hin : off.toUInt64.toNat ≤ file.length)
    (hb : file.length < off.toUInt64.toNat + resid) (hrs : resid < 2 ^ 64)
    (ht : ∀ x, off.toUInt64.toNat ≤ x → x < file.length → touch x = .ok (.ok ())) (rounds : ℕ) :
    (execReadFrom f rounds off resid).2 = .stuck := by
  induction rounds generalizing off resid with
  | zero => rfl
  | succ rounds ih =>
    have hs := h.size
    obtain ⟨bytes, hr, hp⟩ : ∃ bytes, f.read off resid = .ok (.ok bytes) ∧
        bytes <+: file.drop off.toUInt64.toNat := by
      rcases Nat.lt_or_ge off.toUInt64.toNat file.length with hlt | hge
      · obtain ⟨bytes, hr, hp, -⟩ := h.inside off resid hlt hrs (ht _ le_rfl hlt)
        exact ⟨bytes, hr, hp⟩
      · exact ⟨[], h.atEnd off resid (by omega), nil_prefix⟩
    have hle := hp.length_le
    rw [length_drop] at hle
    have ho := toNat_off_add (show off.toUInt64.toNat + bytes.length < 2 ^ 64 by omega)
    rw [execReadFrom, hr]
    simp only [if_neg (show bytes.length ≠ resid by omega)]
    exact ih (by omega) (by omega) (by omega) fun x hx => ht x (by omega)

theorem FileReader.Serves.stops (h : f.Serves file touch) {x : ℕ} (hx : off.toUInt64.toNat ≤ x)
    (hxl : x < file.length) (hxr : x < off.toUInt64.toNat + max resid 1) (hrs : resid < 2 ^ 64)
    (ht : ∀ y, off.toUInt64.toNat ≤ y → y < x → touch y = .ok (.ok ()))
    (hbad : touch x ≠ .ok (.ok ())) :
    ∃ rounds, (execReadFrom f rounds off resid).2 = .of (touch x) := by
  induction resid using Nat.strong_induction_on generalizing off with
  | _ resid ih =>
    rcases Nat.eq_or_lt_of_le hx with rfl | hlt
    · refine ⟨1, ?_⟩
      rw [execReadFrom, h.refused off resid hxl hbad]
      rcases hx : touch off.toUInt64.toNat with h | e | u
      · rfl
      · rfl
      · exact absurd hx hbad
    · have hs := h.size
      obtain ⟨bytes, hr, -, hnil, htc⟩ := h.inside off resid (by omega) hrs (ht _ le_rfl hlt)
      have hpos : 0 < bytes.length := length_pos_iff.mpr fun h => by
        have := hnil h
        omega
      have hle : off.toUInt64.toNat + bytes.length ≤ x := by
        by_contra hgt
        refine hbad ?_
        have := htc (x - off.toUInt64.toNat) (by omega)
        rwa [Nat.add_sub_cancel' hx] at this
      have ho := toNat_off_add (show off.toUInt64.toNat + bytes.length < 2 ^ 64 by omega)
      have hn : (off + Int64.ofNat bytes.length).toUInt64.toNat ≤ x := by omega
      obtain ⟨rounds, hrn⟩ := ih (resid - bytes.length) (by omega) hn (by omega) (by omega)
        fun y hy => ht y (by omega)
      refine ⟨rounds + 1, ?_⟩
      rw [execReadFrom, hr]
      simp only [if_neg (show bytes.length ≠ resid by omega)]
      exact hrn

/-- **The calls of `exec_read` that are right**: those for bytes that are all in the file, and at
hand; those for some bytes from beyond its end on; and those across its end that meet a block which
cannot be read, before one that makes the kernel panic. -/
theorem exec_read_right_iff (h : f.Reads file touch) (off : Int64) (len : UInt64) :
    ReadsRight f file off len ↔
      (off.toUInt64.toNat + len.toNat ≤ file.length ∧ ∀ x, off.toUInt64.toNat ≤ x →
        x < min file.length (off.toUInt64.toNat + max len.toNat 1) → touch x = .ok (.ok ())) ∨
      (file.length < off.toUInt64.toNat ∧ 0 < len.toNat) ∨
      off.toUInt64.toNat ≤ file.length ∧ file.length < off.toUInt64.toNat + len.toNat ∧
        ∃ x e, off.toUInt64.toNat ≤ x ∧ x < file.length ∧ touch x = .ok (.error e) ∧
          ∀ y, off.toUInt64.toNat ≤ y → y < x → touch y = .ok (.ok ()) := by
  have hs := h.serves
  have hlen := len.toNat_lt
  rw [ReadsRight, length_take, length_drop]
  rcases Nat.lt_or_ge file.length off.toUInt64.toNat with hp | hin
  · -- beyond the end, the first read fails
    obtain ⟨e, he⟩ := hs.past off len.toNat hp
    have herr : (execReadFrom f 1 off len.toNat).2 = .failed e := by rw [execReadFrom, he]
    constructor
    · rintro ⟨-, hd⟩
      refine .inr (.inl ⟨hp, ?_⟩)
      by_contra hn
      obtain ⟨rounds, hr⟩ := hd (by omega)
      have := execReadFrom_agree (by rw [hr]; simp) (by rw [herr]; simp)
      rw [← this, hr] at herr
      cases herr
    · exact fun ho => ⟨fun _ => ⟨1, e, herr⟩, fun heq => by omega⟩
  by_cases ht : ∀ x, off.toUInt64.toNat ≤ x →
      x < min file.length (off.toUInt64.toNat + max len.toNat 1) → touch x = .ok (.ok ())
  · by_cases hfit : off.toUInt64.toNat + len.toNat ≤ file.length
    · exact iff_of_true ⟨fun hlt => by omega, fun _ => hs.reads hfit ht⟩ (.inl ⟨hfit, ht⟩)
    · have hc : ∀ x, off.toUInt64.toNat ≤ x → x < file.length → touch x = .ok (.ok ()) :=
        fun x hx hxl => ht x hx (by omega)
      refine iff_of_false (fun hrg => ?_) ?_
      · obtain ⟨rounds, e, hr⟩ := hrg.1 (by omega)
        rw [hs.spins hin (by omega) hlen hc] at hr
        cases hr
      · rintro (⟨h, -⟩ | ⟨h, -⟩ | ⟨-, -, x, e, hx, hxl, hte, -⟩)
        · omega
        · omega
        · cases hte.symm.trans (hc x hx hxl)
  -- the first offset that is not at hand decides
  obtain ⟨x, hx, hxl, hbad, hmin⟩ : ∃ x, off.toUInt64.toNat ≤ x ∧
      x < min file.length (off.toUInt64.toNat + max len.toNat 1) ∧ touch x ≠ .ok (.ok ()) ∧
      ∀ y, off.toUInt64.toNat ≤ y → y < x → touch y = .ok (.ok ()) := by
    classical
    push Not at ht
    obtain ⟨hx, hxl, hbad⟩ := Nat.find_spec ht
    refine ⟨Nat.find ht, hx, hxl, hbad, fun y hy hyx => ?_⟩
    by_contra hb
    exact Nat.find_min ht hyx ⟨hy, by omega, hb⟩
  obtain ⟨rounds, hst⟩ := hs.stops hx (by omega) (by omega) hlen hmin hbad
  have hend : ∀ n, (execReadFrom f n off len.toNat).2 ≠ .stuck →
      (execReadFrom f n off len.toNat).2 = .of (touch x) := fun n hn => by
    rw [execReadFrom_agree hn (by rw [hst]; exact ReadStatus.of_ne_stuck _), hst]
  by_cases hfit : off.toUInt64.toNat + len.toNat ≤ file.length
  · refine iff_of_false (fun hrg => ?_) ?_
    · obtain ⟨n, hr⟩ := hrg.2 (by omega)
      have hd := hend n (by rw [hr]; simp)
      rw [hr] at hd
      exact hbad (@ReadStatus.of_inj (touch x) (.ok (.ok ())) hd.symm)
    · rintro (⟨-, h⟩ | ⟨h, -⟩ | ⟨-, h, -⟩)
      · exact hbad (h x hx hxl)
      · omega
      · omega
  · constructor
    · rintro ⟨hf, -⟩
      obtain ⟨n, e, hr⟩ := hf (by omega)
      have hd := hend n (by rw [hr]; simp)
      rw [hr] at hd
      have hte := @ReadStatus.of_inj (touch x) (.ok (.error e)) hd.symm
      exact .inr (.inr ⟨hin, by omega, x, e, hx, by omega, hte, hmin⟩)
    · rintro (⟨h, -⟩ | ⟨h, -⟩ | ⟨-, -, y, e, hy, hyl, hte, hcl⟩)
      · omega
      · omega
      · obtain rfl : y = x := by
          rcases Nat.lt_trichotomy y x with hlt | heq | hgt
          · cases hte.symm.trans (hmin y hy hlt)
          · exact heq
          · exact absurd (hcl x hx hgt) hbad
        rw [hte] at hst
        exact ⟨fun _ => ⟨rounds, e, hst⟩, fun heq => by omega⟩

end Loop

def holeFile : Ufs2Inode := ⟨0x8000, 1024, fun i => if i = 0 then 8 else 0, fun _ => 0⟩

/-- The end of the block that is there; and a request across the end of the file, which meets the
hole. -/
theorem exec_read_right_iff_hole : ∃ file : List UInt8, file.length = 1024 ∧
    ReadsRight (ufsReader smallVolume holeFile) file 500 12 ∧
    ReadsRight (ufsReader smallVolume holeFile) file 500 1000 := by
  have hbs : smallVolume.bsize.toNat = 512 := rfl
  obtain ⟨block, hb⟩ : ∃ block, smallVolume.fileBlock holeFile 0 = .ok block := ⟨_, rfl⟩
  -- the first 512 bytes are in the block, and the others in the hole
  have hfirst : ∀ x < 512, smallVolume.touch holeFile x = .ok (.ok ()) := fun x hx => by
    rw [UfsVolume.touch, hbs, Nat.div_eq_of_lt hx]
    rfl
  have hsecond : ∀ x, 512 ≤ x → x < 1024 → x / 512 = 1 := fun x _ _ => by omega
  have hh : smallVolume.Stores holeFile (slice block 0 512 ++ replicate 512 0) := by
    refine ⟨by rw [length_append, length_slice, length_replicate]; rfl, fun off ho block' hb' => ?_⟩
    rw [UfsVolume.fileBlock, hbs] at hb'
    rcases Nat.lt_or_ge off.toNat 512 with hlt | hge
    · rw [Nat.div_eq_of_lt hlt] at hb'
      obtain rfl : block = block' := Except.ok.inj (hb.symm.trans hb')
      rw [getElem?_append_left (by rwa [length_slice]), getElem?_eq_getElem (by rwa [length_slice]),
        getElem_slice, Nat.zero_add, hbs, Nat.mod_eq_of_lt hlt]
    · rw [hsecond _ hge (UInt64.lt_iff_toNat_lt.mp ho)] at hb'
      cases hb'
  have hl : (slice block 0 512 ++ replicate 512 0).length = 1024 := by
    rw [length_append, length_slice, length_replicate]
  have hrd : FileReader.Reads (ufsReader smallVolume holeFile) _ _ :=
    .ufs hh (by decide) (by rw [hl]; decide)
  have h500 : (500 : Int64).toUInt64.toNat = 500 := rfl
  refine ⟨_, hl, (exec_read_right_iff hrd 500 12).mpr (.inl ?_),
    (exec_read_right_iff hrd 500 1000).mpr (.inr (.inr ?_))⟩
  · rw [hl, h500]
    exact ⟨by decide, fun x _ hx => hfirst x (hx.trans_le (by decide))⟩
  · rw [hl, h500]
    exact ⟨by decide, by decide, 512, .notFound, by decide, by decide, rfl, fun y _ => hfirst y⟩

/-- One byte more than the file has: `exec_read` does not return. -/
theorem exec_read_spins :
    FileReader.Reads (tarfsReader flatDisk shortFile) (replicate 600 7) (fun _ => .ok (.ok ())) ∧
    ∀ rounds, (execReadFrom (tarfsReader flatDisk shortFile) rounds 0 601).2 = .stuck := by
  have hr := bytes_shortFile ▸ FileReader.Reads.tarfs flatDisk_serves shortFile_on
  refine ⟨hr, hr.serves.spins ?_ ?_ (by decide) fun _ _ _ => rfl⟩
  · exact Nat.zero_le _
  · rw [length_replicate]
    decide

/-! ## Reads of UFS files -/

/-- **`ufs_op_file_read` reads the file.** For every file within the reach of `ufs_map_block`, a
read inside it returns bytes of the file from the offset on, some unless none are wanted; a read at
its end returns nothing, and one beyond it fails. -/
theorem ufs_file_read_holds {file : List UInt8} (h : um.Holds fc.fIn file) (len : UInt64) :
    Ensures (ufsOpFileRead um fc off len iblock) fun r => r.1.2.fIn = fc.fIn ∧
      (off.toUInt64.toNat < file.length → ∃ bytes, r.2 = .ok bytes ∧
        bytes <+: file.drop off.toUInt64.toNat ∧ bytes.length ≤ len.toNat ∧
        (bytes = [] → len = 0)) ∧
      (off.toUInt64.toNat = file.length → r.2 = .ok []) ∧
      (file.length < off.toUInt64.toNat → ∃ e, r.2 = .error e) := by
  refine (ufsOpFileRead_spec (h.near _)).mono ?_
  rintro ⟨c, r⟩ ⟨hin, rfl⟩
  dsimp only
  refine ⟨hin, fun ho => ?_, fun ho => ?_, fun ho => ⟨.invalid, ?_⟩⟩
  · have hlt : off.toUInt64 < fc.fIn.inSize := UInt64.lt_iff_toNat_lt.mpr (h.size ▸ ho)
    obtain ⟨block, hb, -⟩ := h.bytes _ hlt
    obtain ⟨bytes, hr, hp, hl, hnil, -⟩ := h.stores.readAt hlt hb len.toNat
    exact ⟨bytes, hr, hp, hl, fun he => UInt64.toNat_inj.mp (hnil he)⟩
  · have hend : off.toUInt64 = fc.fIn.inSize := UInt64.toNat_inj.mp (ho.trans h.size.symm)
    rw [hend, UfsVolume.readAt, if_neg (UInt64.lt_irrefl _), if_pos rfl]
  · rw [UfsVolume.readAt, if_pos (UInt64.lt_iff_toNat_lt.mpr (h.size ▸ ho))]

def blockFile : Ufs2Inode := ⟨0x8000, 512, fun i => if i = 0 then 8 else 0, fun _ => 0⟩

/-- A read of the last 12 bytes of a block asks for more. -/
theorem ufs_file_read_holds_block : ∃ bytes, bytes ≠ [] ∧ Ensures (ufsOpFileRead smallVolume
    ⟨blockFile, fun _ => 0⟩ 500 100 fun _ => 0) fun r => r.2 = .ok bytes := by
  have hz : ∀ off < blockFile.inSize, off.toNat / smallVolume.bsize.toNat = 0 := fun off ho =>
    Nat.div_eq_of_lt (UInt64.lt_iff_toNat_lt.mp ho)
  obtain ⟨block, hb⟩ : ∃ block, smallVolume.fileBlock blockFile 0 = .ok block := ⟨_, rfl⟩
  have hh : smallVolume.Holds blockFile (slice block 0 512) := by
    refine ⟨length_slice.symm, fun off ho => ?_, fun off ho => ⟨block, ?_, ?_⟩⟩
    · rw [UfsVolume.Near, hz off ho]
      decide
    · rw [UfsVolume.fileBlock, hz off ho]
      exact hb
    · have hlt : off.toNat < 512 := UInt64.lt_iff_toNat_lt.mp ho
      rw [getElem?_eq_getElem (by rwa [length_slice]), getElem_slice, Nat.zero_add,
        Nat.mod_eq_of_lt (show _ < smallVolume.bsize.toNat from hlt)]
  obtain ⟨r, hr, -, hin, -⟩ : Ensures (ufsOpFileRead smallVolume ⟨blockFile, fun _ => 0⟩ 500 100
    fun _ => 0) _ := ufs_file_read_holds hh 100
  obtain ⟨bytes, he, -, -, hnil⟩ := hin (by rw [length_slice]; decide)
  exact ⟨bytes, fun h => absurd (hnil h) (by decide), r, hr, he⟩

end Glatt
