import Glatt.Storage.Device

/-!
# The UFS reader

The functions of `io/storage/ufs/ufs_mount.c` that read inodes, blocks and directory entries, with
the swaps of `ufs_inode.c` and `ufs_directory.c`. What a mount only reads is its volume; the buffers
that the functions share are `um_iblock`, for inodes and indirect blocks, and `um_dc.d_block`, for
the blocks of directories. Shift amounts count modulo the width of the shifted value, as they do in
the shift instructions.

## Main definitions

* `UfsVolume`, `Ufs2Inode`: what a mount and an inode hold
* `ufsReadInode`, `ufsMapBlock`, `ufsReadDirectory`: the functions
* `UfsVolume.fileBlock`: the block of a file at an offset

## Main results

* `ufsReadBlock_spec`: in the blocks that an inode reaches directly or through its single indirect
  block, a read fills the buffer with what the volume holds
-/

namespace Glatt

open Imperative Buffer

/-! ## Byte order -/

def bswap16 (x : UInt16) : UInt16 := ((x &&& 0xff00) >>> 0x08) ||| ((x &&& 0x00ff) <<< 0x08)

def bswap32 (x : UInt32) : UInt32 :=
  ((x &&& 0xff000000) >>> 0x18) ||| ((x &&& 0x00ff0000) >>> 0x08) |||
    ((x &&& 0x0000ff00) <<< 0x08) ||| ((x &&& 0x000000ff) <<< 0x18)

def bswap64 (x : UInt64) : UInt64 :=
  ((x &&& 0xff00000000000000) >>> 0x38) ||| ((x &&& 0x00ff000000000000) >>> 0x28) |||
    ((x &&& 0x0000ff0000000000) >>> 0x18) ||| ((x &&& 0x000000ff00000000) >>> 0x08) |||
    ((x &&& 0x00000000ff000000) <<< 0x08) ||| ((x &&& 0x0000000000ff0000) <<< 0x18) |||
    ((x &&& 0x000000000000ff00) <<< 0x28) ||| ((x &&& 0x00000000000000ff) <<< 0x38)

/-! ## Volumes -/

/-- `struct ufs_superblock`, as far as reads use it. -/
structure UfsSuperblock where
  sbIboff : Int32
  sbBshift : Int32
  sbFshift : Int32
  sbFsbtodb : Int32
  sbIpg : Int32
  sbFpg : Int32

/-- The part of `struct ufs_mount` that reads do not change: the order of the host's bytes,
`UFS_MOUNT_SWAP`, the device, and the superblock. `ufs_read_superblock` accepts blocks of at most
`UFS_MAX_BSIZE` bytes; a negative shift, which it lets through, means nothing. -/
structure UfsVolume where
  order : ByteOrder
  swap : Bool
  umSdev : StorageDevice
  umSb : UfsSuperblock
  bshift_le : umSb.sbBshift.toInt64.toUInt64.toNat ≤ 16

def sext (x : Int32) : UInt64 := x.toInt64.toUInt64

namespace UfsVolume

variable (um : UfsVolume)

def bsize : UInt64 := 1 <<< sext um.umSb.sbBshift

def indirectBlocks (level : ℕ) : UInt64 :=
  1 <<< ((sext um.umSb.sbBshift - 3) * (UInt64.ofNat level + 1))

def log2Inopb : UInt64 := sext um.umSb.sbBshift - 8

def inopb : UInt32 := 1 <<< um.log2Inopb.toUInt32

def physical (fsbn : UInt64) : UInt64 :=
  (fsbn <<< sext um.umSb.sbFsbtodb) <<< (um.umSb.sbFshift - um.umSb.sbFsbtodb).toUInt32.toUInt64

def load64 (buf : ℕ → UInt8) (p : ℕ) : UInt64 :=
  let x := UInt64.ofNat (load um.order buf p 8)
  if um.swap then bswap64 x else x

end UfsVolume

def ufsReadFsbn (um : UfsVolume) (fsbn : UInt64) (buf : ℕ → UInt8) :
    Outcome ((ℕ → UInt8) × Except Errno Unit) :=
  storageDeviceRead um.umSdev buf um.bsize (um.physical fsbn)

/-! ## Inodes -/

/-- `struct ufs2_inode`, as far as reads use it. -/
structure Ufs2Inode where
  inMode : UInt16
  inSize : UInt64
  inDirect : Fin 12 → UInt64
  inIndirect : Fin 3 → UInt64

def Ufs2Inode.ftype (inode : Ufs2Inode) : UInt16 := (inode.inMode &&& 0xf000) >>> 12

def UfsVolume.loadInode (um : UfsVolume) (buf : ℕ → UInt8) (p : ℕ) : Ufs2Inode where
  inMode := UInt16.ofNat (load um.order buf p 2)
  inSize := UInt64.ofNat (load um.order buf (p + 0x10) 8)
  inDirect i := UInt64.ofNat (load um.order buf (p + 0x70 + 8 * i) 8)
  inIndirect i := UInt64.ofNat (load um.order buf (p + 0xd0 + 8 * i) 8)

/-- `ufs_inode_swap`. The mode has 16 bits and is swapped as a number of 32, so that nothing is left
of it. -/
def ufsInodeSwap (inode : Ufs2Inode) : Ufs2Inode where
  inMode := (bswap32 inode.inMode.toUInt32).toUInt16
  inSize := bswap64 inode.inSize
  inDirect i := bswap64 (inode.inDirect i)
  inIndirect i := bswap64 (inode.inIndirect i)

/-- `ufs_inode_block`: the block of an inode; without inodes in a group the division traps. -/
def ufsInodeBlock (um : UfsVolume) (inode : UInt32) : Outcome UInt64 :=
  if um.umSb.sbIpg = 0 then .error .fault
  else
    let cg := (inode / um.umSb.sbIpg.toUInt32).toUInt64
    let ig := cg * sext um.umSb.sbFpg + sext um.umSb.sbIboff
    let i := ((inode % um.umSb.sbIpg.toUInt32) >>> um.log2Inopb.toUInt32).toUInt64
    pure (ig + (i <<< sext (um.umSb.sbBshift - um.umSb.sbFshift)))

def ufsReadInode (um : UfsVolume) (inode : UInt32) (iblock : ℕ → UInt8) :
    Outcome ((ℕ → UInt8) × Except Errno Ufs2Inode) := do
  let i := inode % um.inopb
  let fsbn ← ufsInodeBlock um inode
  let (iblock, r) ← ufsReadFsbn um fsbn iblock
  match r with
  | .error e => pure (iblock, .error e)
  | .ok () =>
    let raw := um.loadInode iblock (i.toNat * 256)
    pure (iblock, .ok (if um.swap then ufsInodeSwap raw else raw))

/-! ## The blocks of a file -/

/-- The loop of `ufs_map_block` over the levels of indirection: the level of a block, and its number
in the level. -/
def ufsIndirectLevel (um : UfsVolume) (lblock : UInt64) : ℕ × UInt64 :=
  if lblock < um.indirectBlocks 0 then (0, lblock)
  else
    let lblock := lblock - um.indirectBlocks 0
    if lblock < um.indirectBlocks 1 then (1, lblock)
    else
      let lblock := lblock - um.indirectBlocks 1
      if lblock < um.indirectBlocks 2 then (2, lblock) else (3, lblock - um.indirectBlocks 2)

/-- `ufs_map_block`, with what it leaves in `um_iblock`. Above the first level of indirection it
panics, so that its loop down the levels has one round. -/
def ufsMapBlock (um : UfsVolume) (inode : Ufs2Inode) (logical : UInt64) (iblock : ℕ → UInt8) :
    Outcome ((ℕ → UInt8) × Except Errno UInt64) :=
  let lblock := (logical.toInt64 >>> (sext um.umSb.sbBshift).toInt64).toUInt64
  if h : lblock.toNat < 12 then
    let pblock := inode.inDirect ⟨lblock.toNat, h⟩
    pure (iblock, if pblock = 0 then .error .notFound else .ok pblock)
  else
    let (level, lblock) := ufsIndirectLevel um (lblock - 12)
    if level ≠ 0 then .error .panic
    else if inode.inIndirect 0 = 0 then pure (iblock, .error .notFound)
    else do
      let off := lblock.toUInt32
      let (iblock, r) ← ufsReadFsbn um (inode.inIndirect 0) iblock
      match r with
      | .error e => pure (iblock, .error e)
      | .ok () =>
        let pblock := um.load64 iblock (8 * off.toNat)
        pure (iblock, if pblock = 0 then .error .notFound else .ok pblock)

/-- `ufs_read_block`: the block of a file around an offset, into a buffer, with what it leaves in
`um_iblock`. -/
def ufsReadBlock (um : UfsVolume) (inode : Ufs2Inode) (off : UInt64) (iblock buf : ℕ → UInt8) :
    Outcome (((ℕ → UInt8) × (ℕ → UInt8)) × Except Errno Unit) := do
  let (iblock, r) ← ufsMapBlock um inode off iblock
  match r with
  | .error e => pure ((iblock, buf), .error e)
  | .ok fsbn =>
    let (buf, r) ← ufsReadFsbn um fsbn buf
    pure ((iblock, buf), r)

/-! ## Directories -/

/-- `struct ufs_directory_entry`. -/
structure UfsDirectoryEntry where
  deInode : UInt32
  deEntrylen : UInt16
  deType : UInt8
  deNamelen : UInt8
  deriving DecidableEq

def ufsDirectoryEntrySwap (de : UfsDirectoryEntry) : UfsDirectoryEntry :=
  { de with deInode := bswap32 de.deInode, deEntrylen := bswap16 de.deEntrylen }

def UfsVolume.loadEntry (um : UfsVolume) (block : ℕ → UInt8) (p : ℕ) : UfsDirectoryEntry :=
  let de : UfsDirectoryEntry := ⟨UInt32.ofNat (load um.order block p 4),
    UInt16.ofNat (load um.order block (p + 4) 2), block (p + 6), block (p + 7)⟩
  if um.swap then ufsDirectoryEntrySwap de else de

/-- The buffers of a mount: `um_iblock`, and `d_block` of `um_dc`. -/
structure UfsBlocks where
  umIblock : ℕ → UInt8
  dBlock : ℕ → UInt8

/-- What `strlcpy` leaves in a buffer of `len` bytes: the string, as far as it fits. -/
def strlcpy (src : ℕ → UInt8) (len : ℕ) : List UInt8 := (slice src 0 (len - 1)).takeWhile (· ≠ 0)

/-- `ufs_read_directory`: the entry at an offset, and its name. The block is read when the offset is
at its beginning, and taken for the block around the offset otherwise. -/
def ufsReadDirectory (um : UfsVolume) (inode : Ufs2Inode) (off : UInt64) (buflen : ℕ)
    (s : UfsBlocks) : Outcome (UfsBlocks × Except Errno (UfsDirectoryEntry × List UInt8)) := do
  let offset := (off % um.bsize).toUInt32
  let (s, r) ←
    if offset = 0 then do
      let ((iblock, block), r) ← ufsReadBlock um inode off s.umIblock s.dBlock
      pure (UfsBlocks.mk iblock block, r)
    else pure (s, .ok ())
  match r with
  | .error e => pure (s, .error e)
  | .ok () =>
    let name := strlcpy (fun i => s.dBlock (offset.toNat + 8 + i)) buflen
    pure (s, .ok (um.loadEntry s.dBlock offset.toNat, name))

/-- The inner loop of `ufs_lookup`: the entries of a directory, until one has the first `clen`
characters of `p` as its name. -/
def ufsSearchDirectory (fuel : ℕ) (um : UfsVolume) (inode : Ufs2Inode) (p : List UInt8) (clen : ℕ)
    (s : UfsBlocks) : Outcome (UfsBlocks × Except Errno UfsDirectoryEntry) :=
  loop (fun (s, offset) => do
    if offset = inode.inSize then pure (.inr (s, .error .notFound))
    else
      let (s, r) ← ufsReadDirectory um inode offset 256 s
      match r with
      | .error e => pure (.inr (s, .error e))
      | .ok (de, name) =>
        let offset := offset + de.deEntrylen.toUInt64
        if de.deNamelen.toNat ≠ clen then pure (.inl (s, offset))
        else if name.take clen ≠ p.take clen then pure (.inl (s, offset))
        else pure (.inr (s, .ok de))) fuel (s, 0)

def ufsLookup (fuel : ℕ) (um : UfsVolume) (path : List UInt8) (s : UfsBlocks) :
    Outcome (UfsBlocks × Except Errno UInt32) :=
  if path.head? ≠ some 0x2f then pure (s, .error .invalid)
  else loop (fun (s, inode, p) => do
    let (iblock, r) ← ufsReadInode um inode s.umIblock
    let s := { s with umIblock := iblock }
    match r with
    | .error e => pure (.inr (s, .error e))
    | .ok dIn =>
      if p = [] then pure (.inr (s, .ok inode))
      else
        let clen := (p.takeWhile (· ≠ 0x2f)).length
        let (s, r) ← ufsSearchDirectory fuel um dIn p clen s
        match r with
        | .error e => pure (.inr (s, .error e))
        | .ok de =>
          let p := p.drop clen
          if p.head? = some 0x2f ∧ de.deType ≠ 0x04 then pure (.inr (s, .error .wrongKind))
          else
            let p := p.dropWhile (· = 0x2f)
            if p ≠ [] then pure (.inl (s, de.deInode, p))
            else pure (.inr (s, .ok de.deInode))) fuel
    (s, 2, path.dropWhile (· = 0x2f))

/-! ## What a volume holds -/

namespace UfsVolume

variable (um : UfsVolume)

def fsBlock (fsbn : UInt64) : Except Errno (ℕ → UInt8) :=
  um.umSdev.contents um.bsize (um.physical fsbn)

def pointers : ℕ := um.bsize.toNat / 8

def unlessHole (fsbn : UInt64) : Except Errno UInt64 :=
  if fsbn = 0 then .error .notFound else .ok fsbn

/-- The block that an indirect block leads to, through `level` further indirect blocks. -/
def indirect : (level : ℕ) → (iblock : UInt64) → (l : ℕ) → Except Errno UInt64
  | 0, iblock, l => do
    let block ← um.fsBlock (← unlessHole iblock)
    unlessHole (um.load64 block (8 * l))
  | level + 1, iblock, l => do
    let block ← um.fsBlock (← unlessHole iblock)
    let next := um.load64 block (8 * (l / um.pointers ^ (level + 1)))
    indirect level next (l % um.pointers ^ (level + 1))

/-- The number of the `l`-th block of a file: twelve are in the inode, and the rest are behind the
single, the double and the triple indirect block. -/
def blockNumber (inode : Ufs2Inode) (l : ℕ) : Except Errno UInt64 :=
  let n := um.pointers
  if h : l < 12 then unlessHole (inode.inDirect ⟨l, h⟩)
  else if l - 12 < n then um.indirect 0 (inode.inIndirect 0) (l - 12)
  else if l - 12 - n < n ^ 2 then um.indirect 1 (inode.inIndirect 1) (l - 12 - n)
  else if l - 12 - n - n ^ 2 < n ^ 3 then um.indirect 2 (inode.inIndirect 2) (l - 12 - n - n ^ 2)
  else .error .invalid

def fileBlock (inode : Ufs2Inode) (off : UInt64) : Except Errno (ℕ → UInt8) := do
  let fsbn ← um.blockNumber inode (off.toNat / um.bsize.toNat)
  um.fsBlock fsbn

/-- The offset is in a block that the inode reaches directly or through its single indirect
block. -/
def Near (off : UInt64) : Prop := off.toNat / um.bsize.toNat < 12 + um.pointers

theorem toNat_bsize : um.bsize.toNat = 2 ^ (sext um.umSb.sbBshift).toNat := by
  have hle : (sext um.umSb.sbBshift).toNat ≤ 16 := um.bshift_le
  have hp : 2 ^ (sext um.umSb.sbBshift).toNat ≤ 2 ^ 16 := Nat.pow_le_pow_right (by decide) hle
  rw [bsize, UInt64.toNat_shiftLeft, Nat.mod_eq_of_lt (b := 64) (by omega)]
  show 1 <<< _ % _ = _
  rw [Nat.one_shiftLeft, Nat.mod_eq_of_lt (by omega)]

theorem bsize_le : um.bsize.toNat ≤ 65536 := by
  rw [um.toNat_bsize]
  exact Nat.pow_le_pow_right (by decide) um.bshift_le

theorem bsize_pos : 0 < um.bsize.toNat := by
  rw [um.toNat_bsize]
  exact Nat.two_pow_pos _

end UfsVolume

variable {um : UfsVolume} {inode : Ufs2Inode} {off fsbn : UInt64} {iblock buf : ℕ → UInt8}

theorem UfsVolume.Near.off_lt (h : um.Near off) : off.toNat < 2 ^ 63 := by
  have hle := um.bsize_le
  have hd : off.toNat / um.bsize.toNat < 12 + 8192 := by
    have := Nat.div_le_div_right (c := 8) hle
    exact h.trans_le (Nat.add_le_add_left this 12)
  have hlt := (Nat.div_lt_iff_lt_mul um.bsize_pos).mp hd
  omega

theorem toNat_smod {k : UInt64} (h : k.toNat ≤ 16) : (k.toBitVec.smod 64#64).toNat = k.toNat := by
  rw [BitVec.smod_eq, BitVec.msb_eq_false_iff_two_mul_lt.mpr]
  · show k.toNat % 64 = _
    omega
  · show 2 * k.toNat < _
    omega

theorem UfsVolume.toNat_lblock (um : UfsVolume) (ho : off.toNat < 2 ^ 63) :
    (off.toInt64 >>> (sext um.umSb.sbBshift).toInt64).toUInt64.toNat =
      off.toNat / um.bsize.toNat := by
  have hle : (sext um.umSb.sbBshift).toNat ≤ 16 := um.bshift_le
  rw [um.toNat_bsize]
  generalize sext um.umSb.sbBshift = k at hle
  have hm : off.toBitVec.msb = false := by
    refine BitVec.msb_eq_false_iff_two_mul_lt.mpr ?_
    show 2 * off.toNat < _
    omega
  show (off.toBitVec.sshiftRight' (k.toBitVec.smod 64#64)).toNat = _
  rw [BitVec.sshiftRight', BitVec.sshiftRight_eq_of_msb_false hm, BitVec.toNat_ushiftRight,
    toNat_smod hle, Nat.shiftRight_eq_div_pow]
  rfl

theorem UfsVolume.toNat_indirectBlocks (h : 8 ≤ um.bsize.toNat) :
    (um.indirectBlocks 0).toNat = um.pointers := by
  have hle : (sext um.umSb.sbBshift).toNat ≤ 16 := um.bshift_le
  have hge : 3 ≤ (sext um.umSb.sbBshift).toNat := by
    rw [um.toNat_bsize] at h
    exact (Nat.pow_le_pow_iff_right (a := 2) (by decide)).mp h
  have hs : (sext um.umSb.sbBshift - 3).toNat = (sext um.umSb.sbBshift).toNat - 3 :=
    UInt64.toNat_sub_of_le _ _ (UInt64.le_iff_toNat_le.mpr hge)
  have hp : 2 ^ ((sext um.umSb.sbBshift).toNat - 3) ≤ 2 ^ 16 :=
    Nat.pow_le_pow_right (by decide) (by omega)
  rw [indirectBlocks, pointers, um.toNat_bsize, UInt64.toNat_shiftLeft]
  rw [show (sext um.umSb.sbBshift - 3) * (UInt64.ofNat 0 + 1) = sext um.umSb.sbBshift - 3 from
    UInt64.mul_one _, hs, Nat.mod_eq_of_lt (b := 64) (by omega)]
  show 1 <<< _ % _ = _
  rw [Nat.one_shiftLeft, Nat.mod_eq_of_lt (by omega)]
  exact (Nat.pow_div hge (by decide)).symm

theorem ufsIndirectLevel_eq_zero {l : UInt64} (hl : 12 ≤ l.toNat) (h8 : 8 ≤ um.bsize.toNat) :
    (l.toNat < 12 + um.pointers → ufsIndirectLevel um (l - 12) = (0, l - 12)) ∧
      (12 + um.pointers ≤ l.toNat → (ufsIndirectLevel um (l - 12)).1 ≠ 0) := by
  have hs : (l - 12).toNat = l.toNat - 12 :=
    UInt64.toNat_sub_of_le _ _ (UInt64.le_iff_toNat_le.mpr hl)
  have hiff : l - 12 < um.indirectBlocks 0 ↔ l.toNat < 12 + um.pointers := by
    rw [UInt64.lt_iff_toNat_lt, um.toNat_indirectBlocks h8]
    omega
  refine ⟨fun h => if_pos (hiff.mpr h), fun h => ?_⟩
  rw [ufsIndirectLevel, if_neg (hiff.not.mpr (by omega))]
  dsimp only
  split_ifs <;> exact Nat.succ_ne_zero _

/-! ## Reads -/

theorem ufsReadFsbn_spec :
    Ensures (ufsReadFsbn um fsbn buf) fun r => r.2 = (um.fsBlock fsbn).map (fun _ => ()) ∧
      ∀ c, um.fsBlock fsbn = .ok c → ∀ i < um.bsize.toNat, r.1 i = c i := by
  refine storageDeviceRead_spec.mono fun r hr => ⟨hr.1, fun c hc i hi => ?_⟩
  rw [hr.2 c hc]
  exact write_apply_of_lt i.zero_le (by rw [Nat.zero_add]; exact hi)

theorem ufsMapBlock_spec (h : um.Near off) :
    Ensures (ufsMapBlock um inode off iblock) fun r =>
      r.2 = um.blockNumber inode (off.toNat / um.bsize.toNat) := by
  have hl := um.toNat_lblock h.off_lt
  unfold UfsVolume.Near at h
  generalize off.toNat / um.bsize.toNat = l at h hl
  rw [ufsMapBlock]
  generalize (off.toInt64 >>> (sext um.umSb.sbBshift).toInt64).toUInt64 = lblock at hl
  subst hl
  by_cases hd : lblock.toNat < 12
  · rw [UfsVolume.blockNumber, dif_pos hd, dif_pos hd]
    exact .ret rfl
  · -- the first level has room for the block, so the others are not looked at
    have hr : lblock.toNat - 12 < um.pointers := by omega
    have hle := um.bsize_le
    have hp : um.pointers = um.bsize.toNat / 8 := rfl
    have hs : (lblock - 12).toNat = lblock.toNat - 12 :=
      UInt64.toNat_sub_of_le _ _ (UInt64.le_iff_toNat_le.mpr (Nat.not_lt.mp hd))
    have hlv := (ufsIndirectLevel_eq_zero (Nat.not_lt.mp hd) (by omega)).1 h
    have ho : (lblock - 12).toUInt32.toNat = lblock.toNat - 12 := by
      rw [UInt64.toNat_toUInt32]
      omega
    rw [UfsVolume.blockNumber, dif_neg hd, dif_neg hd, if_pos hr, hlv]
    dsimp only
    rw [UfsVolume.indirect, UfsVolume.unlessHole]
    by_cases hh : inode.inIndirect 0 = 0
    · rw [if_pos hh, if_pos hh]
      exact .ret rfl
    · rw [if_neg hh, if_neg hh]
      refine ufsReadFsbn_spec.bind ?_
      rintro ⟨iblock', r⟩ ⟨rfl, hb⟩
      cases hf : um.fsBlock (inode.inIndirect 0) with
      | error e =>
        refine .ret ?_
        show _ = Except.bind (um.fsBlock (inode.inIndirect 0)) _
        rw [hf]
        rfl
      | ok c =>
        have hld : um.load64 iblock' (8 * (lblock.toNat - 12)) =
            um.load64 c (8 * (lblock.toNat - 12)) := by
          rw [UfsVolume.load64, UfsVolume.load64, load_congr fun i hi => hb c hf _ (by omega)]
        refine .ret ?_
        show _ = Except.bind (um.fsBlock (inode.inIndirect 0)) _
        rw [hf, ho, hld]
        rfl

theorem ufsMapBlock_far (h8 : 8 ≤ um.bsize.toNat) (ho : off.toNat < 2 ^ 63) (h : ¬ um.Near off) :
    ufsMapBlock um inode off iblock = .error .panic := by
  have hl := um.toNat_lblock ho
  rw [UfsVolume.Near, ← hl] at h
  have hlv := (ufsIndirectLevel_eq_zero (by omega) h8).2 (Nat.not_lt.mp h)
  rw [ufsMapBlock, dif_neg (by omega)]
  dsimp only
  rw [if_pos hlv]

theorem ufsReadBlock_spec (h : um.Near off) :
    Ensures (ufsReadBlock um inode off iblock buf) fun r =>
      r.2 = (um.fileBlock inode off).map (fun _ => ()) ∧
        ∀ c, um.fileBlock inode off = .ok c → ∀ i < um.bsize.toNat, r.1.2 i = c i := by
  refine (ufsMapBlock_spec h).bind ?_
  rintro ⟨-, r⟩ rfl
  rw [UfsVolume.fileBlock]
  cases um.blockNumber inode (off.toNat / um.bsize.toNat) with
  | error e => exact .ret ⟨rfl, nofun⟩
  | ok fsbn =>
    refine ufsReadFsbn_spec.bind ?_
    rintro ⟨buf', r⟩ ⟨rfl, hb⟩
    exact .ret ⟨rfl, hb⟩

end Glatt
