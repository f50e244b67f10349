import Glatt.Storage.UfsPlacement

/-!
# Mounting a volume

`ufs_read_superblock` looks for a superblock in four places of the device. It checks the magic
number of what it reads there, and that blocks are not larger than its buffers. The other fields
enter divisions and counts of shifts unchecked.

## Main definitions

* `ufsReadSuperblock`: the function
* `UfsSuperblock.Defined`: its divisions and shifts are defined

## Main results

* `mount_defined_iff`: what a superblock that is accepted has to satisfy on top of that
* `mount_divides_by_zero`: an accepted superblock without inodes in a cylinder group
-/

namespace Glatt

open Imperative Buffer

/-! ## The function -/

def loadSuperblock (order : ByteOrder) (buf : ℕ → UInt8) : UfsSuperblock :=
  let field := fun p => (UInt32.ofNat (load order buf p 4)).toInt32
  ⟨field 0x10, field 0x50, field 0x54, field 0x64, field 0xb8, field 0xbc⟩

def ufsSuperblockSwap (sb : UfsSuperblock) : UfsSuperblock :=
  let swap32 := fun x : Int32 => (bswap32 x.toUInt32).toInt32
  ⟨swap32 sb.sbIboff, swap32 sb.sbBshift, swap32 sb.sbFshift, swap32 sb.sbFsbtodb,
    swap32 sb.sbIpg, swap32 sb.sbFpg⟩

/-- What `ufs_read_superblock` leaves in `struct ufs_mount`: `UFS_MOUNT_SWAP`, the superblock, and
where it has been found. -/
structure UfsMounted where
  swap : Bool
  umSb : UfsSuperblock
  umSboff : UInt64

def ufsSuperblockOffsets : List UInt64 := [65536, 8192, 0, 262144]

def ufsCheckBsize (m : UfsMounted) : Except Errno UfsMounted :=
  if 16 < m.umSb.sbBshift then .error .notImplemented else .ok m

/-- A round of the loop of `ufs_read_superblock`, on what has been read at an offset: the search
goes on if there is no superblock. -/
def ufsCheckSuperblock (order : ByteOrder) (buf : ℕ → UInt8) (off : UInt64) :
    Option (Except Errno UfsMounted) :=
  let magic := UInt32.ofNat (load order buf 0x55c 4)
  let sb := loadSuperblock order buf
  if magic = 0x00011954 ∨ magic = 0x54190100 then some (.error .notImplemented)
  else if magic = 0x19540119 then some (ufsCheckBsize ⟨false, sb, off⟩)
  else if magic = 0x19015419 then some (ufsCheckBsize ⟨true, ufsSuperblockSwap sb, off⟩)
  else none

/-- `ufs_read_superblock`, with the offsets that are left to try and what it leaves in
`um_iblock`. -/
def ufsReadSuperblock (order : ByteOrder) (sdev : StorageDevice) :
    List UInt64 → (ℕ → UInt8) → Outcome ((ℕ → UInt8) × Except Errno UfsMounted)
  | [], iblock => pure (iblock, .error .notFound)
  | off :: offs, iblock => do
    let (iblock, r) ← storageDeviceRead sdev iblock 8192 off
    match r with
    | .error _ => ufsReadSuperblock order sdev offs iblock
    | .ok () =>
      match ufsCheckSuperblock order iblock off with
      | none => ufsReadSuperblock order sdev offs iblock
      | some r => pure (iblock, r)

/-! ## What is accepted -/

def ShiftCount (n : ℤ) : Prop := 0 ≤ n ∧ n ≤ 63

/-- **The computations on a volume are defined**: inodes are divided by the number in a cylinder
group, the counts of the shifts are in range, and the slot of an inode lies in its block. -/
structure UfsSuperblock.Defined (sb : UfsSuperblock) : Prop where
  ipg : sb.sbIpg ≠ 0
  bshift : ShiftCount sb.sbBshift.toInt
  fshift : ShiftCount sb.sbFshift.toInt
  fsbtodb : ShiftCount sb.sbFsbtodb.toInt
  fragments : ShiftCount (sb.sbBshift.toInt - sb.sbFshift.toInt)
  inopb : ShiftCount (sb.sbBshift.toInt - 8)
  pointers : ShiftCount (sb.sbBshift.toInt - 3)
  slot : ∀ inode : UInt32, inode.toNat % 2 ^ (sb.sbBshift.toInt - 8).toNat * 256 + 256 ≤
    2 ^ sb.sbBshift.toInt.toNat

variable {order : ByteOrder} {sdev : StorageDevice} {offs : List UInt64} {off : UInt64}
  {buf iblock iblock' : ℕ → UInt8} {m : UfsMounted}

theorem ufsCheckBsize_accepts {m' : UfsMounted} (h : ufsCheckBsize m' = .ok m) :
    m.umSb.sbBshift ≤ 16 := by
  rw [ufsCheckBsize] at h
  split_ifs at h with hl
  cases h
  exact Int32.not_lt.mp hl

theorem ufsCheckSuperblock_accepts (h : ufsCheckSuperblock order buf off = some (.ok m)) :
    m.umSb.sbBshift ≤ 16 := by
  rw [ufsCheckSuperblock] at h
  split_ifs at h
  · cases h
  · exact ufsCheckBsize_accepts (Option.some.inj h)
  · exact ufsCheckBsize_accepts (Option.some.inj h)

theorem ufsReadSuperblock_accepts
    (h : ufsReadSuperblock order sdev offs iblock = .ok (iblock', .ok m)) :
    m.umSb.sbBshift ≤ 16 := by
  induction offs generalizing iblock with
  | nil => cases h
  | cons off offs ih =>
    obtain ⟨⟨buf, r⟩, -, h⟩ := bind_eq_ok.mp h
    cases r with
    | error e => exact ih h
    | ok u =>
      dsimp only at h
      split at h
      · exact ih h
      · rename_i hc
        cases h
        exact ufsCheckSuperblock_accepts hc

theorem ufsReadInode_returns {um : UfsVolume} {inode : UInt32} (hipg : um.umSb.sbIpg ≠ 0) :
    Ensures (ufsReadInode um inode iblock) fun _ => True := by
  rw [ufsReadInode, ufsInodeBlock, if_neg hipg]
  refine ufsReadFsbn_spec.bind ?_
  rintro ⟨-, _ | _⟩ -
  · exact .ret trivial
  · exact .ret trivial

/-- **What the checks leave open**: the computations on a mounted volume are defined exactly if
cylinder groups have inodes, a block is made of fragments and has room for an inode, and the number
of a fragment can be shifted. Every inode can then be read, as far as the device goes. -/
theorem mount_defined_iff
    (h : ufsReadSuperblock order sdev ufsSuperblockOffsets iblock = .ok (iblock', .ok m)) :
    (m.umSb.Defined ↔ m.umSb.sbIpg ≠ 0 ∧ 8 ≤ m.umSb.sbBshift.toInt ∧
      0 ≤ m.umSb.sbFshift.toInt ∧ m.umSb.sbFshift.toInt ≤ m.umSb.sbBshift.toInt ∧
      0 ≤ m.umSb.sbFsbtodb.toInt ∧ m.umSb.sbFsbtodb.toInt ≤ 63) ∧
    (m.umSb.Defined → ∃ um : UfsVolume, um.umSb = m.umSb ∧ um.swap = m.swap ∧ um.umSdev = sdev ∧
      um.order = order ∧ ∀ inode iblock, Ensures (ufsReadInode um inode iblock) fun _ => True) := by
  have hle : m.umSb.sbBshift.toInt ≤ 16 := Int32.le_iff_toInt_le.mp (ufsReadSuperblock_accepts h)
  refine ⟨⟨fun hd => ?_, ?_⟩, fun hd => ?_⟩
  · exact ⟨hd.ipg, Int.sub_nonneg.mp hd.inopb.1, hd.fshift.1, Int.sub_nonneg.mp hd.fragments.1,
      hd.fsbtodb⟩
  · rintro ⟨hipg, hb, hf, hfb, hd⟩
    refine ⟨hipg, ⟨by omega, by omega⟩, ⟨hf, by omega⟩, hd, ⟨by omega, by omega⟩,
      ⟨by omega, by omega⟩, ⟨by omega, by omega⟩, fun inode => ?_⟩
    -- the inodes of a block fill it
    have hs : m.umSb.sbBshift.toInt.toNat = (m.umSb.sbBshift.toInt - 8).toNat + 8 := by omega
    rw [hs, Nat.pow_add]
    omega
  · have hb : m.umSb.sbBshift.toInt64.toUInt64.toNat ≤ 16 := by
      have hb₀ := hd.bshift.1
      rw [show m.umSb.sbBshift.toInt64.toUInt64.toNat = _ from toNat_sext
        (Int.toNat_of_nonneg hb₀).symm]
      omega
    exact ⟨⟨order, m.swap, sdev, m.umSb, hb⟩, rfl, rfl, rfl, rfl, fun _ _ =>
      ufsReadInode_returns hd.ipg⟩

/-- A superblock for blocks and fragments of 512 bytes, with 64 fragments and some inodes in a
cylinder group. -/
def superblockBytes (ipg : UInt8) : ℕ → UInt8
  | 0x53 => 9 | 0x57 => 9 | 0xbb => ipg | 0xbf => 64
  | 0x55c => 0x19 | 0x55d => 0x54 | 0x55e => 0x01 | 0x55f => 0x19
  | _ => 0

def superblockDevice (ipg : UInt8) : StorageDevice :=
  ⟨8192, fun _ => .ok (superblockBytes ipg), 13, rfl⟩

/-- A volume with 64 inodes in a cylinder group. -/
theorem mount_defined_iff_small : ∃ iblock m,
    ufsReadSuperblock .big (superblockDevice 64) ufsSuperblockOffsets (fun _ => 0) =
      .ok (iblock, .ok m) ∧ m.umSb.Defined :=
  have hm : ufsReadSuperblock .big (superblockDevice 64) ufsSuperblockOffsets (fun _ => 0) =
    .ok (_, .ok ⟨false, ⟨0, 9, 9, 0, 64, 64⟩, 65536⟩) := rfl
  ⟨_, _, hm, (mount_defined_iff hm).1.mpr (by decide)⟩

/-- **A superblock is accepted that has no inodes in a cylinder group**: the first inode that is
read is divided by zero. -/
theorem mount_divides_by_zero : ∃ iblock m, ∃ um : UfsVolume,
    ufsReadSuperblock .big (superblockDevice 0) ufsSuperblockOffsets (fun _ => 0) =
      .ok (iblock, .ok m) ∧ um.umSb = m.umSb ∧ um.umSdev = superblockDevice 0 ∧
      ∀ inode iblock, ufsReadInode um inode iblock = .error .fault :=
  ⟨_, ⟨false, ⟨0, 9, 9, 0, 0, 64⟩, 65536⟩,
    ⟨.big, false, superblockDevice 0, ⟨0, 9, 9, 0, 0, 64⟩, by decide⟩, rfl, rfl, rfl,
    fun _ _ => rfl⟩

end Glatt
