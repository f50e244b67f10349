import Glatt.Storage.UfsDirectory

/-!
# Where a UFS volume has its inodes and blocks

`ufs_inode_block`, with the index that `ufs_read_inode` computes, puts the inodes of a cylinder
group one behind the other, and `ufs_map_block` finds the blocks of a file by their numbers. Both
are compared with the definitions of UFS2: an inode with its place on the device, a block with the
tree behind the inode.

## Main definitions

* `Geometry`, `inodePlace`: the places of inodes in UFS2
* `UfsVolume.MapsBlock`: the function finds the block

## Main results

* `inode_placement`: every inode is read from a place of its own
* `inode_placement_overlaps`: unless `sb_fsbtodb` is larger than `sb_fshift`
* `map_block_iff`: `ufs_map_block` follows the tree up to the blocks of the single indirect block
* `map_block_panics`: the next block makes it panic
-/

namespace Glatt

open Imperative Buffer

/-! ## Inodes -/

theorem toNat_toUInt32 {x : Int32} {k : ℕ} (h : x.toInt = k) : x.toUInt32.toNat = k := by
  have hb : x.toBitVec.toInt = k := h
  rw [BitVec.toInt_eq_toNat_cond] at hb
  show x.toBitVec.toNat = k
  split at hb <;> omega

theorem toNat_sext {x : Int32} {k : ℕ} (h : x.toInt = k) : (sext x).toNat = k := by
  have hb : x.toInt64.toBitVec.toInt = k := x.toInt_toInt64.trans h
  rw [BitVec.toInt_eq_toNat_cond] at hb
  show x.toInt64.toBitVec.toNat = k
  split at hb <;> omega

theorem toInt_sub {x y : Int32} {k l : ℕ} (hx : x.toInt = k) (hy : y.toInt = l) (hle : l ≤ k) :
    (x - y).toInt = (k - l : ℕ) := by
  have hlt := x.toInt_lt
  rw [Int32.toInt_sub, Int.bmod_eq_of_le (by omega) (by omega)]
  omega

namespace UfsVolume

variable {um : UfsVolume}

/-- **The fields of a superblock fit together**: a block is made of fragments and holds an inode at
least, a cylinder group has whole blocks of inodes, and they are in the group. -/
structure Geometry (um : UfsVolume) (b f d g p o : ℕ) : Prop where
  bshift : um.umSb.sbBshift.toInt = b
  fshift : um.umSb.sbFshift.toInt = f
  fsbtodb : um.umSb.sbFsbtodb.toInt = d
  ipg : um.umSb.sbIpg.toInt = g
  fpg : um.umSb.sbFpg.toInt = p
  iboff : um.umSb.sbIboff.toInt = o
  fsbtodb_le : d ≤ f
  fshift_le : f ≤ b
  bshift_ge : 8 ≤ b
  ipg_pos : 0 < g
  ipg_dvd : 2 ^ (b - 8) ∣ g
  area : o + g / 2 ^ (b - 8) * 2 ^ (b - f) ≤ p

/-- **Where an inode is on the device**: behind the inodes before it in its cylinder group. -/
def inodePlace (f g p o n : ℕ) : ℕ := (n / g * p + o) * 2 ^ f + n % g * 256

/-- `ufs_read_inode` decodes an inode from the 256 bytes at an address of the device, if it can read
the block around them. -/
def ReadsInodeAt (um : UfsVolume) (n : UInt32) (addr : ℕ) : Prop :=
  ∀ iblock, Ensures (ufsReadInode um n iblock) fun r =>
    (∃ e fsbn, r.2 = .error e ∧ ufsInodeBlock um n = .ok fsbn ∧ um.fsBlock fsbn = .error e) ∨
    ∃ slot : ℕ → UInt8, (∀ j < 256, um.umSdev.byteAt (UInt64.ofNat (addr + j)) = .ok (slot j)) ∧
      r.2 = .ok (if um.swap then ufsInodeSwap (um.loadInode slot 0) else um.loadInode slot 0)

theorem loadInode_congr {buf buf' : ℕ → UInt8} {p q : ℕ}
    (h : ∀ j < 256, buf (p + j) = buf' (q + j)) : um.loadInode buf p = um.loadInode buf' q := by
  have hl : ∀ k n, k + n ≤ 256 → load um.order buf (p + k) n = load um.order buf' (q + k) n := by
    intro k n hk
    refine load_congr fun i hi => ?_
    rw [Nat.add_assoc, Nat.add_assoc]
    exact h (k + i) (by omega)
  have hm : load um.order buf p 2 = load um.order buf' q 2 := hl 0 2 (by decide)
  simp (disch := omega) only [loadInode, hm, Nat.add_assoc, hl]

section Geometry

variable {b f d g p o : ℕ} {n : UInt32} (hg : um.Geometry b f d g p o)
include hg

theorem Geometry.bshift_le : b ≤ 16 := by
  have hle : (sext um.umSb.sbBshift).toNat ≤ 16 := um.bshift_le
  rwa [toNat_sext hg.bshift] at hle

theorem Geometry.toNat_log2Inopb : um.log2Inopb.toNat = b - 8 := by
  have h8 : 8 ≤ sext um.umSb.sbBshift := by
    rw [UInt64.le_iff_toNat_le, toNat_sext hg.bshift]
    exact hg.bshift_ge
  rw [log2Inopb, UInt64.toNat_sub_of_le _ _ h8, toNat_sext hg.bshift]
  rfl

theorem Geometry.toNat_inopb : um.inopb.toNat = 2 ^ (b - 8) := by
  have hle := hg.bshift_le
  have hp : 2 ^ (b - 8) ≤ 2 ^ 8 := Nat.pow_le_pow_right (by decide) (by omega)
  have hc : (b - 8) % 2 ^ 32 % 32 = b - 8 := by omega
  rw [inopb, UInt32.toNat_shiftLeft, UInt64.toNat_toUInt32, hg.toNat_log2Inopb, hc]
  show 1 <<< _ % _ = _
  rw [Nat.one_shiftLeft, Nat.mod_eq_of_lt (by omega)]

theorem Geometry.blocks_bytes (k : ℕ) : k * 2 ^ (b - f) * 2 ^ f = k * 2 ^ (b - 8) * 256 := by
  have hb : 2 ^ (b - f) * 2 ^ f = 2 ^ (b - 8) * 2 ^ 8 := by
    rw [← Nat.pow_add, ← Nat.pow_add, Nat.sub_add_cancel hg.fshift_le,
      Nat.sub_add_cancel hg.bshift_ge]
  rw [Nat.mul_assoc, hb, ← Nat.mul_assoc]
  rfl

theorem Geometry.place_eq (n : ℕ) : inodePlace f g p o n =
    (n / g * p + o + n % g / 2 ^ (b - 8) * 2 ^ (b - f)) * 2 ^ f + n % 2 ^ (b - 8) * 256 := by
  have hm : n % g % 2 ^ (b - 8) = n % 2 ^ (b - 8) := Nat.mod_mod_of_dvd _ hg.ipg_dvd
  have hd := Nat.div_add_mod (n % g) (2 ^ (b - 8))
  rw [inodePlace, Nat.add_mul _ (_ * 2 ^ (b - f)), hg.blocks_bytes, Nat.add_assoc, ← Nat.add_mul,
    ← hm, Nat.mul_comm (n % g / _), hd]

theorem Geometry.place_lt {n m : ℕ} (hlt : n < m) :
    inodePlace f g p o n + 256 ≤ inodePlace f g p o m := by
  have hmod := n.mod_lt hg.ipg_pos
  have hn := n.div_add_mod g
  have hm := m.div_add_mod g
  rw [inodePlace, inodePlace]
  rcases Nat.lt_or_ge (n / g) (m / g) with hgr | hgr
  · have hb : g / 2 ^ (b - 8) * 2 ^ (b - f) * 2 ^ f = g * 256 := by
      rw [hg.blocks_bytes, Nat.div_mul_cancel hg.ipg_dvd]
    have ha := Nat.mul_le_mul_right (2 ^ f) (le_trans (Nat.le_add_left _ o) hg.area)
    have hnx := Nat.mul_le_mul_right p hgr
    have hs : (n / g * p + o + p) * 2 ^ f ≤ (m / g * p + o) * 2 ^ f := by
      refine Nat.mul_le_mul_right _ ?_
      rw [Nat.succ_mul] at hnx
      omega
    rw [Nat.add_mul _ p] at hs
    omega
  · have hsm : n / g = m / g := le_antisymm (Nat.div_le_div_right hlt.le) hgr
    rw [hsm] at hn ⊢
    omega

theorem Geometry.inodeBlock (hf : inodePlace f g p o n.toNat + 256 ≤ 2 ^ 64) : ∃ fsbn,
    ufsInodeBlock um n = .ok fsbn ∧
      fsbn.toNat = n.toNat / g * p + o + n.toNat % g / 2 ^ (b - 8) * 2 ^ (b - f) := by
  have hle := hg.bshift_le
  have hne : um.umSb.sbIpg ≠ 0 := by
    intro hz
    have hipg := hg.ipg
    have hpos := hg.ipg_pos
    rw [hz] at hipg
    change 0 = (g : ℤ) at hipg
    omega
  have hl : um.log2Inopb.toUInt32.toNat % 32 = b - 8 := by
    rw [UInt64.toNat_toUInt32, hg.toNat_log2Inopb]
    omega
  have hb : (((n % um.umSb.sbIpg.toUInt32) >>> um.log2Inopb.toUInt32).toUInt64 <<<
      sext (um.umSb.sbBshift - um.umSb.sbFshift)).toNat =
        n.toNat % g / 2 ^ (b - 8) * 2 ^ (b - f) := by
    have hlt : n.toNat % g / 2 ^ (b - 8) < 2 ^ 32 :=
      (Nat.div_le_self _ _).trans_lt ((Nat.mod_le _ _).trans_lt n.toNat_lt)
    have hpow : 2 ^ (b - f) ≤ 2 ^ 16 := Nat.pow_le_pow_right (by decide) (by omega)
    have hp := Nat.mul_lt_mul'' hlt (Nat.lt_succ_of_le hpow)
    rw [UInt64.toNat_shiftLeft, UInt32.toNat_toUInt64, UInt32.toNat_shiftRight, UInt32.toNat_mod,
      toNat_toUInt32 hg.ipg, hl, toNat_sext (toInt_sub hg.bshift hg.fshift hg.fshift_le),
      Nat.shiftRight_eq_div_pow, Nat.mod_eq_of_lt (a := b - f) (by omega), Nat.shiftLeft_eq,
      Nat.mod_eq_of_lt (by omega)]
  rw [hg.place_eq] at hf
  have hs := Nat.le_mul_of_pos_right
    (n.toNat / g * p + o + n.toNat % g / 2 ^ (b - 8) * 2 ^ (b - f)) f.two_pow_pos
  refine ⟨_, by rw [ufsInodeBlock, if_neg hne]; rfl, ?_⟩
  rw [UInt64.toNat_add, UInt64.toNat_add, UInt64.toNat_mul, hb, toNat_sext hg.fpg,
    toNat_sext hg.iboff, UInt32.toNat_toUInt64, UInt32.toNat_div, toNat_toUInt32 hg.ipg,
    Nat.mod_eq_of_lt (a := n.toNat / g * p) (by omega),
    Nat.mod_eq_of_lt (by omega), Nat.mod_eq_of_lt (by omega)]

theorem Geometry.physical (fsbn : UInt64) (hft : fsbn.toNat * 2 ^ f < 2 ^ 64) :
    (um.physical fsbn).toNat = fsbn.toNat * 2 ^ f := by
  have hle := hg.bshift_le
  have hf := hg.fshift_le
  have hd := hg.fsbtodb_le
  have hp : fsbn.toNat * 2 ^ d * 2 ^ (f - d) = fsbn.toNat * 2 ^ f := by
    rw [Nat.mul_assoc, ← Nat.pow_add, Nat.add_sub_cancel' hd]
  have hfr := Nat.le_mul_of_pos_right (fsbn.toNat * 2 ^ d) (Nat.two_pow_pos (f - d))
  have hs : (um.umSb.sbFshift - um.umSb.sbFsbtodb).toUInt32.toUInt64.toNat = f - d := by
    rw [UInt32.toNat_toUInt64, toNat_toUInt32 (toInt_sub hg.fshift hg.fsbtodb hd)]
  rw [UfsVolume.physical, UInt64.toNat_shiftLeft, UInt64.toNat_shiftLeft, toNat_sext hg.fsbtodb,
    hs, Nat.mod_eq_of_lt (a := d) (by omega), Nat.mod_eq_of_lt (a := f - d) (by omega),
    Nat.shiftLeft_eq, Nat.shiftLeft_eq, Nat.mod_eq_of_lt (a := fsbn.toNat * 2 ^ d) (by omega), hp,
    Nat.mod_eq_of_lt hft]

theorem Geometry.readsInodeAt (hf : inodePlace f g p o n.toNat + 256 ≤ 2 ^ 64) :
    um.ReadsInodeAt n (inodePlace f g p o n.toNat) := by
  obtain ⟨fsbn, hfb, hv⟩ := hg.inodeBlock hf
  have hp := hg.place_eq n.toNat
  rw [← hv] at hp
  have hph := hg.physical fsbn (by omega)
  have hs : (n % um.inopb).toNat = n.toNat % 2 ^ (b - 8) := by
    rw [UInt32.toNat_mod, hg.toNat_inopb]
  have hin : ∀ j < 256, (n % um.inopb).toNat * 256 + j < um.bsize.toNat := by
    intro j hj
    have hsz : 2 ^ b = 2 ^ (b - 8) * 2 ^ 8 := by
      rw [← Nat.pow_add, Nat.sub_add_cancel hg.bshift_ge]
    rw [um.toNat_bsize, toNat_sext hg.bshift]
    omega
  intro iblock
  rw [ufsReadInode, hfb]
  refine ufsReadFsbn_spec.bind ?_
  rintro ⟨iblock', r⟩ ⟨rfl, hb⟩
  cases hfs : um.fsBlock fsbn with
  | error e => exact .ret (.inl ⟨e, fsbn, rfl, rfl, hfs⟩)
  | ok c =>
    refine .ret (.inr ⟨fun j => c ((n % um.inopb).toNat * 256 + j), fun j hj => ?_, ?_⟩)
    · rw [← contents_apply hfs (hin j hj)]
      refine congrArg _ (UInt64.toNat_inj.mp ?_)
      rw [UInt64.toNat_add, UInt64.toNat_ofNat', UInt64.toNat_ofNat']
      omega
    · have hl : um.loadInode iblock' ((n % um.inopb).toNat * 256) =
          um.loadInode (fun j => c ((n % um.inopb).toNat * 256 + j)) 0 :=
        loadInode_congr fun j hj => by
          rw [Nat.zero_add]
          exact hb c hfs _ (hin j hj)
      rw [hl]

end Geometry

end UfsVolume

open UfsVolume

/-- **Inodes have places of their own**: an inode is read at the place that the definition of UFS2
gives it, and the places of two inodes do not overlap. -/
theorem inode_placement {um : UfsVolume} {b f d g p o : ℕ} (hg : um.Geometry b f d g p o) :
    (∀ n : UInt32, inodePlace f g p o n.toNat + 256 ≤ 2 ^ 64 →
      um.ReadsInodeAt n (inodePlace f g p o n.toNat)) ∧
    ∀ n m : UInt32, n ≠ m →
      inodePlace f g p o n.toNat + 256 ≤ inodePlace f g p o m.toNat ∨
        inodePlace f g p o m.toNat + 256 ≤ inodePlace f g p o n.toNat := by
  refine ⟨fun n hf => hg.readsInodeAt hf, fun n m hne => ?_⟩
  rcases Nat.lt_or_gt_of_ne (mt UInt32.toNat_inj.mp hne) with hlt | hlt
  · exact .inl (hg.place_lt hlt)
  · exact .inr (hg.place_lt hlt)

/-- The second inode of the second group of a small volume. -/
theorem inode_placement_small : smallVolume.Geometry 9 9 0 64 64 0 ∧
    smallVolume.ReadsInodeAt 65 (64 * 512 + 256) := by
  have hg : smallVolume.Geometry 9 9 0 64 64 0 :=
    ⟨rfl, rfl, rfl, rfl, rfl, rfl, by decide, by decide, by decide, by decide, by decide, by decide⟩
  exact ⟨hg, (inode_placement hg).1 65 (by decide)⟩

/-- **With a device block larger than a fragment**, `sb_fsbtodb` over `sb_fshift`, the count of the
second shift is negative, and the second block of inodes is read in the place of the first. -/
theorem inode_placement_overlaps : ∃ um : UfsVolume, um.umSb = ⟨0, 9, 9, 10, 64, 64⟩ ∧
    ∀ iblock, ufsReadInode um 2 iblock = ufsReadInode um 0 iblock := by
  let um := { smallVolume with umSb := ⟨0, 9, 9, 10, 64, 64⟩, bshift_le := by decide }
  refine ⟨um, rfl, fun iblock => ?_⟩
  have hs : ufsInodeBlock um 2 = .ok 1 := congrArg Except.ok (by decide)
  have hf : ufsInodeBlock um 0 = .ok 0 := congrArg Except.ok (by decide)
  have hp : um.physical 1 = um.physical 0 := by decide
  have hsl : 2 % um.inopb = 0 % um.inopb := by decide
  rw [ufsReadInode, ufsReadInode, hs, hf, ok_bind, ok_bind, ufsReadFsbn, ufsReadFsbn, hp, hsl]

/-! ## Blocks -/

def UfsVolume.indirectIndex (um : UfsVolume) (off : UInt64) : ℕ :=
  (ufsIndirectLevel um
    ((off.toInt64 >>> (sext um.umSb.sbBshift).toInt64).toUInt64 - 12)).2.toUInt32.toNat

/-- **`ufs_map_block` finds a block as the tree has it**, with an index inside of the indirect
block. -/
def UfsVolume.MapsBlock (um : UfsVolume) (inode : Ufs2Inode) (off : UInt64) (iblock : ℕ → UInt8) :
    Prop :=
  Ensures (ufsMapBlock um inode off iblock)
    (fun r => r.2 = um.blockNumber inode (off.toNat / um.bsize.toNat)) ∧
  (12 ≤ off.toNat / um.bsize.toNat → um.indirectIndex off < um.pointers)

section Blocks

variable {um : UfsVolume} {inode : Ufs2Inode} {off : UInt64} {iblock : ℕ → UInt8}

/-- **The block map follows the tree as far as the single indirect block leads**: with `N` numbers
in a block, up to the block `12 + N`. -/
theorem map_block_iff
    (hl : off.toNat / um.bsize.toNat < 12 + um.pointers + um.pointers ^ 2 + um.pointers ^ 3) :
    um.MapsBlock inode off iblock ↔ off.toNat / um.bsize.toNat < 12 + um.pointers := by
  have hle := um.bsize_le
  have hp : um.pointers = um.bsize.toNat / 8 := rfl
  have ho : off.toNat < 2 ^ 63 := by
    have h₁ : um.pointers ≤ 2 ^ 13 := by omega
    have h₂ := Nat.pow_le_pow_left h₁ 2
    have h₃ := Nat.pow_le_pow_left h₁ 3
    have hmul := (Nat.div_lt_iff_lt_mul um.bsize_pos).mp (show off.toNat / _ < 2 ^ 40 by omega)
    omega
  have hlb := um.toNat_lblock ho
  rw [MapsBlock, indirectIndex]
  constructor
  · rintro ⟨hm, -⟩
    by_contra hf
    -- for a block further on it panics
    have h8 : 8 ≤ um.bsize.toNat := by
      by_contra hs
      have hz : um.pointers = 0 := by omega
      rw [hz] at hl
      omega
    rw [ufsMapBlock_far h8 ho hf] at hm
    exact not_ensures_error hm
  · intro hn
    refine ⟨ufsMapBlock_spec hn, fun h1 => ?_⟩
    rw [← hlb] at h1 hn
    have hge : 12 ≤ (off.toInt64 >>> (sext um.umSb.sbBshift).toInt64).toUInt64 :=
      UInt64.le_iff_toNat_le.mpr h1
    rw [(ufsIndirectLevel_eq_zero h1 (by omega)).1 hn, UInt64.toNat_toUInt32,
      UInt64.toNat_sub_of_le _ _ hge]
    show (_ - 12) % _ < _
    omega

end Blocks

def indirectVolume : UfsVolume :=
  { smallVolume with
    umSdev := ⟨512, fun a => .ok fun i => if a = 5 * 512 ∧ i = 511 then 9 else 0,
      exists_pow_512⟩ }

/-- The last block that an inode leads to through its single indirect block. -/
theorem map_block_iff_indirect :
    indirectVolume.MapsBlock ⟨0, 0, fun _ => 0, fun _ => 5⟩ (75 * 512) (fun _ => 0) ∧
      indirectVolume.blockNumber ⟨0, 0, fun _ => 0, fun _ => 5⟩ 75 = .ok 9 :=
  ⟨(map_block_iff (by decide)).mpr (by decide), by decide +kernel⟩

/-- **The first block behind the single indirect block** makes the kernel panic, although the inode
has no such block. -/
theorem map_block_panics : smallVolume.pointers = 64 ∧
    ufsMapBlock smallVolume ⟨0, 0, fun _ => 0, fun _ => 0⟩ (76 * 512) (fun _ => 0) =
      .error .panic :=
  ⟨rfl, rfl⟩

end Glatt
