import Glatt.Core.String
import Glatt.Lib.Transition
import Glatt.Storage.Ufs

/-!
# Directory reads on a UFS mount

The operations of `ufs_fs_ops` on a mount, and which of them a directory read depends on.
`ufs_read_directory` reads a block of the directory only at the beginning of the block. At an offset
further on it takes what is in `um_dc.d_block`, which belongs to the mount: the last block of
whatever directory was read, or looked up in, last.

## Main definitions

* `UfsStep`: operations on a mount
* `UfsVolume.Stored`: the entry at an offset of a directory

## Main results

* `ufs_directory_read_stored`: a read at the beginning of a block, or in the block that was filled
  last, returns the entry stored there
-/

namespace Glatt

open Imperative Transition Buffer Function List

/-! ## Names -/

theorem strlcpy_eq_take {src : ℕ → UInt8} {s : List UInt8} (h : StrAt src 0 s) (len : ℕ) :
    strlcpy src len = s.take (len - 1) := by
  have hslice : ∀ n ≤ s.length, slice src 0 n = s.take n := fun n hn => by
    refine ext_getElem? fun i => ?_
    by_cases hi : i < n
    · rw [getElem?_eq_getElem (by simpa using hi), getElem_slice, getElem?_take, if_pos hi,
        h.byte i (by omega)]
      rfl
    · rw [getElem?_eq_none (by simpa using hi), getElem?_eq_none (by rw [length_take]; omega)]
  have hpos : ∀ n, ∀ b ∈ s.take n, decide (b ≠ 0) = true := fun n b hb =>
    decide_eq_true fun h0 => h.nonzero (h0 ▸ mem_of_mem_take hb)
  rw [strlcpy]
  rcases Nat.lt_or_ge s.length (len - 1) with hlt | hle
  · -- the bytes from the NUL byte on are not taken
    obtain ⟨m, hm⟩ := Nat.exists_eq_add_of_lt hlt
    have hend : src s.length = 0 := (congrArg src (Nat.zero_add _)).symm.trans h.terminated
    rw [hm, Nat.add_assoc, slice_add, hslice _ le_rfl, takeWhile_append_of_pos (hpos _),
      take_length, take_of_length_le (by omega), Nat.add_comm m 1, slice_add]
    simp [slice, hend]
  · have htake := @takeWhile_append_of_pos _ (fun b => decide (b ≠ 0)) _ [] (hpos (len - 1))
    rw [hslice _ hle]
    simpa using htake

theorem strlcpy_copied {src dst : ℕ → UInt8} {s : List UInt8} (h : StrAt src 0 s) {len : ℕ}
    (hlen : 0 < len) (hmem : s.length < memoryEnd) :
    Ensures (Cstr.strlcpy dst (.quiet src 0 : ByteSource Empty) len).outcome fun r =>
      StrAt r.1 0 (strlcpy src len) := by
  rw [strlcpy_eq_take h]
  exact (strlcpy_spec h hlen hmem).mono fun r hr => hr.2.1
/-! ## Operations -/

/-- `struct ufs_directory_context`: the inode of an open directory. -/
structure UfsDirectoryContext where
  dIn : Ufs2Inode

/-- `struct ufs_file_context`: the inode of an open file, and its own block. -/
structure UfsFileContext where
  fIn : Ufs2Inode
  fBlock : ℕ → UInt8

/-- The common part of the two opens: the inode of a path, if it is of the wanted type. -/
def ufsOpen (fuel : ℕ) (um : UfsVolume) (ftype : UInt16) (path : List UInt8) (s : UfsBlocks) :
    Outcome (UfsBlocks × Except Errno Ufs2Inode) := do
  let (s, r) ← ufsLookup fuel um path s
  match r with
  | .error e => pure (s, .error e)
  | .ok inode =>
    let (iblock, r) ← ufsReadInode um inode s.umIblock
    let s := { s with umIblock := iblock }
    match r with
    | .error e => pure (s, .error e)
    | .ok dIn => pure (s, if dIn.ftype ≠ ftype then .error .wrongKind else .ok dIn)

def ufsOpDirectoryOpen (fuel : ℕ) (um : UfsVolume) (path : List UInt8) (s : UfsBlocks) :
    Outcome (UfsBlocks × Except Errno UfsDirectoryContext) := do
  let (s, r) ← ufsOpen fuel um 0x04 path s
  pure (s, r.map UfsDirectoryContext.mk)

def ufsOpFileOpen (fuel : ℕ) (um : UfsVolume) (path : List UInt8) (fBlock : ℕ → UInt8)
    (s : UfsBlocks) : Outcome (UfsBlocks × Except Errno UfsFileContext) := do
  let (s, r) ← ufsOpen fuel um 0x08 path s
  pure (s, r.map fun fIn => ⟨fIn, fBlock⟩)

/-- What a directory read returns: the name of an entry, the offset of the next one, and how many
entries were read. -/
structure UfsRead where
  name : Option (List UInt8)
  offp : UInt64
  cntp : UInt64
  deriving DecidableEq

def ufsOpDirectoryRead (um : UfsVolume) (dc : UfsDirectoryContext) (offset : UInt64)
    (s : UfsBlocks) : Outcome (UfsBlocks × Except Errno UfsRead) :=
  if dc.dIn.inSize ≤ offset then pure (s, .ok ⟨none, 0, 0⟩)
  else do
    let (s, r) ← ufsReadDirectory um dc.dIn offset 1024 s
    match r with
    | .error e => pure (s, .error e)
    | .ok (de, name) => pure (s, .ok ⟨some name, offset + de.deEntrylen.toUInt64, 1⟩)

/-- `ufs_op_file_read`, with what it leaves in `um_iblock` and in the block of the file. -/
def ufsOpFileRead (um : UfsVolume) (fc : UfsFileContext) (off : Int64) (len : UInt64)
    (iblock : ℕ → UInt8) :
    Outcome (((ℕ → UInt8) × UfsFileContext) × Except Errno (List UInt8)) :=
  let offset := (off.toUInt64 % um.bsize).toUInt32
  let bshift := (sext um.umSb.sbBshift).toInt64
  let address := ((off >>> bshift) <<< bshift).toUInt64
  if fc.fIn.inSize < off.toUInt64 then pure ((iblock, fc), .error .invalid)
  else if off.toUInt64 = fc.fIn.inSize then pure ((iblock, fc), .ok [])
  else do
    let ((iblock, block), r) ← ufsReadBlock um fc.fIn address iblock fc.fBlock
    let fc := { fc with fBlock := block }
    match r with
    | .error e => pure ((iblock, fc), .error e)
    | .ok () =>
      let fits := if len < um.bsize - offset.toUInt64 then len else um.bsize - offset.toUInt64
      let left := fc.fIn.inSize - off.toUInt64
      let len := if fits < left then fits else left
      pure ((iblock, fc), .ok (slice fc.fBlock offset.toNat len.toNat))

/-! ## A mount in use -/

variable {δ φ : Type} [DecidableEq δ] [DecidableEq φ]

/-- The buffers of a mount, and what is open on it. -/
structure UfsState (δ φ : Type) where
  blocks : UfsBlocks
  dirs : δ → Option UfsDirectoryContext
  files : φ → Option UfsFileContext

/-- The operations on a mount. -/
inductive UfsEvent (δ φ : Type)
  | directoryOpen (d : δ) (path : List UInt8)
  | directoryRead (d : δ) (off : UInt64)
  | directoryClose (d : δ)
  | fileOpen (f : φ) (path : List UInt8)
  | fileRead (f : φ) (off : Int64) (len : UInt64)
  | fileClose (f : φ)

/-- The operations on a mount, as they return. -/
inductive UfsStep (um : UfsVolume) : UfsState δ φ → UfsEvent δ φ → UfsState δ φ → Prop
  | directoryOpen {s d p n b r} (hclosed : s.dirs d = none)
      (hopen : ufsOpDirectoryOpen n um p s.blocks = .ok (b, r)) :
      UfsStep um s (.directoryOpen d p) { s with blocks := b, dirs := update s.dirs d r.toOption }
  | directoryRead {s d o c b r} (hdir : s.dirs d = some c)
      (hread : ufsOpDirectoryRead um c o s.blocks = .ok (b, r)) :
      UfsStep um s (.directoryRead d o) { s with blocks := b }
  | directoryClose {s d} :
      UfsStep um s (.directoryClose d) { s with dirs := update s.dirs d none }
  | fileOpen {s f p n m b r} (hclosed : s.files f = none)
      (hopen : ufsOpFileOpen n um p m s.blocks = .ok (b, r)) :
      UfsStep um s (.fileOpen f p) { s with blocks := b, files := update s.files f r.toOption }
  | fileRead {s f o n c i c' r} (hfile : s.files f = some c)
      (hread : ufsOpFileRead um c o n s.blocks.umIblock = .ok ((i, c'), r)) :
      UfsStep um s (.fileRead f o n) { s with
        blocks := { s.blocks with umIblock := i }, files := update s.files f (some c') }
  | fileClose {s f} :
      UfsStep um s (.fileClose f) { s with files := update s.files f none }

def startUfs (blocks : UfsBlocks) : UfsState δ φ := ⟨blocks, fun _ => none, fun _ => none⟩

/-- The block of a directory, by the offset of its beginning, that an operation leaves in
`um_dc.d_block`, after the one that was there. A lookup leaves some other block. -/
def fillStep (um : UfsVolume) (fill : Option (δ × UInt64)) : UfsEvent δ φ → Option (δ × UInt64)
  | .directoryOpen _ _ => none
  | .directoryRead d off => if off % um.bsize = 0 then some (d, off) else fill
  | .directoryClose d => if fill.map Prod.fst = some d then none else fill
  | .fileOpen _ _ => none
  | .fileRead _ _ _ => fill
  | .fileClose _ => fill

def lastFill (um : UfsVolume) (h : List (UfsState δ φ × UfsEvent δ φ)) : Option (δ × UInt64) :=
  (h.map Prod.snd).foldl (fillStep um) none

/-! ## Entries -/

/-- An entry at an offset of a block, with its name behind it: it lies in the block, and a zero ends
the name. -/
structure UfsVolume.EntryAt (um : UfsVolume) (block : ℕ → UInt8) (p : ℕ) (de : UfsDirectoryEntry)
    (name : List UInt8) : Prop where
  fits : p + 8 + de.deNamelen.toNat < um.bsize.toNat
  entry : um.loadEntry block p = de
  text : slice block (p + 8) de.deNamelen.toNat = name
  nonzero : 0 ∉ name
  terminated : block (p + 8 + de.deNamelen.toNat) = 0

/-- **The entry stored at an offset** of a directory. -/
structure UfsVolume.Stored (um : UfsVolume) (inode : Ufs2Inode) (off : UInt64)
    (de : UfsDirectoryEntry) (name : List UInt8) : Prop where
  size : off < inode.inSize
  block : ∃ block, um.fileBlock inode off = .ok block ∧
    um.EntryAt block (off % um.bsize).toNat de name

variable {um : UfsVolume} {block block' : ℕ → UInt8} {p : ℕ} {de : UfsDirectoryEntry}
  {name : List UInt8} {inode : Ufs2Inode} {off : UInt64} {s : UfsBlocks}

theorem UfsVolume.EntryAt.read (h : um.EntryAt block p de name)
    (hb : ∀ i < um.bsize.toNat, block' i = block i) :
    um.loadEntry block' p = de ∧ strlcpy (fun i => block' (p + 8 + i)) 1024 = name := by
  have hf := h.fits
  have hlen : de.deNamelen.toNat < 256 := de.deNamelen.toNat_lt
  constructor
  · rw [← h.entry, loadEntry, loadEntry, load_congr fun i _ => hb _ (by omega),
      load_congr fun i _ => hb _ (by omega), hb _ (by omega), hb _ (by omega)]
  · have ht : slice (fun i => block' (p + 8 + i)) 0 de.deNamelen.toNat = name := by
      rw [← h.text]
      refine slice_congr fun i hi => ?_
      rw [Nat.zero_add]
      exact hb _ (by omega)
    rw [← ht]
    refine takeWhile_slice (fun i hi => ?_) ?_ (by omega)
    · have hmem : block (p + 8 + i) ∈ name := by
        rw [← h.text]
        exact mem_map.mpr ⟨i, mem_range.mpr hi, rfl⟩
      rw [Nat.zero_add, hb _ (by omega)]
      exact decide_eq_true fun hz => h.nonzero (hz ▸ hmem)
    · rw [Nat.zero_add, hb _ (by omega), h.terminated]
      rfl

/-! ## Reads -/

theorem UfsVolume.toNat_offset (um : UfsVolume) (off : UInt64) :
    (off % um.bsize).toUInt32.toNat = (off % um.bsize).toNat := by
  have hle := um.bsize_le
  have hlt := Nat.mod_lt off.toNat um.bsize_pos
  rw [UInt64.toNat_toUInt32, UInt64.toNat_mod]
  omega

theorem UfsVolume.offset_eq_zero (um : UfsVolume) (off : UInt64) :
    (off % um.bsize).toUInt32 = 0 ↔ off % um.bsize = 0 := by
  rw [← UInt32.toNat_inj, um.toNat_offset, ← UInt64.toNat_inj]
  rfl

theorem ufsReadDirectory_start (hs : off % um.bsize = 0) (hn : um.Near off) {n : ℕ} :
    Ensures (ufsReadDirectory um inode off n s) fun r =>
      ∀ block, um.fileBlock inode off = .ok block → (∀ i < um.bsize.toNat, r.1.dBlock i = block i) ∧
        r.2 = .ok (um.loadEntry r.1.dBlock (off % um.bsize).toNat,
          strlcpy (fun i => r.1.dBlock ((off % um.bsize).toNat + 8 + i)) n) := by
  rw [ufsReadDirectory]
  rw [if_pos ((um.offset_eq_zero off).mpr hs), um.toNat_offset]
  refine (ufsReadBlock_spec hn).bind ?_
  rintro ⟨⟨iblock, block⟩, r⟩ ⟨rfl, hb⟩
  cases hf : um.fileBlock inode off with
  | error e => exact .ret nofun
  | ok c =>
    refine .ret ?_
    rintro _ ⟨⟩
    exact ⟨hb c hf, rfl⟩

theorem ufsReadDirectory_inside (hin : off % um.bsize ≠ 0) {n : ℕ} :
    ufsReadDirectory um inode off n s =
      pure (s, .ok (um.loadEntry s.dBlock (off % um.bsize).toNat,
        strlcpy (fun i => s.dBlock ((off % um.bsize).toNat + 8 + i)) n)) := by
  rw [ufsReadDirectory]
  rw [if_neg ((um.offset_eq_zero off).not.mpr hin), um.toNat_offset]
  rfl

def Filled (um : UfsVolume) (s : UfsState δ φ) (fill : Option (δ × UInt64)) : Prop :=
  ∀ d off, fill = some (d, off) → ∃ dc, s.dirs d = some dc ∧
    (off < dc.dIn.inSize → um.Near off → ∀ block, um.fileBlock dc.dIn off = .ok block →
      ∀ i < um.bsize.toNat, s.blocks.dBlock i = block i)

theorem Filled.step {s s' : UfsState δ φ} {fill : Option (δ × UInt64)} (h : Filled um s fill)
    {e : UfsEvent δ φ} (hs : UfsStep um s e s') :
    Filled um s' (fillStep um fill e) := by
  cases hs with
  | directoryOpen hc ho | fileOpen hc ho => intro d off hf; cases hf
  | fileRead hfi hr | fileClose => exact h
  | @directoryClose d =>
    intro d' off hf
    rw [fillStep] at hf
    split_ifs at hf with hsm
    obtain ⟨dc, hdc, hbl⟩ := h d' off hf
    have hne : d' ≠ d := fun heq => hsm (by rw [hf, heq]; rfl)
    exact ⟨dc, (update_of_ne hne ..).trans hdc, hbl⟩
  | @directoryRead d o dc b r hd hr =>
    intro d' off hf
    rw [fillStep] at hf
    split_ifs at hf with hst
    · cases hf
      refine ⟨dc, hd, fun hsz hn block hbl => ?_⟩
      rw [ufsOpDirectoryRead, if_neg (UInt64.not_le.mpr hsz)] at hr
      obtain ⟨⟨b', r'⟩, hr', hb⟩ := bind_eq_ok.mp hr
      have hfl := ((ufsReadDirectory_start hst hn).yields _ hr' block hbl).1
      cases r' with
      | error e | ok entry =>
        cases hb
        exact hfl
    · obtain ⟨dc', hdc', hbl⟩ := h d' off hf
      -- nothing is read there
      have hsm : b = s.blocks := by
        rw [ufsOpDirectoryRead] at hr
        split_ifs at hr with hsz
        · cases hr
          rfl
        · rw [ufsReadDirectory_inside hst] at hr
          cases hr
          rfl
      exact ⟨dc', hdc', hsm ▸ hbl⟩

theorem filled_of_run {blocks : UfsBlocks} {h : List (UfsState δ φ × UfsEvent δ φ)}
    {s : UfsState δ φ} (hr : Run (UfsStep um) (startUfs blocks) h s) :
    Filled um s (lastFill um h) := by
  refine Run.invariant ?_ ?_ hr
  · intro d off hfl
    cases hfl
  · intro h s e s' _ hf hs
    rw [lastFill, map_append, foldl_append]
    exact hf.step hs

theorem UfsVolume.floor_le (um : UfsVolume) (off : UInt64) : off - off % um.bsize ≤ off := by
  have hle : off % um.bsize ≤ off := by
    exact Nat.mod_le _ _
  rw [UInt64.le_iff_toNat_le, UInt64.toNat_sub_of_le _ _ hle]
  exact Nat.sub_le _ _

theorem UfsVolume.div_floor (um : UfsVolume) (off : UInt64) :
    (off - off % um.bsize).toNat / um.bsize.toNat = off.toNat / um.bsize.toNat := by
  have hle : off % um.bsize ≤ off := by
    exact Nat.mod_le _ _
  have hf : off.toNat - off.toNat % um.bsize.toNat =
      um.bsize.toNat * (off.toNat / um.bsize.toNat) := by
    have hd := Nat.div_add_mod off.toNat um.bsize.toNat
    omega
  rw [UInt64.toNat_sub_of_le _ _ hle, UInt64.toNat_mod, hf, Nat.mul_div_cancel_left _ um.bsize_pos]

/-- The bytes of a small volume: the inodes of the root (in block 1) and of a directory `b` (in
block 2), and their blocks of entries. -/
def smallImage (block i : ℕ) : UInt8 :=
  match block, i with
  -- inodes: the type, the size, and the first direct block
  | 1, 0x00 => 0x40 | 1, 0x16 => 2 | 1, 0x77 => 8
  | 2, 0x00 => 0x40 | 2, 0x16 => 2 | 2, 0x77 => 9
  -- the root: `b`, then `r`
  | 8, 3 => 4 | 8, 5 => 16 | 8, 6 => 4 | 8, 7 => 1 | 8, 8 => 0x62
  | 8, 19 => 6 | 8, 20 => 1 | 8, 21 => 0xf0 | 8, 22 => 8 | 8, 23 => 1 | 8, 24 => 0x72
  -- the directory: `.`, then `x`
  | 9, 3 => 4 | 9, 5 => 16 | 9, 6 => 4 | 9, 7 => 1 | 9, 8 => 0x2e
  | 9, 19 => 7 | 9, 20 => 1 | 9, 21 => 0xf0 | 9, 22 => 8 | 9, 23 => 1 | 9, 24 => 0x78
  | _, _ => 0

def smallVolume : UfsVolume where
  order := .big
  swap := false
  umSdev := ⟨512, fun a => .ok (smallImage (a / 512).toNat), exists_pow_512⟩
  umSb := ⟨0, 9, 9, 0, 64, 64⟩
  bshift_le := by decide

def smallStart : UfsState Bool Unit := startUfs ⟨fun _ => 0, fun _ => 0⟩

/-- **A directory read returns the entry stored at its offset**, whatever has run on the mount
before, if the offset is at the beginning of a block, or in the block that `um_dc.d_block` was
filled with last. The block has to be within the reach of `ufs_map_block`. -/
theorem ufs_directory_read_stored {blocks : UfsBlocks} {h : List (UfsState δ φ × UfsEvent δ φ)}
    {s : UfsState δ φ} (hr : Run (UfsStep um) (startUfs blocks) h s) {d : δ}
    {dc : UfsDirectoryContext} (hdir : s.dirs d = some dc) (hstored : um.Stored dc.dIn off de name)
    (hnear : um.Near off)
    (hfill : off % um.bsize = 0 ∨ lastFill um h = some (d, off - off % um.bsize)) :
    ∃ b, ufsOpDirectoryRead um dc off s.blocks =
      .ok (b, .ok ⟨some name, off + de.deEntrylen.toUInt64, 1⟩) := by
  obtain ⟨hsz, block, hb, he⟩ := hstored
  rw [ufsOpDirectoryRead, if_neg (UInt64.not_le.mpr hsz)]
  by_cases hs : off % um.bsize = 0
  · obtain ⟨⟨b, r⟩, hrd, hrs⟩ := ufsReadDirectory_start hs hnear
    obtain ⟨ha, hr⟩ := hrs block hb
    obtain ⟨hd, hn⟩ := he.read ha
    dsimp only at hr
    rw [hd, hn] at hr
    refine ⟨b, ?_⟩
    rw [hrd, hr]
    rfl
  · -- nothing is read: the block in the buffer is the one that was filled last
    obtain ⟨dc', hdir', ha⟩ := filled_of_run hr d _ (hfill.resolve_left hs)
    obtain rfl : dc = dc' := Option.some.inj (hdir.symm.trans hdir')
    have hnear' : um.Near (off - off % um.bsize) := (um.div_floor off).trans_lt hnear
    have hb' : um.fileBlock dc.dIn (off - off % um.bsize) = .ok block := by
      rw [UfsVolume.fileBlock, um.div_floor]
      exact hb
    have ha' := ha (UInt64.lt_of_le_of_lt (um.floor_le off) hsz) hnear' block hb'
    obtain ⟨hd, hn⟩ := he.read ha'
    refine ⟨s.blocks, ?_⟩
    rw [ufsReadDirectory_inside hs, hd, hn]
    rfl

/-- The second entry of the root, read after the first. -/
theorem ufs_directory_read_stored_second : ∃ h s, ∃ dc : UfsDirectoryContext, ∃ b,
    Run (UfsStep smallVolume) smallStart h s ∧
      s.dirs false = some dc ∧ smallVolume.Stored dc.dIn 16 ⟨6, 496, 8, 1⟩ [0x72] ∧
      smallVolume.Near 16 ∧ lastFill smallVolume h = some (false, 0) ∧
      ufsOpDirectoryRead smallVolume dc 16 s.blocks = .ok (b, .ok ⟨some [0x72], 512, 1⟩) := by
  have h₁ : Run (UfsStep smallVolume) smallStart _ _ :=
    Run.nil.snoc (UfsStep.directoryOpen (d := false) (p := [0x2f]) (n := 4) rfl rfl)
  have h₂ := h₁.snoc (UfsStep.directoryRead (d := false) (o := 0) rfl rfl)
  obtain ⟨h, s, dc, hr, hd, hs, hf⟩ : ∃ h s, ∃ dc : UfsDirectoryContext,
      Run (UfsStep smallVolume) smallStart h s ∧
        s.dirs false = some dc ∧ smallVolume.Stored dc.dIn 16 ⟨6, 496, 8, 1⟩ [0x72] ∧
        lastFill smallVolume h = some (false, 0) :=
    ⟨_, _, _, h₂, rfl, ⟨by decide, _, rfl, by decide, rfl, rfl, by decide, rfl⟩, rfl⟩
  have hn : smallVolume.Near 16 := by
    unfold UfsVolume.Near
    decide
  obtain ⟨b, hrd⟩ := ufs_directory_read_stored hr hd hs hn (Or.inr hf)
  exact ⟨h, s, dc, b, hr, hd, hs, hn, hf, hrd⟩

set_option maxRecDepth 4000 in
/-- The root and a directory in it are read in turns: the second read of the root returns an entry
of the directory. -/
theorem ufs_directory_reads_mixed : ∃ h s, ∃ dc : UfsDirectoryContext, ∃ b,
    Run (UfsStep smallVolume) smallStart h s ∧
      s.dirs false = some dc ∧ smallVolume.Stored dc.dIn 16 ⟨6, 496, 8, 1⟩ [0x72] ∧
      ufsOpDirectoryRead smallVolume dc 16 s.blocks = .ok (b, .ok ⟨some [0x78], 512, 1⟩) := by
  have h₁ : Run (UfsStep smallVolume) smallStart _ _ :=
    Run.nil.snoc (UfsStep.directoryOpen (d := false) (p := [0x2f]) (n := 4) rfl rfl)
  have h₂ := h₁.snoc (UfsStep.directoryOpen (d := true) (p := [0x2f, 0x62]) (n := 4) rfl rfl)
  have h₃ := h₂.snoc (UfsStep.directoryRead (d := false) (o := 0) rfl rfl)
  have h₄ := h₃.snoc (UfsStep.directoryRead (d := true) (o := 0) rfl rfl)
  exact ⟨_, _, _, _, h₄, rfl, ⟨by decide, _, rfl, by decide, rfl, rfl, by decide, rfl⟩, rfl⟩

end Glatt
