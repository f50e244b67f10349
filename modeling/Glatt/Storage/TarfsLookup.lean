import Glatt.Storage.TarfsPath
import Glatt.Storage.TarfsRead

/-!
# Lookups in an archive

`tarfs_lookup` of `io/storage/tarfs/tarfs_mount.c`. An archive has no index: a lookup reads header
after header, each of which tells by the size of its data where the next one is, until the name of
one has the components of the path.

## Main definitions

* `tarfsLookup`: the function
* `TarEntry`, `archive`: entries, and the bytes of an archive of them

## Main results

* `tarfs_lookup_first`: a lookup returns the first entry with the components of its path
-/

namespace Glatt

open Imperative Traced Buffer

variable {ε : Type}

/-! ## The function -/

/-- `struct tarfs_mount`, as far as lookups and opens use it: the buffer that names are split up in,
and the targets of the links that are being followed. -/
structure TarfsVolume extends TarfsMount where
  tmMatch : TarfsPath
  tmLinkbuf : ℕ → UInt8
  tmLinklen : ℕ

/-- `struct tarfs_file_context`: an entry of the archive that has been looked up. -/
structure TarfsNode extends TarfsFileContext where
  fHeader : ℕ → UInt8
  fPath : TarfsPath

def roundupBlock (dsize : UInt64) : UInt64 := (dsize + (512 - 1)) / 512 * 512

def tarfsLookupRound (fPath : TarfsPath) : TarfsVolume × UInt64 →
    Traced ε ((TarfsVolume × UInt64) ⊕ (TarfsVolume × Except Errno TarfsNode))
  | (tm, offset) => do
    let (mount, r) ← lift (tarfsReadHeader tm.toTarfsMount offset false)
    let tm := { tm with toTarfsMount := mount }
    match r with
    | .error e => pure (.inr (tm, .error e))
    | .ok _ =>
      match TarfsFileContext.ofHeader tm.tmHeader offset with
      | none => pure (.inr (tm, .error .invalid))
      | some fc => do
        let (tmMatch, found) ← tarfsLookupMatch tm.tmMatch fPath (.quiet tm.tmHeader 0) false
        let tm := { tm with tmMatch := tmMatch }
        if found then pure (.inr (tm, .ok ⟨fc, tm.tmHeader, fPath⟩))
        else pure (.inl (tm, offset + (512 + roundupBlock fc.fDsize)))

/-- `tarfs_lookup`, with `f_path` as it is in the memory of the caller. A loop that has met as many
offsets as there are does not end. -/
def tarfsLookup (tm : TarfsVolume) (path : ByteSource ε) (fPath : TarfsPath) :
    Traced ε (TarfsVolume × Except Errno TarfsNode) := do
  let b ← path.read 0
  if b ≠ 0x2f then pure (tm, .error .invalid)
  else do
    let _ ← strlen path
    let (fPath, r) ← tarfsSplitPath fPath path
    match r with
    | .error e => pure (tm, .error e)
    | .ok () => loop (tarfsLookupRound fPath) (2 ^ 55) (tm, 0)

/-! ## Archives -/

/-- An entry of an archive: a header whose size can be decoded, and data of that size, padded to
whole blocks. -/
structure TarEntry where
  header : ℕ → UInt8
  dsize : UInt64
  data : List UInt8
  magic : slice header 257 6 = [0x75, 0x73, 0x74, 0x61, 0x72, 0]
  size : tarHeaderDecode (slice header 124 12) = some dsize
  padded : data.length = (dsize.toNat + 511) / 512 * 512

namespace TarEntry

def bytes (e : TarEntry) : List UInt8 := slice e.header 0 512 ++ e.data

def thName (e : TarEntry) : List UInt8 := slice e.header 0 100

/-- **The name of the entry**, which ends with a NUL byte in its field, has the components. -/
def Named (e : TarEntry) (cs : List (List UInt8)) : Prop :=
  0 ∈ e.thName ∧ pathComponents (e.thName.takeWhile (· ≠ 0)) = cs

instance (e : TarEntry) (cs : List (List UInt8)) : Decidable (e.Named cs) :=
  inferInstanceAs (Decidable (_ ∧ _))

end TarEntry

def entriesBytes (entries : List TarEntry) : List UInt8 := entries.flatMap TarEntry.bytes

/-- **The bytes of an archive**: its entries, a zero block, and what is on the disk behind it. -/
def archive (entries : List TarEntry) (rest : List UInt8) : List UInt8 :=
  entriesBytes entries ++ (List.replicate 512 0 ++ rest)

variable {entries es : List TarEntry} {e : TarEntry} {rest : List UInt8} {i : ℕ}

theorem TarEntry.dsize_lt : e.dsize.toNat < 2 ^ 37 := tarHeaderDecode_lt length_slice e.size

theorem TarEntry.length_bytes : e.bytes.length = 512 + (e.dsize.toNat + 511) / 512 * 512 := by
  rw [bytes, List.length_append, length_slice, e.padded]

theorem entriesBytes_append {es₁ es₂ : List TarEntry} :
    entriesBytes (es₁ ++ es₂) = entriesBytes es₁ ++ entriesBytes es₂ := List.flatMap_append

theorem entriesBytes_cons : entriesBytes (e :: es) = e.bytes ++ entriesBytes es := List.flatMap_cons

theorem entriesBytes_singleton : entriesBytes [e] = e.bytes := by
  rw [entriesBytes_cons]
  exact List.append_nil _

theorem entriesBytes_blocks : 512 ∣ (entriesBytes es).length ∧
    512 * es.length ≤ (entriesBytes es).length := by
  induction es with
  | nil => exact ⟨Nat.dvd_zero _, Nat.le_refl _⟩
  | cons e es ih =>
    rw [entriesBytes_cons, List.length_append, List.length_cons, e.length_bytes]
    omega

theorem archive_entry {es₁ es₂ : List TarEntry} (hi : i < 512) :
    (archive (es₁ ++ e :: es₂) rest)[(entriesBytes es₁).length + i]? = some (e.header i) := by
  have hlen : (slice e.header 0 512).length = 512 := length_slice
  rw [archive, entriesBytes_append, entriesBytes_cons, TarEntry.bytes, List.append_assoc,
    List.getElem?_append_right (Nat.le_add_right _ _), Nat.add_sub_cancel_left, List.append_assoc,
    List.append_assoc, List.getElem?_append_left (by omega),
    List.getElem?_eq_getElem (by omega), getElem_slice, Nat.zero_add]

theorem archive_end (hi : i < 512) :
    (archive entries rest)[(entriesBytes entries).length + i]? = some 0 := by
  rw [archive, List.getElem?_append_right (Nat.le_add_right _ _), Nat.add_sub_cancel_left,
    List.getElem?_append_left (by rw [List.length_replicate]; exact hi),
    List.getElem?_replicate_of_lt hi]

/-! ## Headers -/

theorem tarfsReadHeader_on {tm : TarfsMount} {image : DiskImage} {offset : UInt64}
    (header : ℕ → UInt8) (hs : tm.tmSdev.Serves image) (ha : 512 ∣ offset.toNat)
    (hh : ∀ i < 512, image.bytes[offset.toNat + i]? = some (header i)) :
    Ensures (tarfsReadHeader tm offset false) fun r => r.1.tmSdev = tm.tmSdev ∧
      (∀ i < 500, r.1.tmHeader i = header i) ∧
      r.2 = if slice header 257 6 ≠ [0x75, 0x73, 0x74, 0x61, 0x72, 0] then
          .error (if slice header 257 6 = [0, 0, 0, 0, 0, 0] then .notFound else .invalid)
        else .ok false := by
  have hlt : offset.toNat < image.bytes.length :=
    (List.getElem?_eq_some_iff.mp (hh 0 (by decide))).1
  obtain ⟨cont, hc, hby⟩ := hs.contents ha hlt
  have hal : offset % 512 = 0 := by
    rw [← UInt64.toNat_inj]
    exact Nat.mod_eq_zero_of_dvd ha
  rw [tarfsReadHeader, if_neg (not_not.mpr hal)]
  refine storageDeviceRead_block.bind ?_
  rintro ⟨block, r⟩ (⟨e, rfl, he⟩ | ⟨rfl, cont', hc', hb⟩)
  · rw [hc] at he
    cases he
  · rw [hc] at hc'
    cases hc'
    dsimp only at hb ⊢
    have hn : ∀ i < 500, write tm.tmHeader 0 500 block i = header i := by
      intro i hi
      rw [write_apply_of_lt i.zero_le (by omega), Nat.sub_zero, hb i (by omega)]
      exact Option.some.inj ((hby i (by omega)).symm.trans (hh i (by omega)))
    have hm : slice (write tm.tmHeader 0 500 block) 257 6 = slice header 257 6 :=
      slice_congr fun i hi => hn _ (by omega)
    rw [hm]
    by_cases hu : slice header 257 6 ≠ [0x75, 0x73, 0x74, 0x61, 0x72, 0]
    · rw [if_pos hu, if_pos hu]
      by_cases hz : slice header 257 6 = [0, 0, 0, 0, 0, 0]
      · rw [if_pos hz, if_pos hz]
        exact .ret ⟨rfl, hn, rfl⟩
      · rw [if_neg hz, if_neg hz]
        exact .ret ⟨rfl, hn, rfl⟩
    · rw [if_neg hu, if_neg hu]
      exact .ret ⟨rfl, hn, rfl⟩

theorem TarEntry.exists_name (e : TarEntry) : ∃ s, StrAt e.header 0 s ∧ s.length < 263 ∧
    ∀ cs, s.length < 100 ∧ pathComponents s = cs ↔ e.Named cs := by
  have hm : e.header 262 = 0 := Option.some.inj (congrArg (fun l => l[5]?) e.magic)
  have hmem : 0 ∈ slice e.header 0 263 := List.mem_map.mpr ⟨262, List.mem_range.mpr (by decide), hm⟩
  obtain ⟨hs, hlt⟩ := ByteSource.str_takeWhile hmem
  refine ⟨_, hs, hlt, fun cs => ⟨?_, ?_⟩⟩
  · rintro ⟨hlen, hc⟩
    have hn : 0 ∈ e.thName := List.mem_map.mpr ⟨_, List.mem_range.mpr hlen, hs.terminated⟩
    rw [hs.unique (ByteSource.str_takeWhile hn).1] at hc
    exact ⟨hn, hc⟩
  · rintro ⟨hn, hc⟩
    obtain ⟨hs', hlt'⟩ := ByteSource.str_takeWhile hn
    rw [hs.unique hs']
    exact ⟨hlt', hc⟩

/-! ## The scan -/

section Scan

variable {image : DiskImage} {sdev : StorageDevice} {fPath : TarfsPath} {cs : List (List UInt8)}

/-- What the scan keeps: it has passed the entries in front of its offset, none of which has the
components. -/
def Scanning (sdev : StorageDevice) (entries : List TarEntry) (cs : List (List UInt8)) (n : ℕ) :
    TarfsVolume × UInt64 → Prop
  | (tm, offset) => tm.tmSdev = sdev ∧ ∃ es₁ es₂, entries = es₁ ++ es₂ ∧
      (∀ x ∈ es₁, ¬ x.Named cs) ∧ offset.toNat = (entriesBytes es₁).length ∧ n = es₂.length

/-- **What a lookup returns**: the first entry with the components, or that there is none. -/
def Found (entries : List TarEntry) (cs : List (List UInt8)) (r : Except Errno TarfsNode) : Prop :=
  (∃ es₁ e es₂ node, entries = es₁ ++ e :: es₂ ∧ (∀ x ∈ es₁, ¬ x.Named cs) ∧ e.Named cs ∧
    r = .ok node ∧ node.fDaddr.toNat = (entriesBytes es₁).length + 512 ∧
    node.fDsize = e.dsize ∧ ∀ i < 500, node.fHeader i = e.header i) ∨
  (∀ x ∈ entries, ¬ x.Named cs) ∧ r = .error .notFound

theorem ofHeader_entry {header : ℕ → UInt8} (h : ∀ i < 500, header i = e.header i)
    (offset : UInt64) : TarfsFileContext.ofHeader header offset =
      some ⟨offset + 512, e.dsize, e.dsize_lt⟩ := by
  have hs : tarHeaderDecode (slice header 124 12) = some e.dsize := by
    rw [slice_congr (fun i hi => h (124 + i) (by omega)), e.size]
  rw [TarfsFileContext.ofHeader]
  split
  · rename_i hn
    rw [hs] at hn
    cases hn
  · rename_i dsize hsm
    rw [hs] at hsm
    cases hsm
    rfl

theorem toNat_roundupBlock {dsize : UInt64} (h : dsize.toNat < 2 ^ 37) :
    (roundupBlock dsize).toNat = (dsize.toNat + 511) / 512 * 512 := by
  have hs : (dsize + (512 - 1)).toNat = dsize.toNat + 511 := by
    rw [UInt64.toNat_add]
    show (dsize.toNat + 511) % 2 ^ 64 = _
    omega
  rw [roundupBlock, UInt64.toNat_mul, UInt64.toNat_div, hs]
  show (dsize.toNat + 511) / 512 * 512 % 2 ^ 64 = _
  omega

theorem tarfsLookupRound_spec (hs : sdev.Serves image) (him : image.bytes = archive entries rest)
    (hp : fPath.Has cs) {n : ℕ} {st : TarfsVolume × UInt64} (h : Scanning sdev entries cs n st) :
    Ensures (tarfsLookupRound fPath st : Traced ε _).outcome
      (Sum.elim (fun st' => ∃ m < n, Scanning sdev entries cs m st')
        fun r => Found entries cs r.2) := by
  obtain ⟨tm, offset⟩ := st
  obtain ⟨rfl, es₁, es₂, rfl, hb, ho, rfl⟩ := h
  have hm := image.addressable
  have ha : 512 ∣ offset.toNat := ho ▸ entriesBytes_blocks.1
  rw [tarfsLookupRound, outcome_bind_eq]
  cases es₂ with
  | nil =>
    -- the zero block
    rw [List.append_nil] at him ⊢
    refine (tarfsReadHeader_on (fun _ => 0) hs ha ?_).bind ?_
    · intro i hi
      rw [him, ho, archive_end hi]
    · rintro ⟨mount, r⟩ ⟨-, -, rfl⟩
      exact .ret (Or.inr ⟨hb, rfl⟩)
  | cons e es₂ =>
    have hft : (entriesBytes es₁).length + e.bytes.length ≤ image.bytes.length := by
      rw [him, archive, entriesBytes_append, entriesBytes_cons]
      simp only [List.length_append]
      omega
    rw [e.length_bytes] at hft
    refine (tarfsReadHeader_on e.header hs ha ?_).bind ?_
    · intro i hi
      rw [him, ho, archive_entry hi]
    rintro ⟨mount, r⟩ ⟨hsd, hh, rfl⟩
    rw [if_neg (not_not.mpr e.magic)]
    dsimp only
    rw [ofHeader_entry hh]
    rw [outcome_bind_eq]
    obtain ⟨s, hstr, hlen, hnm⟩ := e.exists_name
    have hstr' : StrAt mount.tmHeader 0 s := hstr.congr fun i hi => hh _ (by omega)
    refine (tarfsLookupMatch_spec hstr'.str (by rw [memoryEnd]; omega) hp).bind ?_
    rintro ⟨tmMatch, found⟩ hf
    rw [hnm] at hf
    have hd : (offset + 512).toNat = (entriesBytes es₁).length + 512 := by
      rw [UInt64.toNat_add]
      show (_ + 512) % 2 ^ 64 = _
      omega
    cases found with
    | true =>
      exact .ret (Or.inl ⟨es₁, e, es₂, _, rfl, hb, hf.mp rfl, rfl, hd, rfl, hh⟩)
    | false =>
      refine .ret ⟨es₂.length, Nat.lt_succ_self _, hsd, es₁ ++ [e], es₂, ?_, ?_, ?_,
        rfl⟩
      · rw [List.append_assoc, List.singleton_append]
      · intro x hx
        rcases List.mem_append.mp hx with hx | hx
        · exact hb x hx
        · rw [List.mem_singleton.mp hx]
          exact fun hn => Bool.false_ne_true (hf.mpr hn)
      · rw [entriesBytes_append, entriesBytes_singleton, List.length_append, e.length_bytes,
          UInt64.toNat_add, UInt64.toNat_add, toNat_roundupBlock e.dsize_lt]
        show (_ + (512 + _) % 2 ^ 64) % 2 ^ 64 = _
        omega

end Scan

/-- **A lookup finds the first entry** of an archive that has the components of the path, and
returns where its data are and what their size is; if there is none, it says so. -/
theorem tarfs_lookup_first {tm : TarfsVolume} {image : DiskImage} {src : ByteSource ε}
    {s : List UInt8} (hs : tm.tmSdev.Serves image) (himage : image.bytes = archive entries rest)
    (hstr : src.Str s) (habsolute : s.head? = some 0x2f) (hlen : s.length < 100)
    (fPath : TarfsPath) :
    Ensures (tarfsLookup tm src fPath).outcome fun r => Found entries (pathComponents s) r.2 := by
  have hmem : s.length < memoryEnd := by rw [memoryEnd]; omega
  have hf : src.byte 0 = 0x2f := by
    have hpos : 0 < s.length := by
      cases s with
      | nil => cases habsolute
      | cons b s => exact Nat.succ_pos _
    rw [List.head?_eq_getElem?, hstr.byte 0 hpos] at habsolute
    exact Option.some.inj habsolute
  rw [tarfsLookup, outcome_bind_eq, ByteSource.outcome_read, ok_bind,
    if_neg (not_not.mpr hf), outcome_bind_eq, strlen_spec hstr hmem, outcome_bind_eq]
  refine (tarfsSplitPath_spec hstr hmem).bind ?_
  rintro ⟨fPath, r⟩ (⟨-, rfl, hp⟩ | ⟨hle, -⟩)
  · rw [outcome_loop]
    have hm := image.addressable
    have hc : 512 * entries.length ≤ image.bytes.length := by
      rw [himage, archive, List.length_append]
      exact entriesBytes_blocks.2.trans (Nat.le_add_right _ _)
    refine Ensures.loop (fun n st => tarfsLookupRound_spec hs himage hp)
      ⟨rfl, [], entries, rfl, ?_, rfl, rfl⟩ (by omega)
    exact fun _ h => by cases h
  · omega

def emptyHeader (i : ℕ) : UInt8 :=
  if 124 ≤ i ∧ i < 135 then 0x30
  else match i with
    | 0 => 0x2e | 1 => 0x2f | 2 => 0x61
    | 135 => 0x20
    | 257 => 0x75 | 258 => 0x73 | 259 => 0x74 | 260 => 0x61 | 261 => 0x72
    | _ => 0

def emptyEntry : TarEntry :=
  ⟨emptyHeader, 0, [], by decide +kernel, by decide +kernel, by decide +kernel⟩

def emptyImage : DiskImage := ⟨archive [emptyEntry] [], by decide +kernel, by decide +kernel⟩

def emptyVolume : TarfsVolume :=
  ⟨⟨emptyImage.disk, fun _ => 0, fun _ => 0⟩, ⟨fun _ => 0, []⟩, fun _ => 0, 0⟩

def pathA (i : ℕ) : UInt8 := if i = 0 then 0x2f else if i = 1 then 0x61 else 0

theorem strAt_pathA : StrAt pathA 0 [0x2f, 0x61] := by
  refine ⟨fun i hi => ?_, by decide, rfl⟩
  obtain rfl | rfl : i = 0 ∨ i = 1 := by
    have : i < 2 := hi
    omega
  · rfl
  · rfl

def fileB : TarEntry :=
  ⟨fun i => if i = 2 then 0x62 else if i = 134 then 0x33 else emptyHeader i, 3,
    [1, 2, 3] ++ List.replicate 509 0, by decide +kernel, by decide +kernel, by decide +kernel⟩

def fileA : TarEntry :=
  ⟨fun i => if i = 134 then 0x35 else emptyHeader i, 5, [1, 2, 3, 4, 5] ++ List.replicate 507 0,
    by decide +kernel, by decide +kernel, by decide +kernel⟩

def twoImage : DiskImage := ⟨archive [fileB, fileA] [], by decide +kernel, by decide +kernel⟩

/-- The second file is found under the path `/a`, with its data behind three blocks. -/
theorem tarfs_lookup_first_second :
    Ensures (tarfsLookup (ε := Empty) { emptyVolume with tmSdev := twoImage.disk }
      (.quiet pathA 0) ⟨fun _ => 0, []⟩).outcome
      fun r => ∃ node, r.2 = .ok node ∧ node.fDaddr = 1536 ∧ node.fDsize = 5 := by
  have hb : ¬ fileB.Named (pathComponents [0x2f, 0x61]) := by decide +kernel
  have ha : fileA.Named (pathComponents [0x2f, 0x61]) := by decide +kernel
  have him : twoImage.bytes = archive [fileB, fileA] [] := rfl
  refine (tarfs_lookup_first DiskImage.disk_serves him strAt_pathA rfl (by decide)
    ⟨fun _ => 0, []⟩).mono ?_
  rintro r (⟨es₁, e, es₂, node, he, hno, hnamed, hr, hd, hds, -⟩ | ⟨hno, -⟩)
  · cases es₁ with
    | nil =>
      obtain ⟨rfl, -⟩ := List.cons.inj he
      exact absurd hnamed hb
    | cons b es₁ =>
      obtain ⟨rfl, hrest⟩ := List.cons.inj he
      cases es₁ with
      | nil =>
        obtain ⟨rfl, -⟩ := List.cons.inj hrest
        have hlen : (entriesBytes [fileB]).length + 512 = 1536 := by decide +kernel
        exact ⟨node, hr, UInt64.toNat_inj.mp (hd.trans hlen), hds⟩
      | cons c es₁ =>
        obtain ⟨rfl, -⟩ := List.cons.inj hrest
        exact absurd ha (hno _ (List.mem_cons_of_mem _ List.mem_cons_self))
  · exact absurd ha (hno _ (List.mem_cons_of_mem _ List.mem_cons_self))

end Glatt
