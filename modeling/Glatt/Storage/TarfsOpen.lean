import Glatt.Storage.TarfsLookup

/-!
# Opening an entry of an archive

`tarfs_op_file_open` and `tarfs_op_directory_open` of `io/storage/tarfs/tarfs_mount.c`, and what
they read of the path that they are given. A file may be a link to another one; the targets of the
links that are being followed are kept one behind the other in the buffer of the mount.

## Main definitions

* `tarfsOpFileOpen`, `tarfsFileOpenHeld`: the function, and with the memory that it holds

## Main results

* `tarfs_file_open_cleans`: an open follows a bounded number of links, and cleans up
-/

namespace Glatt

open Imperative Traced Buffer List ByteSource

variable {ε : Type}

/-! ## The functions -/

/-- The target of a link, copied into the buffer of the mount behind the targets before it; it is an
error if there is no room for it. -/
def tarfsCopyLink (tm : TarfsVolume) (fHeader : ℕ → UInt8) :
    Traced ε (TarfsVolume × Except Errno ℕ) := do
  let linkleft := 8192 - tm.tmLinklen
  let (linkname, linkuse) ← Cstr.strlcpy (fun i => tm.tmLinkbuf (tm.tmLinklen + i))
    (.quiet fHeader 157) linkleft
  let tm := { tm with tmLinkbuf := fun i =>
    if i < tm.tmLinklen then tm.tmLinkbuf i else linkname (i - tm.tmLinklen) }
  pure (tm, if linkleft ≤ linkuse then .error .invalid else .ok linkuse)

/-- Where the path of a link starts: a dot in front of a slash is passed over. -/
def tarfsLinkStart (tm : TarfsVolume) : ℕ :=
  if tm.tmLinkbuf tm.tmLinklen = 0x2e ∧ tm.tmLinkbuf (tm.tmLinklen + 1) = 0x2f then
    tm.tmLinklen + 1
  else tm.tmLinklen

/-- `tarfs_op_file_open`, in a link of the depth `k`. What `vm_alloc` returns there is `vmAlloc k`:
the memory for a context, or an error. -/
def tarfsFileOpenFrom (vmAlloc : ℕ → Except Errno TarfsPath) :
    ℕ → ℕ → TarfsVolume → ByteSource ε → Traced ε (TarfsVolume × Except Errno TarfsNode)
  | 0, _, _, _ => halt .spin
  | n + 1, k, tm, name =>
    match vmAlloc k with
    | .error e => pure (tm, .error e)
    | .ok fPath => do
      let (tm, r) ← tarfsLookup tm name fPath
      match r with
      | .error e => pure (tm, .error e)
      | .ok fc =>
        if fc.fHeader 156 = 0x30 then pure (tm, .ok fc)
        else if fc.fHeader 156 = 0x31 then
          if 0 ∉ slice fc.fHeader 157 100 then pure (tm, .error .invalid)
          else do
            let (tm, link) ← tarfsCopyLink tm fc.fHeader
            match link with
            | .error e => pure (tm, .error e)
            | .ok linkuse => do
              let (tm, r) ← tarfsFileOpenFrom vmAlloc n (k + 1)
                { tm with tmLinklen := tm.tmLinklen + linkuse }
                (.quiet tm.tmLinkbuf (tarfsLinkStart tm))
              pure ({ tm with tmLinklen := tm.tmLinklen - linkuse }, r)
        else pure (tm, .error .wrongKind)

/-- `tarfs_op_file_open`. A link that is followed takes up a byte of the buffer at least, so that
there cannot be more of them than bytes. -/
def tarfsOpFileOpen (vmAlloc : ℕ → Except Errno TarfsPath) (tm : TarfsVolume)
    (name : ByteSource ε) : Traced ε (TarfsVolume × Except Errno TarfsNode) :=
  tarfsFileOpenFrom vmAlloc 8194 0 tm name

def tarfsOpDirectoryOpen (vmAlloc : ℕ → Except Errno TarfsPath) (tm : TarfsVolume)
    (name : ByteSource ε) : Traced ε (TarfsVolume × Except Errno TarfsNode) :=
  match vmAlloc 0 with
  | .error e => pure (tm, .error e)
  | .ok fPath => do
    let (tm, r) ← tarfsLookup tm name fPath
    match r with
    | .error e => pure (tm, .error e)
    | .ok dc => if dc.fHeader 156 ≠ 0x35 then pure (tm, .error .wrongKind) else pure (tm, .ok dc)

/-! ## What they read -/

variable {P : ε → Prop} {tp : TarfsPath} {path : ByteSource ε} {tm : TarfsVolume}

theorem readsOnly_tarfsSplitRound (st : TarfsPath × ℕ) :
    ReadsOnly P (tarfsSplitRound st : Traced ε _) := by
  rw [tarfsSplitRound]
  split_ifs
  · exact safe_pure
  refine safe_bind.mpr ⟨?_, fun p' _ => ?_⟩
  · refine safe_loop_of_forall trivial fun p => ?_
    rw [tarfsSlashRound]
    split_ifs <;> exact safe_pure
  split_ifs
  · exact safe_pure
  refine safe_bind.mpr ⟨safe_strchr fun _ => ok_quiet, fun q _ => ?_⟩
  refine safe_bind.mpr ⟨safe_bind.mpr ⟨?_, fun d _ => ?_⟩, fun tp _ => ?_⟩
  · exact safe_strcmp fun _ _ => ⟨ok_quiet, ok_quiet⟩
  · rw [TarfsPath.push]
    split_ifs
    · exact safe_pure
    · exact safe_halt.mpr trivial
    · exact safe_pure
  · cases q with
    | none | some k => exact safe_pure

theorem safe_tarfsSplitPath : ReadsOnly P (tarfsSplitPath tp path) ↔ path.OkToEnd P 0 := by
  rw [← @safe_strlcpy _ _ P tp.tpPath 100 (by decide) (by decide)]
  refine safe_bind.trans ⟨fun h => h.1, fun h => ⟨h, fun r _ => ?_⟩⟩
  dsimp only
  split_ifs
  · exact safe_pure
  · refine safe_bind.mpr ⟨?_, fun _ _ => safe_pure⟩
    exact safe_loop_of_forall trivial readsOnly_tarfsSplitRound

theorem readsOnly_tarfsMatchNames {path path' : ℕ → UInt8} (names : List (ℕ × ℕ)) :
    ReadsOnly P (tarfsMatchNames path path' names : Traced ε Bool) := by
  induction names with
  | nil => exact safe_pure
  | cons names _ ih =>
    refine safe_bind.mpr ⟨?_, fun d _ => ?_⟩
    · exact safe_strcmp fun _ _ => ⟨ok_quiet, ok_quiet⟩
    · split_ifs
      · exact safe_pure
      · exact ih

theorem readsOnly_tarfsLookupMatch {tmMatch fPath : TarfsPath} {buf : ℕ → UInt8} {p : ℕ}
    {children : Bool} :
    ReadsOnly P (tarfsLookupMatch tmMatch fPath (.quiet buf p) children : Traced ε _) := by
  refine safe_bind.mpr ⟨safe_tarfsSplitPath.mpr okToEnd_quiet, fun r _ => ?_⟩
  obtain ⟨-, r⟩ := r
  cases r with
  | error e => exact safe_pure
  | ok u =>
    dsimp only
    split_ifs
    · exact safe_pure
    · exact safe_bind.mpr ⟨readsOnly_tarfsMatchNames _, fun _ _ => safe_pure⟩
    · exact safe_pure
    · exact safe_bind.mpr ⟨readsOnly_tarfsMatchNames _, fun _ _ => safe_pure⟩

variable {fPath : TarfsPath}

theorem readsOnly_tarfsLookupRound (st : TarfsVolume × UInt64) :
    ReadsOnly P (tarfsLookupRound fPath st : Traced ε _) := by
  rw [tarfsLookupRound]
  refine safe_bind.mpr ⟨safe_lift.mpr fun _ _ => trivial, fun r _ => ?_⟩
  obtain ⟨-, r⟩ := r
  cases r with
  | error e => exact safe_pure
  | ok b =>
    dsimp only
    split
    · exact safe_pure
    · refine safe_bind.mpr ⟨readsOnly_tarfsLookupMatch, fun r _ => ?_⟩
      split_ifs <;> exact safe_pure

/-- What a lookup reads of its path: the first byte, and if that is a slash, all up to the NUL
byte. -/
def ByteSource.OkPath (path : ByteSource ε) (P : ε → Prop) : Prop :=
  path.Ok P 0 ∧ (path.byte 0 = 0x2f → path.OkToEnd P 0)

theorem ByteSource.okPath_quiet {buf : ℕ → UInt8} {p : ℕ} :
    (quiet buf p : ByteSource ε).OkPath P := ⟨ok_quiet, fun _ => okToEnd_quiet⟩

theorem safe_tarfsLookup : ReadsOnly P (tarfsLookup tm path fPath) ↔ path.OkPath P := by
  rw [tarfsLookup]
  refine safe_bind.trans (and_congr safe_read ⟨fun h hs => ?_, fun h b hb => ?_⟩)
  · have hr := h _ rfl
    rw [if_neg (not_not.mpr hs)] at hr
    exact safe_strlen.mp (safe_bind.mp hr).1
  · cases hb
    split_ifs with hs
    · exact safe_pure
    · have hend := h (not_not.mp hs)
      refine safe_bind.mpr ⟨safe_strlen.mpr hend, fun _ _ => ?_⟩
      refine safe_bind.mpr ⟨safe_tarfsSplitPath.mpr hend, fun r _ => ?_⟩
      obtain ⟨-, r⟩ := r
      cases r with
      | error e => exact safe_pure
      | ok u =>
        exact safe_loop_of_forall trivial readsOnly_tarfsLookupRound

theorem readsOnly_tarfsCopyLink {fHeader : ℕ → UInt8} :
    ReadsOnly P (tarfsCopyLink tm fHeader : Traced ε _) := by
  refine safe_bind.mpr ⟨?_, fun r _ => safe_pure⟩
  rcases Nat.eq_zero_or_pos (8192 - tm.tmLinklen) with hz | hpos
  · rw [hz]
    exact safe_bind.mpr ⟨safe_strEnd.mpr okToEnd_quiet, fun _ _ => safe_pure⟩
  · refine (safe_strlcpy hpos ?_).mpr okToEnd_quiet
    rw [memoryEnd]
    omega

variable {vmAlloc : ℕ → Except Errno TarfsPath}

theorem safe_tarfsFileOpenFrom {n k : ℕ} (hn : 0 < n) :
    ReadsOnly P (tarfsFileOpenFrom vmAlloc n k tm path) ↔
      (∀ fPath, vmAlloc k = .ok fPath → path.OkPath P) := by
  induction n generalizing k tm path with
  | zero => omega
  | succ n ih =>
    rw [tarfsFileOpenFrom]
    cases ha : vmAlloc k with
    | error e => exact ⟨nofun, fun _ => safe_pure⟩
    | ok fPath =>
      refine safe_bind.trans ⟨fun h _ _ => safe_tarfsLookup.mp h.1, fun h => ?_⟩
      refine ⟨safe_tarfsLookup.mpr (h _ rfl), fun r _ => ?_⟩
      obtain ⟨tm, r⟩ := r
      cases r with
      | error e => exact safe_pure
      | ok fc =>
        dsimp only
        split_ifs
        · exact safe_pure
        · refine safe_bind.mpr ⟨readsOnly_tarfsCopyLink, fun r _ => ?_⟩
          obtain ⟨tm, link⟩ := r
          cases link with
          | error e => exact safe_pure
          | ok linkuse =>
            refine safe_bind.mpr ⟨?_, fun _ _ => safe_pure⟩
            -- the target of the link is looked up like any path
            rcases n.eq_zero_or_pos with rfl | hpos
            · exact safe_halt.mpr trivial
            · exact (ih hpos).mpr fun _ _ => okPath_quiet
        · exact safe_pure
        · exact safe_pure

theorem tarfsLookup_slash : Yields (tarfsLookup tm path fPath).outcome
    fun r => ∀ node, r.2 = .ok node → path.byte 0 = 0x2f := by
  rw [tarfsLookup, outcome_bind_eq, outcome_read, ok_bind]
  split_ifs with hs
  · exact .ret fun _ h => by cases h
  · exact fun r _ node _ => not_not.mp hs

theorem tarfsLookup_bind_slash
    {f : TarfsVolume × Except Errno TarfsNode → Traced ε (TarfsVolume × Except Errno TarfsNode)}
    (he : ∀ tm e, f (tm, .error e) = pure (tm, .error e)) :
    Yields (tarfsLookup tm path fPath >>= f).outcome
      fun r => ∀ node, r.2 = .ok node → path.byte 0 = 0x2f := by
  rw [outcome_bind_eq]
  refine tarfsLookup_slash.bind ?_
  rintro ⟨tm, r⟩ hs
  cases r with
  | error e =>
    rw [he]
    exact .ret nofun
  | ok node => exact fun _ _ _ _ => hs node rfl

theorem tarfsOpFileOpen_opened :
    Yields (tarfsOpFileOpen vmAlloc tm path).outcome fun r => ∀ node, r.2 = .ok node →
      (∃ fPath, vmAlloc 0 = .ok fPath) ∧ path.byte 0 = 0x2f := by
  rw [tarfsOpFileOpen, tarfsFileOpenFrom]
  cases ha : vmAlloc 0 with
  | error e => exact .ret nofun
  | ok fPath =>
    refine Yields.mono (tarfsLookup_bind_slash fun _ _ => rfl) ?_
    exact fun _ hs node hn => ⟨⟨fPath, rfl⟩, hs node hn⟩

theorem tarfsOpDirectoryOpen_opened :
    Yields (tarfsOpDirectoryOpen vmAlloc tm path).outcome fun r => ∀ node, r.2 = .ok node →
      (∃ fPath, vmAlloc 0 = .ok fPath) ∧ path.byte 0 = 0x2f := by
  rw [tarfsOpDirectoryOpen]
  cases ha : vmAlloc 0 with
  | error e => exact .ret nofun
  | ok fPath =>
    refine Yields.mono (tarfsLookup_bind_slash fun _ _ => rfl) ?_
    exact fun _ hs node hn => ⟨⟨fPath, rfl⟩, hs node hn⟩

theorem safe_tarfsOpFileOpen :
    ReadsOnly P (tarfsOpFileOpen vmAlloc tm path) ↔
      (∀ fPath, vmAlloc 0 = .ok fPath → path.OkPath P) :=
  safe_tarfsFileOpenFrom (by decide)

theorem safe_tarfsOpDirectoryOpen :
    ReadsOnly P (tarfsOpDirectoryOpen vmAlloc tm path) ↔
      (∀ fPath, vmAlloc 0 = .ok fPath → path.OkPath P) := by
  rw [tarfsOpDirectoryOpen]
  cases ha : vmAlloc 0 with
  | error e => exact ⟨nofun, fun _ => safe_pure⟩
  | ok fPath =>
    refine safe_bind.trans ⟨fun h _ _ => safe_tarfsLookup.mp h.1, fun h => ?_⟩
    refine ⟨safe_tarfsLookup.mpr (h _ rfl), fun r _ => ?_⟩
    obtain ⟨-, r⟩ := r
    cases r with
    | error e => exact safe_pure
    | ok dc =>
      dsimp only
      split_ifs <;> exact safe_pure

/-! ## Links that are followed -/

/-- `tarfs_op_file_open`, with the depths of the calls whose contexts are allocated. -/
def tarfsFileOpenHeld (vmAlloc : ℕ → Except Errno TarfsPath) :
    ℕ → ℕ → TarfsVolume → ByteSource ε → List ℕ →
      Traced ε ((TarfsVolume × Except Errno TarfsNode) × List ℕ)
  | 0, _, _, _, _ => halt .spin
  | n + 1, k, tm, name, held =>
    match vmAlloc k with
    | .error e => pure ((tm, .error e), held)
    | .ok fPath => do
      let held := k :: held
      let (tm, r) ← tarfsLookup tm name fPath
      match r with
      | .error e => pure ((tm, .error e), held.erase k)
      | .ok fc =>
        if fc.fHeader 156 = 0x30 then pure ((tm, .ok fc), held)
        else if fc.fHeader 156 = 0x31 then
          if 0 ∉ slice fc.fHeader 157 100 then pure ((tm, .error .invalid), held.erase k)
          else do
            let (tm, link) ← tarfsCopyLink tm fc.fHeader
            match link with
            | .error e => pure ((tm, .error e), held.erase k)
            | .ok linkuse => do
              let ((tm, r), held) ← tarfsFileOpenHeld vmAlloc n (k + 1)
                { tm with tmLinklen := tm.tmLinklen + linkuse }
                (.quiet tm.tmLinkbuf (tarfsLinkStart tm)) (held.erase k)
              pure (({ tm with tmLinklen := tm.tmLinklen - linkuse }, r), held)
        else pure ((tm, .error .wrongKind), held.erase k)

theorem tarfsFileOpenHeld_fst {n k : ℕ} {held : List ℕ} :
    Prod.fst <$> (tarfsFileOpenHeld vmAlloc n k tm path held).outcome =
      (tarfsFileOpenFrom vmAlloc n k tm path).outcome := by
  induction n generalizing k tm path held with
  | zero => rfl
  | succ n ih =>
    rw [tarfsFileOpenHeld, tarfsFileOpenFrom]
    cases vmAlloc k with
    | error e => rfl
    | ok fPath =>
      simp only [outcome_bind_eq, map_bind]
      refine bind_congr fun ⟨tm, r⟩ => ?_
      cases r with
      | error e => rfl
      | ok fc =>
        dsimp only
        split_ifs
        · rfl
        · simp only [outcome_bind_eq, map_bind]
          refine bind_congr fun ⟨tm, link⟩ => ?_
          cases link with
          | error e => rfl
          | ok linkuse =>
            simp only [outcome_bind_eq, map_bind]
            rw [← @ih _ _ _ ((k :: held).erase k), bind_map_left]
            rfl
        · rfl
        · rfl

def StorageDevice.EndsAt (sdev : StorageDevice) (size : ℕ) : Prop :=
  size < 2 ^ 63 ∧ ∀ off cont, size ≤ off.toNat → sdev.contents 512 off = .ok cont →
    slice cont 257 6 ≠ [0x75, 0x73, 0x74, 0x61, 0x72, 0]

/-- A lookup leaves the device and the links of the mount alone. -/
structure SameLinks (tm tm' : TarfsVolume) : Prop where
  sdev : tm'.tmSdev = tm.tmSdev
  linkbuf : tm'.tmLinkbuf = tm.tmLinkbuf
  linklen : tm'.tmLinklen = tm.tmLinklen

def Passing (tm₀ : TarfsVolume) (n : ℕ) : TarfsVolume × UInt64 → Prop
  | (tm, offset) => SameLinks tm₀ tm ∧ n + offset.toNat / 512 + 1 = 2 ^ 55

section Links

variable {size : ℕ} {s : List UInt8}

theorem tarfsReadHeader_ends {tm : TarfsMount} {offset : UInt64} (he : tm.tmSdev.EndsAt size) :
    Ensures (tarfsReadHeader tm offset false) fun r => r.1.tmSdev = tm.tmSdev ∧
      ∀ b, r.2 = .ok b → offset.toNat < size ∧ r.1.tmHeader 262 = 0 := by
  rw [tarfsReadHeader]
  split
  · exact .ret ⟨rfl, fun _ h => by cases h⟩
  refine storageDeviceRead_block.bind ?_
  rintro ⟨block, r⟩ (⟨e, rfl, -⟩ | ⟨rfl, cont, hc, hb⟩)
  · exact .ret ⟨rfl, fun _ h => by cases h⟩
  dsimp only at hb ⊢
  split
  · split <;> exact .ret ⟨rfl, fun _ h => by cases h⟩
  rename_i hm
  rw [not_not] at hm
  refine .ret ⟨rfl, fun b _ => ⟨Nat.lt_of_not_le fun hle => he.2 offset cont hle hc ?_,
    Option.some.inj (congrArg (fun l => l[5]?) hm)⟩⟩
  rw [← hm]
  refine slice_congr fun i hi => ?_
  rw [write_apply_of_lt (Nat.zero_le _) (by omega), Nat.sub_zero, hb _ (by omega)]

theorem tarfsLookupRound_ends (he : tm.tmSdev.EndsAt size) {cs : List (List UInt8)}
    (hp : fPath.Has cs) {n : ℕ} {st : TarfsVolume × UInt64} (h : Passing tm n st) :
    Ensures (tarfsLookupRound fPath st : Traced ε _).outcome
      (Sum.elim (fun st' => ∃ m < n, Passing tm m st') fun r => SameLinks tm r.1) := by
  obtain ⟨tm', offset⟩ := st
  obtain ⟨hs, hn⟩ := h
  rw [tarfsLookupRound, outcome_bind_eq]
  refine (tarfsReadHeader_ends (hs.sdev ▸ he)).bind ?_
  rintro ⟨mount, r⟩ ⟨hsd, ho⟩
  have hs' : ∀ {m}, SameLinks tm { tm' with toTarfsMount := mount, tmMatch := m } :=
    ⟨hsd.trans hs.sdev, hs.linkbuf, hs.linklen⟩
  cases r with
  | error e => exact .ret hs'
  | ok b =>
    obtain ⟨hlt, hz⟩ := ho b rfl
    have hmem : 0 ∈ slice mount.tmHeader 0 263 := mem_map.mpr ⟨262, mem_range.mpr (by decide), hz⟩
    obtain ⟨hstr, hlen⟩ := str_takeWhile hmem
    dsimp only
    split
    · exact .ret hs'
    rename_i fc _
    rw [outcome_bind_eq]
    refine (tarfsLookupMatch_spec hstr (by rw [memoryEnd]; omega) hp).bind ?_
    rintro ⟨tmMatch, -⟩ -
    split_ifs
    · exact .ret hs'
    -- the next header is behind this one, as the device ends before the offset could wrap
    have hsz := he.1
    have hd := fc.dsize_lt
    have hnx : (offset + (512 + roundupBlock fc.fDsize)).toNat =
        offset.toNat + (512 + (fc.fDsize.toNat + 511) / 512 * 512) := by
      rw [UInt64.toNat_add, UInt64.toNat_add, toNat_roundupBlock hd]
      show (_ + (512 + _) % 2 ^ 64) % 2 ^ 64 = _
      omega
    refine .ret ⟨2 ^ 55 - 1 - (offset.toNat + (512 + (fc.fDsize.toNat + 511) / 512 * 512)) / 512,
      by omega, hs', ?_⟩
    rw [hnx]
    omega

theorem tarfsLookup_ends (he : tm.tmSdev.EndsAt size) (hs : path.Str s)
    (hmem : s.length < memoryEnd) : Ensures (tarfsLookup tm path fPath).outcome fun r =>
      SameLinks tm r.1 ∧ ∀ node, r.2 = .ok node → path.byte 0 = 0x2f := by
  refine Ensures.and ?_ tarfsLookup_slash
  rw [tarfsLookup, outcome_bind_eq, outcome_read, ok_bind]
  split_ifs
  · exact .ret ⟨rfl, rfl, rfl⟩
  rw [outcome_bind_eq, strlen_spec hs hmem, outcome_bind_eq]
  refine (tarfsSplitPath_spec hs hmem).bind ?_
  rintro ⟨fPath, r⟩ (⟨-, rfl, hp⟩ | ⟨-, rfl⟩)
  · rw [outcome_loop]
    exact Ensures.loop (fun n st => tarfsLookupRound_ends he hp) (n := 2 ^ 55 - 1)
      ⟨⟨rfl, rfl, rfl⟩, rfl⟩ (by omega)
  · exact .ret ⟨rfl, rfl, rfl⟩

theorem tarfsCopyLink_spec (hlen : tm.tmLinklen < 8192) {fHeader : ℕ → UInt8}
    (hmem : 0 ∈ slice fHeader 157 100) :
    Ensures (tarfsCopyLink tm fHeader : Traced ε _).outcome fun r =>
      r.1.tmSdev = tm.tmSdev ∧ r.1.tmLinklen = tm.tmLinklen ∧
      (∀ i, 8192 ≤ i → r.1.tmLinkbuf i = tm.tmLinkbuf i) ∧
      ∀ u, r.2 = .ok u → tm.tmLinklen + u < 8192 ∧ ∃ t, t.length = u ∧
        (quiet r.1.tmLinkbuf tm.tmLinklen : ByteSource ε).Str t := by
  obtain ⟨hs, hlt⟩ := str_takeWhile hmem
  rw [tarfsCopyLink, outcome_bind_eq]
  refine (strlcpy_spec hs (by omega) (by rw [memoryEnd]; omega)).bind ?_
  rintro ⟨linkname, -⟩ ⟨rfl, hc, hf⟩
  dsimp only at hf
  refine .ret ⟨rfl, rfl, fun i hi => ?_, fun u hu => ?_⟩
  · dsimp only
    rw [if_neg (by omega), hf _ (by omega), Nat.add_sub_cancel' (by omega)]
  · split_ifs at hu
    cases hu
    rw [take_of_length_le (by omega)] at hc
    exact ⟨by omega, _, rfl, hc.congr fun i _ => by simp⟩

/-- **What an open leaves**: the links as they were, nothing written outside of their buffer, and
one context more if it has reached a regular file. -/
structure Cleaned (tm : TarfsVolume) (held : List ℕ)
    (r : (TarfsVolume × Except Errno TarfsNode) × List ℕ) : Prop where
  linklen : r.1.1.tmLinklen = tm.tmLinklen
  outside : ∀ i, 8192 ≤ i → r.1.1.tmLinkbuf i = tm.tmLinkbuf i
  opened : ∀ fc, r.1.2 = .ok fc → fc.fHeader 156 = 0x30 ∧ ∃ k, r.2 = k :: held
  failed : ∀ e, r.1.2 = .error e → r.2 = held

theorem tarfsFileOpenHeld_spec {n k : ℕ} {held : List ℕ} (he : tm.tmSdev.EndsAt size)
    (hstr : path.Str s) (hmem : s.length < memoryEnd) (hlen : tm.tmLinklen < 8192) (hn : 0 < n)
    (hr : path.byte 0 = 0x2f → 8193 ≤ n + tm.tmLinklen) :
    Ensures (tarfsFileOpenHeld vmAlloc n k tm path held).outcome (Cleaned tm held) := by
  induction n generalizing k tm path s held with
  | zero => omega
  | succ n ih =>
    rw [tarfsFileOpenHeld]
    cases vmAlloc k with
    | error e => exact .ret ⟨rfl, fun _ _ => rfl, nofun, fun _ _ => rfl⟩
    | ok fPath =>
      rw [outcome_bind_eq]
      refine (tarfsLookup_ends he hstr hmem).bind ?_
      rintro ⟨tm', r⟩ ⟨⟨hsd, hbuf, hlen'⟩, hsl⟩
      dsimp only at hlen'
      have hf : ∀ {tm'' : TarfsVolume} {e : Errno}, tm''.tmLinklen = tm.tmLinklen →
          (∀ i, 8192 ≤ i → tm''.tmLinkbuf i = tm.tmLinkbuf i) →
          Cleaned tm held ((tm'', .error e), (k :: held).erase k) := fun hl ho =>
        ⟨hl, ho, nofun, fun _ _ => erase_cons_head ..⟩
      have hs : ∀ i, 8192 ≤ i → tm'.tmLinkbuf i = tm.tmLinkbuf i := fun i _ => congrFun hbuf i
      cases r with
      | error e => exact .ret (hf hlen' hs)
      | ok fc =>
        have hfu := hr (hsl fc rfl)
        dsimp only
        split_ifs with hfi hln hnul
        · exact .ret ⟨hlen', hs, fun _ h => Except.ok.inj h ▸ ⟨hfi, k, rfl⟩, nofun⟩
        · rw [outcome_bind_eq]
          refine (tarfsCopyLink_spec (hlen'.trans_lt hlen) hnul).bind ?_
          rintro ⟨tm₁, link⟩ ⟨hsd₁, hlen₁, hfr₁, hc⟩
          dsimp only at hlen₁
          have hs₁ : ∀ i, 8192 ≤ i → tm₁.tmLinkbuf i = tm.tmLinkbuf i := fun i hi =>
            (hfr₁ i hi).trans (hs i hi)
          cases link with
          | error e => exact .ret (hf (hlen₁.trans hlen') hs₁)
          | ok linkuse =>
            obtain ⟨hft, t, rfl, ht⟩ := hc linkuse rfl
            rw [outcome_bind_eq, erase_cons_head]
            rw [← hlen₁] at ht hft
            -- a dot in front of the target is passed over, and the rest is a string
            obtain ⟨t', ht', htl, hb⟩ : ∃ t', (quiet tm₁.tmLinkbuf
                (tarfsLinkStart tm₁) : ByteSource ε).Str t' ∧ t'.length ≤ t.length ∧
                (t = [] → tm₁.tmLinkbuf (tarfsLinkStart tm₁) = 0) := by
              rw [tarfsLinkStart]
              split_ifs with hd
              · cases t with
                | nil => exact absurd (str_nil.mp ht) (by rw [hd.1]; decide)
                | cons b t =>
                  exact ⟨t, ByteSource.Str.append (s := [b]) ht, Nat.le_succ _, nofun⟩
              · refine ⟨t, ht, le_rfl, ?_⟩
                rintro rfl
                exact str_nil.mp ht
            refine (ih (hsd₁.trans hsd ▸ he) ht' ?_ hft ?_ ?_).bind ?_
            · rw [memoryEnd]
              omega
            · omega
            · intro hnx
              have hpos : 0 < t.length := by
                refine length_pos_of_ne_nil fun hnil => ?_
                rw [byte_quiet, Nat.add_zero, hb hnil] at hnx
                cases hnx
              dsimp only
              omega
            · rintro ⟨⟨tm₂, r⟩, held'⟩ ⟨hlen₂, hfr₂, hop, hfl⟩
              dsimp only at hlen₂
              refine .ret ⟨?_, fun i hi => (hfr₂ i hi).trans (hs₁ i hi), hop, hfl⟩
              dsimp only
              omega
        · exact .ret (hf hlen' hs)
        · exact .ret (hf hlen' hs)

end Links

/-- **Opening a file** of any archive returns, with 8192 nested calls at most. -/
theorem tarfs_file_open_cleans {size : ℕ} {s : List UInt8} (hends : tm.tmSdev.EndsAt size)
    (hstr : path.Str s) (hmem : s.length < memoryEnd) (hlen : tm.tmLinklen < 8192) :
    Ensures (tarfsFileOpenHeld vmAlloc (8192 + 1) 0 tm path []).outcome (Cleaned tm []) :=
  tarfsFileOpenHeld_spec hends hstr hmem hlen (by omega) fun _ => by omega

def loopDisk : StorageDevice :=
  ⟨512, fun off => if off = 0 then .ok fun i =>
    if i = 156 then 0x31 else if 157 ≤ i ∧ i < 160 then pathA (i - 157) else emptyHeader i
    else .error .notFound, exists_pow_512⟩

/-- The link to itself is given up. -/
theorem tarfs_file_open_cleans_loop :
    Ensures (tarfsFileOpenHeld (ε := Empty) (fun _ => .ok ⟨fun _ => 0, []⟩) (8192 + 1) 0
      { emptyVolume with tmSdev := loopDisk } (.quiet pathA 0) []).outcome
      (Cleaned { emptyVolume with tmSdev := loopDisk } []) := by
  refine tarfs_file_open_cleans (?_ : loopDisk.EndsAt 1) strAt_pathA (by decide) (by decide)
  refine ⟨by decide, fun off cont hle hc => ?_⟩
  have hne : off ≠ 0 := by
    rintro rfl
    exact absurd hle (by decide)
  rw [StorageDevice.contents] at hc
  split at hc
  · change loopDisk.blocks off 1 = .ok cont at hc
    simp [StorageDevice.blocks, loopDisk, hne, bind, Except.bind] at hc
  · cases hc

end Glatt
