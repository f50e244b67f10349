import Glatt.Lib.Traced
import Glatt.Mu.FileIo

/-!
# Shell scripts

`process_file` of `sh/sh.c`. The shell asks for a page of the file at the beginning of each line and
looks for the end of the line in what it gets. The file system returns no more than the rest of a
block, so a line is found only if it does not go on in the next block.

## Main definitions

* `processFile`: the function, with the lines that it runs
* `InBlocks`: each line is in one block

## Main results

* `shell_script_whole`: a script is run whole exactly if each of its lines is in one block
-/

namespace Glatt

open Imperative Traced Buffer List

/-! ## The function -/

/-- What the shell does: it prints, runs a line, closes the file, or ends with an error. -/
inductive ShellEvent
  | printf (msg : String) (error : UInt32)
  | processLine (line : List UInt8)
  | close
  | fatal (msg : String) (error : UInt32)
  deriving DecidableEq

def fatal {α : Type} (msg : String) (error : UInt32) : Traced ShellEvent α := do
  emit (.fatal msg error)
  halt .panic

/-- How the search for the end of a line ends: with a NUL byte, with a newline, or with the
buffer. -/
inductive LineEnd
  | nul
  | newline (i : ℕ)
  | missing
  deriving DecidableEq

def lineEndRound (buf : ℕ → UInt8) (len i : ℕ) : Outcome (ℕ ⊕ LineEnd) :=
  if i = len then pure (.inr .missing)
  else if buf i = 0 then pure (.inr .nul)
  else if buf i ≠ 0x0a then pure (.inl (i + 1))
  else pure (.inr (.newline i))

def lineEnd (buf : ℕ → UInt8) (len : ℕ) : Outcome LineEnd := loop (lineEndRound buf len) (len + 1) 0

/-- One round of the loop of `process_file`, which returns whether the file is to be closed. The
line is the string in the buffer when a NUL byte has been put in the place of the newline. -/
def processFileRound (env : Int64 → RequestEnv) (processLine : List UInt8 → Except UInt32 Unit) :
    FileService × Int64 → Traced ShellEvent ((FileService × Int64) ⊕ Option FileService)
  | (file, offset) => do
    let (file, r) ← lift (Libmu.read file (env offset) offset 8192)
    match r with
    | .error e => do
      emit (.printf "%s: read failed: %m\n" e)
      pure (.inr none)
    | .ok (page, len) =>
      if len = 0 then pure (.inr (some file))
      else
        match page with
        | none => halt .fault
        | some buf => do
          match ← lift (lineEnd buf len.toNat) with
          | .nul => fatal "file contains embedded NUL" Errno.unexpected.code.toUInt32
          | .missing => fatal "line longer than a page" Errno.unexpected.code.toUInt32
          | .newline i => do
            let line := slice buf 0 i
            emit (.processLine line)
            match processLine line with
            | .error e => fatal "exec line failed" e
            | .ok () => pure (.inl (file, offset + Int64.ofNat (i + 1)))

def processFileClose (file : FileService) (env : RequestEnv) : Traced ShellEvent Unit := do
  match ← lift (Libmu.close file env) with
  | .error e => fatal "close failed" e
  | .ok () => emit .close

/-- `process_file`, from what `open` has returned on. The requests for the bytes at an offset are
made with `env`, and `processLine` is what `process_line` returns. -/
def processFile (env : Int64 → RequestEnv) (processLine : List UInt8 → Except UInt32 Unit)
    (opened : Except UInt32 FileService) : Traced ShellEvent Unit :=
  match opened with
  | .error e => emit (.printf "%s: open %s failed: %m\n" e)
  | .ok file => do
    match ← loop (processFileRound env processLine) (2 ^ 64) (file, 0) with
    | none => pure ()
    | some file => processFileClose file (env 0)

/-! ## Scripts -/

def scriptBytes (lines : List (List UInt8)) : List UInt8 := lines.flatMap (· ++ [0x0a])

/-- A line of the length `n` at the offset `o` is in one block with its newline. -/
def InBlock (o n : ℕ) : Prop := o / 512 = (o + n) / 512

instance (o n : ℕ) : Decidable (InBlock o n) := inferInstanceAs (Decidable (_ = _))

/-- A line as it may be in a script. -/
structure IsLine (line : List UInt8) : Prop where
  nonzero : 0 ∉ line
  no_newline : 0x0a ∉ line
  short : line.length < 8192

theorem scriptBytes_cons {line : List UInt8} {lines : List (List UInt8)} :
    scriptBytes (line :: lines) = line ++ 0x0a :: scriptBytes lines := by
  rw [scriptBytes, flatMap_cons, append_assoc]
  rfl

def InBlocks : ℕ → List (List UInt8) → Prop
  | _, [] => True
  | o, line :: lines => InBlock o line.length ∧ InBlocks (o + (line.length + 1)) lines

/-! ## One round -/

section Round

variable {buf : ℕ → UInt8} {len : ℕ} {line rest bytes : List UInt8}

theorem lineEnd_spec (hl : IsLine line) {n : ℕ} (hn : n ≤ len)
    (hb : ∀ i < n, (line)[i]? = some (buf i)) {e : LineEnd}
    (hend : lineEndRound buf len n = .ok (.inr e)) : lineEnd buf len = .ok e := by
  refine Ensures.eq_ok ?_
  refine Ensures.loop (I := fun m i => i ≤ n ∧ m = n - i) ?_ ⟨Nat.zero_le _, rfl⟩ (by omega)
  rintro _ i ⟨hi, rfl⟩
  rcases Nat.lt_or_eq_of_le hi with hlt | rfl
  · have hmem : buf i ∈ line := mem_of_getElem? (hb i hlt)
    rw [lineEndRound, if_neg (by omega), if_neg fun h : buf i = 0 => hl.nonzero (h ▸ hmem),
      if_pos fun h : buf i = 0x0a => hl.no_newline (h ▸ hmem)]
    exact .ret ⟨n - (i + 1), by omega, hlt, rfl⟩
  · exact ⟨_, hend, rfl⟩

structure FileService.Has (file : FileService) (image : DiskImage) (bytes : List UInt8) :
    Prop where
  serves : file.mount.tmSdev.Serves image
  on : file.context.On image
  bytes : file.context.bytes image = bytes

variable {image : DiskImage} {file : FileService} {off : Int64} {env : Int64 → RequestEnv}
  {run : List UInt8 → Except UInt32 Unit}

theorem FileService.Has.length_lt (h : file.Has image bytes) : bytes.length < 2 ^ 37 := by
  rw [← h.bytes, h.on.length_bytes]
  exact file.context.dsize_lt

theorem FileService.Has.read (h : file.Has image bytes) (ho : off.toUInt64.toNat ≤ bytes.length)
    (req : RequestEnv) : ∃ file' page, Libmu.read file req off 8192 =
        .ok (file', .ok (page, UInt64.ofNat (filePiece bytes off.toUInt64.toNat).length)) ∧
      file'.Has image bytes ∧
      (filePiece bytes off.toUInt64.toNat ≠ [] → ∃ buf, page = some buf ∧
        ∀ i < (filePiece bytes off.toUInt64.toNat).length,
          (filePiece bytes off.toUInt64.toNat)[i]? = some (buf i)) := by
  obtain ⟨hs, hon, rfl⟩ := h
  rw [hon.length_bytes] at ho
  obtain ⟨mount, page, hr, hsd, hp⟩ := Libmu.read_on req hs hon (UInt64.le_iff_toNat_le.mpr ho) rfl
  exact ⟨_, page, hr, ⟨hsd ▸ hs, hon, rfl⟩, hp⟩

variable (env run) in
theorem processFileRound_end (h : file.Has image bytes) (ho : off.toUInt64.toNat = bytes.length) :
    ∃ file', file'.Has image bytes ∧
      processFileRound env run (file, off) = ⟨[], .ok (.inr (some file'))⟩ := by
  obtain ⟨file', page, hr, h', -⟩ := h.read (Nat.le_of_eq ho) (env off)
  have hn : filePiece bytes off.toUInt64.toNat = [] := by
    rw [filePiece, drop_of_length_le (Nat.le_of_eq ho.symm), take_nil]
  rw [hn] at hr
  refine ⟨file', h', ?_⟩
  rw [processFileRound, hr]
  rfl

variable (env run) in
theorem processFileRound_line (h : file.Has image bytes)
    (hbt : bytes.drop off.toUInt64.toNat = line ++ 0x0a :: rest) (hl : IsLine line) :
    ∃ file', file'.Has image bytes ∧ processFileRound env run (file, off) =
      if InBlock off.toUInt64.toNat line.length then do
        emit (.processLine line)
        match run line with
        | .error e => fatal "exec line failed" e
        | .ok () => pure (.inl (file', off + Int64.ofNat (line.length + 1)))
      else fatal "line longer than a page" Errno.unexpected.code.toUInt32 := by
  have hlt : off.toUInt64.toNat < bytes.length := by
    have := congrArg length hbt
    rw [length_drop, length_append, length_cons] at this
    omega
  obtain ⟨file', page, hr, h', hp⟩ := h.read (Nat.le_of_lt hlt) (env off)
  refine ⟨file', h', ?_⟩
  -- the piece that is read is not empty
  have hpc : filePiece bytes off.toUInt64.toNat =
      (line ++ 0x0a :: rest).take (512 - off.toUInt64.toNat % 512) := by
    rw [filePiece, hbt]
  rw [hpc] at hr hp
  generalize hm : 512 - off.toUInt64.toNat % 512 = m at hr hp
  have hlen : ((line ++ 0x0a :: rest).take m).length = min m (line.length + (rest.length + 1)) := by
    rw [length_take, length_append, length_cons]
  obtain ⟨buf, rfl, hbuf⟩ := hp fun hnil => by
    rw [hnil, length_nil] at hlen
    omega
  rw [hlen] at hr
  have ht : (UInt64.ofNat (min m (line.length + (rest.length + 1)))).toNat =
      min m (line.length + (rest.length + 1)) :=
    UInt64.toNat_ofNat_of_lt' (show _ < 2 ^ 64 by omega)
  have hne : UInt64.ofNat (min m (line.length + (rest.length + 1))) ≠ 0 := by
    intro hz
    rw [← UInt64.toNat_inj, UInt64.toNat_zero] at hz
    omega
  rw [processFileRound, hr, lift_ok_bind]
  dsimp only
  rw [if_neg hne, ht]
  have hin : InBlock off.toUInt64.toNat line.length ↔ line.length < m := by
    rw [InBlock]
    omega
  have hby : ∀ i < min m line.length, (line)[i]? = some (buf i) := by
    intro i hi
    rw [← hbuf i (by omega), getElem?_take, if_pos (by omega), getElem?_append_left (by omega)]
  by_cases hb : InBlock off.toUInt64.toNat line.length
  · -- the newline is in the piece
    rw [if_pos hb]
    rw [hin] at hb
    have hn : buf line.length = 0x0a := by
      have := hbuf line.length (by omega)
      rw [getElem?_take, if_pos hb, getElem?_append_right (Nat.le_refl _), Nat.sub_self] at this
      exact (Option.some.inj this).symm
    have hend : lineEndRound buf (min m (line.length + (rest.length + 1))) line.length =
        .ok (.inr (.newline line.length)) := by
      rw [lineEndRound, if_neg (by omega), hn]
      rfl
    have hs : slice buf 0 line.length = line := by
      refine ext_getElem? fun i => ?_
      by_cases hi : i < line.length
      · rw [getElem?_eq_getElem (by rw [length_slice]; exact hi), getElem_slice,
          hby i (by omega), Nat.zero_add]
      · rw [getElem?_eq_none (by rw [length_slice]; omega), getElem?_eq_none (by omega)]
    rw [lineEnd_spec hl (by omega) (fun i hi => hby i (by omega)) hend, lift_ok_bind]
    dsimp only
    rw [hs]
  · -- the block ends before the line
    rw [if_neg hb]
    rw [hin] at hb
    have hend : lineEndRound buf (min m (line.length + (rest.length + 1)))
        (min m (line.length + (rest.length + 1))) = .ok (.inr .missing) := by
      rw [lineEndRound, if_pos rfl]
      rfl
    rw [lineEnd_spec hl (Nat.le_refl _) (fun i hi => hby i (by omega)) hend, lift_ok_bind]

end Round

/-! ## Scripts on a disk -/

def scriptImage (script : List UInt8) (h : script.length ≤ 1024) : DiskImage where
  bytes := replicate 512 0 ++ (script ++ replicate (1024 - script.length) 0)
  blocks := by
    simp only [length_append, length_replicate]
    omega
  addressable := by
    simp only [length_append, length_replicate]
    omega

def scriptFile (script : List UInt8) (h : script.length ≤ 1024) : FileService where
  mount := ⟨(scriptImage script h).disk, fun _ => 0, fun _ => 0⟩
  context := ⟨512, UInt64.ofNat script.length, by
    rw [UInt64.toNat_ofNat_of_lt' (show _ < 2 ^ 64 by omega)]
    omega⟩
  port := 1

theorem scriptFile_has {script : List UInt8} (h : script.length ≤ 1024) :
    (scriptFile script h).Has (scriptImage script h) script := by
  have hs : (scriptFile script h).context.fDsize.toNat = script.length :=
    UInt64.toNat_ofNat_of_lt' (show _ < 2 ^ 64 by omega)
  have hd : (scriptFile script h).context.fDaddr.toNat = 512 := rfl
  refine ⟨DiskImage.disk_serves, ⟨by rw [hd], ?_⟩, ?_⟩
  · rw [scriptImage]
    simp only [length_append, length_replicate]
    omega
  · have hz : (replicate 512 (0 : UInt8)).length = 512 := length_replicate
    rw [TarfsFileContext.bytes, hs, hd, scriptImage]
    rw [drop_left' hz, take_left]

/-! ## Whole scripts -/

section Script

variable {image : DiskImage} {file : FileService} {bytes : List UInt8} {env : Int64 → RequestEnv}
  {run : List UInt8 → Except UInt32 Unit}

variable (env) in
theorem processFile_lines (hrun : ∀ line, run line = .ok ()) {lines : List (List UInt8)}
    (hln : ∀ line ∈ lines, IsLine line) {n : ℕ} (hn : lines.length < n) {off : Int64}
    (h : file.Has image bytes) (ho : off.toUInt64.toNat ≤ bytes.length)
    (hb : bytes.drop off.toUInt64.toNat = scriptBytes lines) :
    (InBlocks off.toUInt64.toNat lines → ∃ file',
      Traced.loop (processFileRound env run) n (file, off) =
        ⟨lines.map .processLine, .ok (some file')⟩) ∧
    (¬ InBlocks off.toUInt64.toNat lines → ∃ lines', lines' <+: lines ∧ lines' ≠ lines ∧
      Traced.loop (processFileRound env run) n (file, off) =
        ⟨lines'.map .processLine ++
          [.fatal "line longer than a page" Errno.unexpected.code.toUInt32], .error .panic⟩) := by
  obtain ⟨n, rfl⟩ : ∃ k, n = k + 1 := ⟨n - 1, by omega⟩
  induction lines generalizing file off n with
  | nil =>
    have hend : off.toUInt64.toNat = bytes.length := Nat.le_antisymm ho (drop_eq_nil_iff.mp hb)
    obtain ⟨file', -, hr⟩ := processFileRound_end env run h hend
    exact ⟨fun _ => ⟨file', loop_done hr⟩, fun hnot => absurd trivial hnot⟩
  | cons line lines ih =>
    rw [scriptBytes_cons] at hb
    have hlt := h.length_lt
    have hlen := congrArg length hb
    rw [length_drop, length_append, length_cons] at hlen
    obtain ⟨file', h', hr⟩ := processFileRound_line env run h hb (hln line mem_cons_self)
    by_cases hbl : InBlock off.toUInt64.toNat line.length
    · rw [if_pos hbl, hrun line] at hr
      have hnx := toNat_off_add (show off.toUInt64.toNat + (line.length + 1) < 2 ^ 64 by omega)
      have hrs : bytes.drop (off + Int64.ofNat (line.length + 1)).toUInt64.toNat =
          scriptBytes lines := by
        rw [hnx, ← drop_drop, hb, ← drop_drop, drop_left]
        rfl
      rw [length_cons] at hn
      obtain ⟨k, rfl⟩ : ∃ k, n = k + 1 := ⟨n - 1, by omega⟩
      have hs := loop_next (n := k + 1) hr
      obtain ⟨ha, hf⟩ := ih (fun line hm => hln line (mem_cons_of_mem _ hm)) h'
        (by omega) hrs k (by omega)
      rw [hnx] at ha hf
      refine ⟨fun hin => ?_, fun hnot => ?_⟩
      · obtain ⟨file'', hl⟩ := ha hin.2
        refine ⟨file'', ?_⟩
        rw [hs, hl]
        rfl
      · obtain ⟨lines', hp, hne, hl⟩ := hf fun hin => hnot ⟨hbl, hin⟩
        refine ⟨line :: lines', (prefix_cons_inj line).mpr hp, fun heq => hne (cons.inj heq).2, ?_⟩
        rw [hs, hl]
        rfl
    · rw [if_neg hbl] at hr
      exact ⟨fun hin => absurd hin.1 hbl, fun _ =>
        ⟨[], nil_prefix, nofun, loop_halt hr⟩⟩

theorem processFile_script (hrun : ∀ line, run line = .ok ()) {lines : List (List UInt8)}
    (hln : ∀ line ∈ lines, IsLine line) (h : file.Has image (scriptBytes lines)) :
    (InBlocks 0 lines →
      processFile env run (.ok file) = ⟨lines.map .processLine ++ [.close], .ok ()⟩) ∧
    (¬ InBlocks 0 lines → ∃ lines', lines' <+: lines ∧ lines' ≠ lines ∧
      processFile env run (.ok file) = ⟨lines'.map .processLine ++
        [.fatal "line longer than a page" Errno.unexpected.code.toUInt32], .error .panic⟩) := by
  have hlt := h.length_lt
  have hcn : lines.length ≤ (scriptBytes lines).length := by
    clear h hlt hln
    induction lines with
    | nil => exact Nat.le_refl _
    | cons line lines ih =>
      rw [scriptBytes_cons, length_append, length_cons, length_cons]
      omega
  obtain ⟨ha, hf⟩ := processFile_lines env hrun hln
    (show lines.length < 2 ^ 64 by omega) h (show (0 : Int64).toUInt64.toNat ≤ _ from Nat.zero_le _)
    rfl
  refine ⟨fun hin => ?_, fun hn => ?_⟩
  · obtain ⟨file', hl⟩ := ha hin
    rw [processFile, hl]
    have hc : processFileClose file' (env 0) = emit .close := by
      rw [processFileClose, Libmu.close_ok, lift_ok_bind]
    show (⟨_ ++ (processFileClose file' (env 0)).log, (processFileClose file' (env 0)).outcome⟩ :
      Traced ShellEvent Unit) = _
    rw [hc]
    rfl
  · obtain ⟨lines', hp, hne, hl⟩ := hf hn
    refine ⟨lines', hp, hne, ?_⟩
    rw [processFile, hl]
    rfl

/-- **A script is run whole**, that is, all its lines are run one after the other and then the file
is closed, exactly if each of its lines is in one block of the file. -/
theorem shell_script_whole (hrun : ∀ line, run line = .ok ()) {lines : List (List UInt8)}
    (hlines : ∀ line ∈ lines, IsLine line) (h : file.Has image (scriptBytes lines)) :
    processFile env run (.ok file) = ⟨lines.map .processLine ++ [.close], .ok ()⟩ ↔
      InBlocks 0 lines := by
  refine ⟨fun hw => ?_, (processFile_script hrun hlines h).1⟩
  by_contra hn
  obtain ⟨lines', -, -, hs⟩ := (processFile_script hrun hlines h).2 hn
  have := hw.symm.trans hs
  cases congrArg outcome this

end Script

/-- Two lines in the first block are run. -/
theorem shell_script_whole_two :
    processFile (fun _ => ⟨2, 0, fun _ => 0⟩) (fun _ => .ok ())
      (.ok (scriptFile (scriptBytes [[0x61], [0x62]]) (by decide))) =
      ⟨[.processLine [0x61], .processLine [0x62], .close], .ok ()⟩ := by
  have hl : ∀ line ∈ ([[0x61], [0x62]] : List (List UInt8)), IsLine line := by
    intro line hln
    rcases mem_pair.mp hln with rfl | rfl <;> exact ⟨by decide, by decide, by decide⟩
  exact (shell_script_whole (fun _ => rfl) hl (scriptFile_has _)).mpr
    ⟨by decide, by decide, trivial⟩

def crossingScript : List (List UInt8) :=
  [replicate 505 0x23, [0x2f, 0x62, 0x69, 0x6e, 0x2f, 0x68, 0x65, 0x6c, 0x6c, 0x6f]]

/-- **A command that goes on in the next block** ends the shell: the script is not run whole. -/
theorem crossing_line_is_fatal : (∀ line ∈ crossingScript, IsLine line) ∧
    ∃ lines', lines' <+: crossingScript ∧ lines' ≠ crossingScript ∧
      processFile (fun _ => ⟨2, 0, fun _ => 0⟩) (fun _ => .ok ())
        (.ok (scriptFile (scriptBytes crossingScript) (by decide +kernel))) =
        ⟨lines'.map .processLine ++ [.fatal "line longer than a page" 7], .error .panic⟩ := by
  have hln : ∀ line ∈ crossingScript, IsLine line := by
    intro line hl
    rcases mem_cons.mp hl with rfl | hl
    · refine ⟨?_, ?_, ?_⟩
      · rw [mem_replicate]
        decide
      · rw [mem_replicate]
        decide
      · rw [length_replicate]
        decide
    · rw [mem_singleton.mp hl]
      exact ⟨by decide, by decide, by decide⟩
  refine ⟨hln, (processFile_script (fun _ => rfl) hln (scriptFile_has _)).2 fun hin => ?_⟩
  have hb := hin.2.1
  rw [length_replicate] at hb
  revert hb
  decide

end Glatt
