import Glatt.Lib.Traced
import Glatt.Storage.Tarfs
import Glatt.Vm.Alloc

/-!
# The program loader

`exec_elf64_load` of `core_exec.c`. It reads the headers of a program with the `fs_file_read` of a
file system, wires the span of its segments into the kernel's address space, and reads the segments
to there. All integers have the widths of `elf64.h` and wrap.

What the loader writes is an event of its run, and so is the range that it asks for. A run that
halts has the events up to there. A division by zero is a trap in the kernel, like an invalid
access.

## Main definitions

* `FileReader`: the `fs_file_read` of an open file
* `Exec`, `ExecEvent`: a run of the loader with its events
* `execElf64Load`: the loader

## Main results

* `execReadFrom_eq`: the bound on the rounds of `exec_read` only cuts off a loop without end
-/

namespace Glatt

open Imperative Buffer Traced

/-! ## Reading a file -/

/-- `fs_file_read` on an open file: some of the bytes asked for, or an error, unless it halts. -/
structure FileReader where
  read : Int64 → ℕ → Outcome (Except Errno (List UInt8))
  length_le : ∀ off len bytes, read off len = .ok (.ok bytes) → bytes.length ≤ len

/-- How a call of `exec_read` ends, if it does: `stuck` is a loop without end. -/
inductive ReadStatus
  | done
  | failed (e : Errno)
  | halted (h : Halt)
  | stuck
  deriving DecidableEq

/-- The loop of `exec_read`, with the bytes that it has written to the buffer. -/
def execReadFrom (f : FileReader) : ℕ → Int64 → ℕ → List UInt8 × ReadStatus
  | 0, _, _ => ([], .stuck)
  | rounds + 1, off, resid =>
    match f.read off resid with
    | .error h => ([], .halted h)
    | .ok (.error e) => ([], .failed e)
    | .ok (.ok bytes) =>
      if bytes.length = resid then (bytes, .done)
      else
        let rest := execReadFrom f rounds (off + Int64.ofNat bytes.length) (resid - bytes.length)
        (bytes ++ rest.1, rest.2)

/-- `exec_read`. A round that reads nothing is repeated for ever; every other round has less to
read. -/
def execRead (f : FileReader) (off : Int64) (len : ℕ) : List UInt8 × ReadStatus :=
  execReadFrom f (len + 1) off len

section Read

variable {f : FileReader} {off : Int64} {resid : ℕ}

theorem execReadFrom_stuck (hrd : f.read off resid = .ok (.ok [])) (hr : resid ≠ 0) (rounds : ℕ) :
    execReadFrom f rounds off resid = ([], .stuck) := by
  induction rounds with
  | zero => rfl
  | succ rounds ih =>
    have ho : off + Int64.ofNat 0 = off := off.add_zero
    rw [execReadFrom, hrd]
    simp only [List.length_nil, ho, Nat.sub_zero, List.nil_append, if_neg hr.symm, ih]

theorem execReadFrom_eq {rounds : ℕ} (h : resid < rounds) :
    execReadFrom f (rounds + 1) off resid = execReadFrom f rounds off resid := by
  induction rounds generalizing off resid with
  | zero => omega
  | succ rounds ih =>
    rcases hr : f.read off resid with h | e | bytes
    · simp only [execReadFrom, hr]
    · simp only [execReadFrom, hr]
    · by_cases hlen : bytes.length = resid
      · simp only [execReadFrom, hr, hlen, if_true]
      · cases hb : bytes with
        | nil =>
          subst hb
          have hrs : resid ≠ 0 := fun h => hlen h.symm
          rw [execReadFrom_stuck hr hrs, execReadFrom_stuck hr hrs]
        | cons b rest =>
          -- a round that reads something leaves less to read than rounds
          have hle := f.length_le off resid bytes hr
          have hpos : 0 < bytes.length := by
            rw [hb]
            exact Nat.succ_pos _
          rw [execReadFrom, execReadFrom, hr]
          simp only [if_neg hlen]
          rw [ih (by omega)]

end Read

/-! ## The headers -/

/-- `struct elf64_header`, less what the loader does not use. -/
structure Elf64Header where
  ehIdent : ℕ → UInt8
  ehType : UInt16
  ehMachine : UInt16
  ehVersion : UInt32
  ehEntry : UInt64
  ehPhoff : UInt64
  ehPhentsize : UInt16
  ehPhnum : UInt16

/-- `struct elf64_program_header`, less what the loader does not use. -/
structure Elf64ProgramHeader where
  phType : UInt32
  phOff : UInt64
  phVaddr : UInt64
  phFilesize : UInt64
  phMemorysize : UInt64
  phAlign : UInt64

def elf64HeaderSize : ℕ := 64

def elf64ProgramHeaderSize : ℕ := 56

def Elf64Header.ofBytes (bytes : List UInt8) : Elf64Header :=
  let buf i := bytes.getD i 0
  { ehIdent := buf
    ehType := .ofNat (load .big buf 16 2)
    ehMachine := .ofNat (load .big buf 18 2)
    ehVersion := .ofNat (load .big buf 20 4)
    ehEntry := .ofNat (load .big buf 24 8)
    ehPhoff := .ofNat (load .big buf 32 8)
    ehPhentsize := .ofNat (load .big buf 54 2)
    ehPhnum := .ofNat (load .big buf 56 2) }

def Elf64ProgramHeader.ofBytes (bytes : List UInt8) : Elf64ProgramHeader :=
  let buf i := bytes.getD i 0
  { phType := .ofNat (load .big buf 0 4)
    phOff := .ofNat (load .big buf 8 8)
    phVaddr := .ofNat (load .big buf 16 8)
    phFilesize := .ofNat (load .big buf 32 8)
    phMemorysize := .ofNat (load .big buf 40 8)
    phAlign := .ofNat (load .big buf 48 8) }

def Elf64Header.checkMagic (eh : Elf64Header) : Bool :=
  eh.ehIdent 0 == 0x7f && eh.ehIdent 1 == 0x45 && eh.ehIdent 2 == 0x4c && eh.ehIdent 3 == 0x46

def Elf64Header.check (eh : Elf64Header) : Bool :=
  eh.checkMagic && eh.ehVersion == 1 && eh.ehIdent 4 == 2 && eh.ehIdent 5 == 2 && eh.ehMachine == 8
    && eh.ehType == 2
    && eh.ehEntry != 0
    && eh.ehPhentsize.toNat == elf64ProgramHeaderSize
    && eh.ehPhnum != 0

namespace Elf64ProgramHeader

def rounddown (x y : UInt64) : UInt64 := x / y * y

def roundup (x y : UInt64) : UInt64 := (x + (y - 1)) / y * y

variable (ph : Elf64ProgramHeader)

def IsLoad : Prop := ph.phType = 1

instance : Decidable ph.IsLoad := inferInstanceAs (Decidable (_ = _))

def begin : UInt64 := pageFloor (rounddown ph.phVaddr ph.phAlign)

def end_ : UInt64 := pageRoundup (roundup (ph.phVaddr + ph.phMemorysize) ph.phAlign)

def len : UInt64 := if ph.phMemorysize < ph.phFilesize then ph.phMemorysize else ph.phFilesize

end Elf64ProgramHeader

/-! ## Loading -/

/-- What the loader does outside its own variables: it asks for the range of a program, and it
writes bytes to an address, while it has the range of some size that begins at a base. -/
inductive ExecEvent
  | wire (begin end_ : UInt64)
  | write (base size addr : UInt64) (bytes : List UInt8)

abbrev Exec := Traced ExecEvent

def execReadOrPanic (r : List UInt8 × ReadStatus) : Exec (List UInt8) :=
  match r.2 with
  | .done => pure r.1
  | .failed _ => halt .panic
  | .halted h => halt h
  | .stuck => halt .spin

section Load

variable (f : FileReader) (eh : Elf64Header)

def readProgramHeader (i : ℕ) : List UInt8 × ReadStatus :=
  execRead f (eh.ehPhoff + UInt64.ofNat i * UInt64.ofNat elf64ProgramHeaderSize).toInt64
    elf64ProgramHeaderSize

def execProgramHeader (i : ℕ) : Exec Elf64ProgramHeader := do
  let bytes ← execReadOrPanic (readProgramHeader f eh i)
  pure (.ofBytes bytes)

def extendSpan (span : UInt64 × UInt64) (ph : Elf64ProgramHeader) : UInt64 × UInt64 :=
  if span.2 = 0 then (ph.begin, ph.end_)
  else
    (if ph.begin < span.1 then ph.begin else span.1, if span.2 < ph.end_ then ph.end_ else span.2)

def execSpanRound (i : ℕ) (span : UInt64 × UInt64) : Exec (UInt64 × UInt64) := do
  let ph ← execProgramHeader f eh i
  if ph.IsLoad then
    if ph.phAlign = 0 then halt .fault
    else pure (extendSpan span ph)
  else pure span

def execSpan : Exec (UInt64 × UInt64) := forRange (execSpanRound f eh) eh.ehPhnum.toNat (0, 0)

def readSegment (ph : Elf64ProgramHeader) : List UInt8 × ReadStatus :=
  execRead f ph.phOff.toInt64 ph.len.toNat

/-- A round of the second loop. What is read goes to the address of the segment in the range that is
at `kvaddr`, also when the read fails after that. -/
def execSegmentRound (low high kvaddr : UInt64) (i : ℕ) (_ : Unit) : Exec Unit := do
  let ph ← execProgramHeader f eh i
  if ph.IsLoad then
    let r := readSegment f ph
    emit (.write kvaddr (high - low) (kvaddr + (ph.phVaddr - low)) r.1)
    let _ ← execReadOrPanic r
    pure ()
  else pure ()

def execSegments (low high kvaddr : UInt64) : Exec Unit :=
  forRange (execSegmentRound f eh low high kvaddr) eh.ehPhnum.toNat ()

end Load

section Vm

variable {ν ι : Type} [DecidableEq ν] [DecidableEq ι] (kernelVm : ν)

def vmAllocRangeWire (new₁ new₂ new₃ new₄ : Option ι) (vm : ν) (begin end_ : UInt64)
    (s : VmState ν ι) : Outcome (VmState ν ι × Except Errno (UInt64 × UInt64)) :=
  if vm = kernelVm then .error .panic
  else do
    let (index, r) ← vmAllocRange new₁ new₂ begin end_ (s.index vm)
    let s := s.setIndex vm index
    match r with
    | .error e => pure (s, .error e)
    | .ok () =>
      let (s, kvaddr, off) ← vmWire kernelVm new₃ new₄ vm begin (end_ - begin) true s
      pure (s, .ok (kvaddr, off))

def execLoadSpan (f : FileReader) (eh : Elf64Header) (new₁ new₂ new₃ new₄ : Option ι) (vm : ν)
    (s : VmState ν ι) (low high : UInt64) : Exec (VmState ν ι × Except Errno UInt64) :=
  if high = 0 ∨ low = high then pure (s, .error .invalid)
  else do
    emit (.wire low high)
    match ← lift (vmAllocRangeWire kernelVm new₁ new₂ new₃ new₄ vm low high s) with
    | (s, .error e) => pure (s, .error e)
    | (s, .ok (kvaddr, _)) =>
      emit (.write kvaddr (high - low) kvaddr (List.replicate (high - low).toNat 0))
      execSegments f eh low high kvaddr
      let s ← lift (vmUnwire kernelVm vm low (high - low) kvaddr s)
      pure (s, .ok eh.ehEntry)

def execElf64Load (f : FileReader) (new₁ new₂ new₃ new₄ : Option ι) (vm : ν) (s : VmState ν ι) :
    Exec (VmState ν ι × Except Errno UInt64) :=
  match execRead f 0 elf64HeaderSize with
  | (_, .failed e) => pure (s, .error e)
  | (_, .halted h) => halt h
  | (_, .stuck) => halt .spin
  | (bytes, .done) =>
    let eh := Elf64Header.ofBytes bytes
    if eh.check then do
      let (low, high) ← execSpan f eh
      execLoadSpan kernelVm f eh new₁ new₂ new₃ new₄ vm s low high
    else pure (s, .error .invalid)

end Vm

/-! ## The files of a volume -/

theorem TarfsRead.toNat_length_le (c : TarfsRead) : c.length.toNat ≤ c.len.toNat := by
  have hf : c.length ≤ c.fitting := by
    rw [length]
    split_ifs with hlt
    · exact UInt64.le_refl _
    · exact UInt64.not_lt.mp hlt
  have hlen : c.fitting ≤ c.len := by
    rw [fitting]
    split_ifs with hlt
    · exact UInt64.le_refl _
    · exact UInt64.not_lt.mp hlt
  exact UInt64.le_iff_toNat_le.mp (UInt64.le_trans hf hlen)

theorem TarfsRead.length_of_result {c : TarfsRead} {sdev : StorageDevice} {bytes : List UInt8}
    (h : c.result sdev = .ok bytes) : bytes.length ≤ c.len.toNat := by
  rw [result] at h
  split_ifs at h with hp
  · cases h
    exact Nat.zero_le _
  · cases hc : sdev.contents 512 c.daddr with
    | error e =>
      rw [hc] at h
      cases h
    | ok cont =>
      rw [hc] at h
      cases h
      rw [copy, length_slice]
      exact c.toNat_length_le

/-- A file of a `tarfs` volume: by `tarfsOpFileRead_spec` this is what `tarfs_op_file_read` returns
when no other call comes between. -/
def tarfsReader (sdev : StorageDevice) (fc : TarfsFileContext) : FileReader where
  read off len := .ok (TarfsRead.result ⟨fc, off, UInt64.ofNat len⟩ sdev)
  length_le off len bytes h := by
    refine (TarfsRead.length_of_result (Except.ok.inj h)).trans ?_
    show (UInt64.ofNat len).toNat ≤ len
    rw [UInt64.toNat_ofNat']
    exact Nat.mod_le _ _

end Glatt
