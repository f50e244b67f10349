import Mathlib.Data.UInt

/-!
# Exception handlers in MIPS assembly

The instructions that exception handlers are written in, on a 64-bit MIPS processor. A branch takes
effect after the instruction that follows it, its delay slot. A handler runs until it returns from
the exception, jumps to a symbol outside of its text, or traps.

## Main definitions

* `Instr`: an instruction, over the symbols a handler can jump to
* `Cpu`, `Hardware`: the registers, the memory and the TLB, and how the TLB is searched
* `step`: one instruction
* `Runs`: a number of steps leads from one state to another

## Main results

* `Runs.exec`: the instruction at the program counter comes first
* `Runs.beqz`, `Runs.bltz`, `Runs.teq`, `Runs.tgeu`: a branch with its delay slot, and a trap that
  is not taken
* `toInt64_neg_iff`, `toNat_scaledIndex`: the sign of an address, and a table index that is taken
  from it scaled by the size of a pointer
-/

namespace Mips

open Function

/-- A general register. -/
abbrev Reg := Fin 32

/-- The register that is always zero. -/
def zero : Reg := 0

/-- The first register that is reserved for the kernel. -/
def k0 : Reg := 26

/-- The second register that is reserved for the kernel. -/
def k1 : Reg := 27

/-- A register of the system coprocessor. -/
inductive Cp0
  | badVAddr
  | entryHi
  | entryLo0
  | entryLo1
  | index
  | random
  deriving DecidableEq

/-- An instruction. Constants are 64 bits wide where the assembler loads them with several
instructions, and 16 bits wide where they are part of one. -/
inductive Instr (σ : Type)
  | nop
  | dli (rd : Reg) (value : UInt64)
  | ld (rd : Reg) (offset : UInt64) (base : Reg)
  | daddiu (rd rs : Reg) (imm : UInt16)
  | daddu (rd rs rt : Reg)
  | dsrl (rd rs : Reg) (shift : UInt64)
  | andi (rd rs : Reg) (imm : UInt16)
  | dmfc0 (rd : Reg) (c : Cp0)
  | mfc0 (rd : Reg) (c : Cp0)
  | dmtc0 (rs : Reg) (c : Cp0)
  | b (target : ℕ)
  | bltz (rs : Reg) (target : ℕ)
  | beqz (rs : Reg) (target : ℕ)
  | j (symbol : σ)
  | teq (rs rt : Reg)
  | tgeu (rs rt : Reg)
  | tlbp
  | tlbwi
  | tlbwr
  | eret

/-- Where the processor is: at an instruction of the text, at a symbol outside of it, returned from
the exception, or trapped. -/
inductive Loc (σ : Type)
  | text (n : ℕ)
  | symbol (f : σ)
  | returned
  | trapped
  deriving DecidableEq

structure TlbEntry where
  hi : UInt64
  lo0 : UInt64
  lo1 : UInt64
  deriving DecidableEq

/-- The processor, with the memory as doublewords at their addresses. -/
structure Cpu (σ : Type) where
  regs : Reg → UInt64
  cp0 : Cp0 → UInt64
  mem : UInt64 → UInt64
  tlb : UInt64 → TlbEntry
  pc : Loc σ
  npc : Loc σ

/-- How the TLB is searched for an `EntryHi`: what the search leaves in `Index`. -/
structure Hardware where
  probe : UInt64 → (UInt64 → TlbEntry) → UInt64

variable {σ : Type}

/-- The place after a place. -/
def Loc.next : Loc σ → Loc σ
  | text n => text (n + 1)
  | l => l

/-- A word of 16 bits as a signed doubleword. -/
def signExtend16 (x : UInt16) : UInt64 := x.toInt16.toInt64.toUInt64

/-- The low 32 bits of a doubleword as a signed doubleword. -/
def signExtend32 (x : UInt64) : UInt64 := x.toUInt32.toInt32.toInt64.toUInt64

/-- A register is written; the zero register stays. -/
def Cpu.set (s : Cpu σ) (rd : Reg) (value : UInt64) : Cpu σ :=
  { s with regs := if rd = zero then s.regs else update s.regs rd value }

/-- A register of the coprocessor is written. -/
def Cpu.setCp0 (s : Cpu σ) (c : Cp0) (value : UInt64) : Cpu σ :=
  { s with cp0 := update s.cp0 c value }

/-- The entry of the TLB that the coprocessor holds is written. -/
def Cpu.writeTlb (s : Cpu σ) (i : UInt64) : Cpu σ :=
  { s with tlb := update s.tlb i ⟨s.cp0 .entryHi, s.cp0 .entryLo0, s.cp0 .entryLo1⟩ }

/-- On to the next instruction. -/
def Cpu.advance (s : Cpu σ) : Cpu σ := { s with pc := s.npc, npc := s.npc.next }

/-- On to the delay slot, and then to the target. -/
def Cpu.branch (s : Cpu σ) (target : Loc σ) : Cpu σ := { s with pc := s.npc, npc := target }

def Instr.exec (hw : Hardware) (s : Cpu σ) : Instr σ → Cpu σ
  | nop => s.advance
  | dli rd value => (s.set rd value).advance
  | ld rd offset base => (s.set rd (s.mem (s.regs base + offset))).advance
  | daddiu rd rs imm => (s.set rd (s.regs rs + signExtend16 imm)).advance
  | daddu rd rs rt => (s.set rd (s.regs rs + s.regs rt)).advance
  | dsrl rd rs shift => (s.set rd (s.regs rs >>> shift)).advance
  | andi rd rs imm => (s.set rd (s.regs rs &&& imm.toUInt64)).advance
  | dmfc0 rd c => (s.set rd (s.cp0 c)).advance
  | mfc0 rd c => (s.set rd (signExtend32 (s.cp0 c))).advance
  | dmtc0 rs c => (s.setCp0 c (s.regs rs)).advance
  | b target => s.branch (.text target)
  | bltz rs target => if (s.regs rs).toInt64 < 0 then s.branch (.text target) else s.advance
  | beqz rs target => if s.regs rs = 0 then s.branch (.text target) else s.advance
  | j symbol => s.branch (.symbol symbol)
  | teq rs rt => if s.regs rs = s.regs rt then { s with pc := .trapped } else s.advance
  | tgeu rs rt => if s.regs rs ≥ s.regs rt then { s with pc := .trapped } else s.advance
  | tlbp => (s.setCp0 .index (hw.probe (s.cp0 .entryHi) s.tlb)).advance
  | tlbwi => (s.writeTlb (s.cp0 .index)).advance
  | tlbwr => (s.writeTlb (s.cp0 .random)).advance
  | eret => { s with pc := .returned }

/-- One step: the instruction at the program counter. A handler that has left its text stays where
it is, and there is nothing to execute behind the text. -/
def step (hw : Hardware) (text : List (Instr σ)) (s : Cpu σ) : Cpu σ :=
  match s.pc with
  | .text n =>
    match text[n]? with
    | some i => i.exec hw s
    | none => { s with pc := .trapped }
  | _ => s

variable {hw : Hardware} {text : List (Instr σ)} {s s' s'' : Cpu σ}

/-! ## Runs -/

/-- A number of steps leads from `s` to `s'`. -/
def Runs (hw : Hardware) (text : List (Instr σ)) (s s' : Cpu σ) : Prop :=
  ∃ n, (step hw text)^[n] s = s'

theorem Runs.refl : Runs hw text s s := ⟨0, rfl⟩

theorem Runs.trans (h : Runs hw text s s') (h' : Runs hw text s' s'') : Runs hw text s s'' := by
  obtain ⟨m, rfl⟩ := h
  obtain ⟨n, rfl⟩ := h'
  exact ⟨n + m, iterate_add_apply _ _ _ _⟩

/-- **The instruction at the program counter** is executed first. -/
theorem Runs.exec {n : ℕ} {i : Instr σ} (hpc : s.pc = .text n) (hi : text[n]? = some i)
    (h : Runs hw text (i.exec hw s) s') : Runs hw text s s' := by
  have hs : step hw text s = i.exec hw s := by
    rw [step, hpc]
    simp only [hi]
  exact trans ⟨1, hs⟩ h

section Branches

variable {regs : Reg → UInt64} {cp0 : Cp0 → UInt64} {mem : UInt64 → UInt64}
variable {tlb : UInt64 → TlbEntry} {n target : ℕ} {rs : Reg}

/-- A branch on zero, with nothing in its delay slot. -/
theorem Runs.beqz (hi : text[n]? = some (.beqz rs target)) (hn : text[n + 1]? = some .nop)
    (h : Runs hw text (if regs rs = 0 then ⟨regs, cp0, mem, tlb, .text target, .text (target + 1)⟩
      else ⟨regs, cp0, mem, tlb, .text (n + 2), .text (n + 3)⟩) s') :
    Runs hw text ⟨regs, cp0, mem, tlb, .text n, .text (n + 1)⟩ s' := by
  refine .exec rfl hi ?_
  by_cases hz : regs rs = 0
  · rw [if_pos hz] at h
    rw [Instr.exec, if_pos hz]
    exact .exec rfl hn h
  · rw [if_neg hz] at h
    rw [Instr.exec, if_neg hz]
    exact .exec rfl hn h

/-- A branch on a negative number, with nothing in its delay slot. -/
theorem Runs.bltz (hi : text[n]? = some (.bltz rs target)) (hn : text[n + 1]? = some .nop)
    (h : Runs hw text (if (regs rs).toInt64 < 0
      then ⟨regs, cp0, mem, tlb, .text target, .text (target + 1)⟩
      else ⟨regs, cp0, mem, tlb, .text (n + 2), .text (n + 3)⟩) s') :
    Runs hw text ⟨regs, cp0, mem, tlb, .text n, .text (n + 1)⟩ s' := by
  refine .exec rfl hi ?_
  by_cases hz : (regs rs).toInt64 < 0
  · rw [if_pos hz] at h
    rw [Instr.exec, if_pos hz]
    exact .exec rfl hn h
  · rw [if_neg hz] at h
    rw [Instr.exec, if_neg hz]
    exact .exec rfl hn h

/-- A trap that is not taken. -/
theorem Runs.teq {rt : Reg} (hi : text[n]? = some (.teq rs rt)) (hne : regs rs ≠ regs rt)
    (h : Runs hw text ⟨regs, cp0, mem, tlb, .text (n + 1), .text (n + 2)⟩ s') :
    Runs hw text ⟨regs, cp0, mem, tlb, .text n, .text (n + 1)⟩ s' := by
  refine .exec rfl hi ?_
  rw [Instr.exec, if_neg hne]
  exact h

/-- A trap on an unsigned comparison that is not taken. -/
theorem Runs.tgeu {rt : Reg} (hi : text[n]? = some (.tgeu rs rt)) (hlt : regs rs < regs rt)
    (h : Runs hw text ⟨regs, cp0, mem, tlb, .text (n + 1), .text (n + 2)⟩ s') :
    Runs hw text ⟨regs, cp0, mem, tlb, .text n, .text (n + 1)⟩ s' := by
  refine .exec rfl hi ?_
  rw [Instr.exec, if_neg (UInt64.not_le.mpr hlt)]
  exact h

end Branches

/-! ## Arithmetic of handlers -/

theorem toInt64_neg_iff (x : UInt64) : x.toInt64 < 0 ↔ 2 ^ 63 ≤ x.toNat := by
  have hx := x.toNat_lt
  rw [Int64.lt_iff_toInt_lt, show x.toInt64.toInt = x.toBitVec.toInt from rfl,
    BitVec.toInt_eq_toNat_cond, UInt64.toNat_toBitVec]
  split <;> simp <;> omega

theorem and_shiftLeft (y m k : ℕ) : y &&& (m <<< k) = ((y >>> k) &&& m) <<< k := by
  apply Nat.eq_of_testBit_eq
  intro i
  by_cases hi : k ≤ i
  · simp [hi]
  · simp [hi]

/-- **A scaled index**: shifting three bits less and masking with the mask shifted by three bits
gives eight times the index. -/
theorem toNat_scaledIndex {shift : UInt64} {imm : UInt16} {n : ℕ} (v : UInt64)
    (hs : shift.toNat < 64) (himm : imm.toNat = (2 ^ n - 1) <<< 3) :
    ((v >>> shift) &&& imm.toUInt64).toNat = 8 * (v.toNat / 2 ^ (shift.toNat + 3) % 2 ^ n) := by
  rw [UInt64.toNat_and, UInt64.toNat_shiftRight, UInt16.toNat_toUInt64, himm, Nat.mod_eq_of_lt hs,
    and_shiftLeft, Nat.and_two_pow_sub_one_eq_mod, Nat.shiftLeft_eq, ← Nat.shiftRight_add,
    Nat.shiftRight_eq_div_pow, Nat.mul_comm]

end Mips
