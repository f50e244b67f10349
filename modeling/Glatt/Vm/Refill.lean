import Glatt.Lib.Mips
import Glatt.Vm.PmapRefinement

/-!
# Refilling the TLB

The handler `tlb_exception` of `cpu_vector.S` walks the page table of the address that missed in the
TLB, with shifts and masks of its own, and loads the entry it finds. This module runs its text on
a memory that holds the page tables, and compares it with `pmap_find` and `tlb_update`.

## Main definitions

* `tlbException`: the text of the handler
* `AtStart`, `TlbRefilled`: a CPU that enters it, and what it leaves in the TLB

## Main results

* `refill_agrees`: the handler and `pmap_find` agree
-/

namespace Glatt

open Imperative Transition Mips Function

/-! ## The handler -/

/-- The offsets of the fields that the handler reads, and the address of `kernel_vm`. -/
structure Layout where
  pcThread : UInt64
  tdTask : UInt64
  tVm : UInt64
  vmPmap : UInt64
  kernelVm : UInt64

/-- The symbols that the handler jumps to. -/
inductive Symbol
  | genericException
  deriving DecidableEq

def pcpuVirtual : UInt64 := kernelBase

def pteL1Shift : UInt64 := 13

def l1L0Shift : UInt64 := 23

def pmapL0Shift : UInt64 := 33

def pteL1Mask : UInt16 := 1024 - 1

def l1L0Mask : UInt16 := 1024 - 1

def pmapL0Mask : UInt16 := 128 - 1

def pmLevel0Offset : UInt16 := 0

def tlbPageSize : UInt64 := (1 : UInt64) <<< 12

def tlbLo1PageOffset : UInt16 := (tlbloPaToPfn tlbPageSize).toUInt16

def tlbException (l : Layout) : List (Instr Symbol) := [ .dmfc0 k0 .badVAddr,
  -- a kernel or a user address
  .bltz k0 12,
  .nop,
  .dli k1 pcpuVirtual,
  .ld k1 l.pcThread k1,
  .teq k1 zero,
  .ld k1 l.tdTask k1,
  .teq k1 zero,
  .ld k1 l.tVm k1,
  .teq k1 zero,
  .b 15,
  .nop,
  -- 12: a kernel address
  .dli k1 kernelEnd,
  .tgeu k0 k1,
  .dli k1 l.kernelVm,
  -- 15: from the address space to its page table
  .ld k1 l.vmPmap k1,
  .daddiu k1 k1 pmLevel0Offset,
  -- level 0
  .dmfc0 k0 .badVAddr,
  .dsrl k0 k0 (pmapL0Shift - 3),
  .andi k0 k0 (pmapL0Mask <<< 3),
  .daddu k1 k1 k0,
  .ld k1 0 k1,
  .beqz k1 50,
  .nop,
  -- level 1
  .dmfc0 k0 .badVAddr,
  .dsrl k0 k0 (l1L0Shift - 3),
  .andi k0 k0 (l1L0Mask <<< 3),
  .daddu k1 k1 k0,
  .ld k1 0 k1,
  .beqz k1 50,
  .nop,
  -- the entry
  .dmfc0 k0 .badVAddr,
  .dsrl k0 k0 (pteL1Shift - 3),
  .andi k0 k0 (pteL1Mask <<< 3),
  .daddu k1 k1 k0,
  .ld k1 0 k1,
  .andi k0 k1 pgV.toUInt16,
  .beqz k0 50,
  .nop,
  .dmtc0 k1 .entryLo0,
  .daddiu k1 k1 tlbLo1PageOffset,
  .dmtc0 k1 .entryLo1,
  .tlbp,
  .mfc0 k0 .index,
  .bltz k0 48,
  .nop,
  .tlbwi,
  .eret,
  -- 48: no entry of the TLB matches
  .tlbwr,
  .eret,
  -- 50: to C
  .j .genericException,
  .nop]

def tlbUpdateLo (pte : UInt64) : UInt64 × UInt64 := (pte, pte + tlbloPaToPfn tlbPageSize)

/-! ## Page tables in memory -/

variable (mem : UInt64 → UInt64)

def Lev1At (p : UInt64) (pml1 : PmapLev1) : Prop := ∀ i < 1024, mem (p + 8 * i) = pml1 i

/-- A level 0 page at an address: its pointers are null, or those of level 1 pages. -/
def Lev0At (p : UInt64) (pml0 : PmapLev0) : Prop := ∀ i < 1024,
  match pml0 i with
  | none => mem (p + 8 * i) = 0
  | some pml1 => mem (p + 8 * i) ≠ 0 ∧ Lev1At mem (mem (p + 8 * i)) pml1

/-- A page table at an address: its pointers are null, or those of level 0 pages. -/
def PmapAt (p : UInt64) (pm : Pmap) : Prop := ∀ i < 128,
  match pm.pmLevel0 i with
  | none => mem (p + signExtend16 pmLevel0Offset + 8 * i) = 0
  | some pml0 => mem (p + signExtend16 pmLevel0Offset + 8 * i) ≠ 0 ∧
      Lev0At mem (mem (p + signExtend16 pmLevel0Offset + 8 * i)) pml0

/-! ## The walk -/

section Walk

variable {mem} {l : Layout} {hw : Hardware} {regs : Reg → UInt64} {cp0 : Cp0 → UInt64}
variable {tlb : UInt64 → TlbEntry} {pm : Pmap}

theorem level_runs {n : ℕ} {shift : UInt64} {imm : UInt16}
    (h₀ : (tlbException l)[n]? = some (.dmfc0 k0 .badVAddr))
    (h₁ : (tlbException l)[n + 1]? = some (.dsrl k0 k0 shift))
    (h₂ : (tlbException l)[n + 2]? = some (.andi k0 k0 imm))
    (h₃ : (tlbException l)[n + 3]? = some (.daddu k1 k1 k0))
    (h₄ : (tlbException l)[n + 4]? = some (.ld k1 0 k1)) :
    ∃ regs', Runs hw (tlbException l) ⟨regs, cp0, mem, tlb, .text n, .text (n + 1)⟩
        ⟨regs', cp0, mem, tlb, .text (n + 5), .text (n + 6)⟩ ∧
      regs' k1 = mem (regs k1 + ((cp0 .badVAddr >>> shift) &&& imm.toUInt64)) := by
  refine ⟨_, .exec rfl h₀ (.exec rfl h₁ (.exec rfl h₂ (.exec rfl h₃ (.exec rfl h₄ .refl)))), ?_⟩
  rw [← UInt64.add_zero (regs k1 + _)]
  rfl

variable {v : UInt64}

theorem scaled_pmapIndex0 :
    (v >>> (pmapL0Shift - 3)) &&& (pmapL0Mask <<< 3).toUInt64 = 8 * pmapIndex0 v := by
  apply UInt64.toNat_inj.mp
  rw [toNat_scaledIndex (n := 7) v (by decide) (by decide), UInt64.toNat_mul, toNat_pmapIndex0]
  simp only [UInt64.reduceToNat, show (pmapL0Shift - 3).toNat + 3 = 33 from rfl]
  omega

theorem scaled_pmapIndex1 :
    (v >>> (l1L0Shift - 3)) &&& (l1L0Mask <<< 3).toUInt64 = 8 * pmapIndex1 v := by
  apply UInt64.toNat_inj.mp
  rw [toNat_scaledIndex (n := 10) v (by decide) (by decide), UInt64.toNat_mul, toNat_pmapIndex1]
  simp only [UInt64.reduceToNat, show (l1L0Shift - 3).toNat + 3 = 23 from rfl]
  omega

theorem scaled_pmapIndexPte :
    (v >>> (pteL1Shift - 3)) &&& (pteL1Mask <<< 3).toUInt64 = 8 * pmapIndexPte v := by
  apply UInt64.toNat_inj.mp
  rw [toNat_scaledIndex (n := 10) v (by decide) (by decide), UInt64.toNat_mul, toNat_pmapIndexPte]
  simp only [UInt64.reduceToNat, show (pteL1Shift - 3).toNat + 3 = 13 from rfl]
  omega

theorem pmapIndex0_lt (v : UInt64) : pmapIndex0 v < 128 := by
  exact Nat.mod_lt _ (by decide)

theorem pmapIndex1_lt (v : UInt64) : pmapIndex1 v < 1024 := by
  exact Nat.mod_lt _ (by decide)

theorem pmapIndexPte_lt (v : UInt64) : pmapIndexPte v < 1024 := by
  exact Nat.mod_lt _ (by decide)

variable {pte : UInt64}

theorem and_pgV_eq_zero_iff : pte &&& pgV.toUInt16.toUInt64 = 0 ↔ ¬ pteValid pte := by
  rw [show pgV.toUInt16.toUInt64 = pgV from by decide, pteValid, ← UInt64.toNat_inj,
    ← UInt64.toNat_inj, UInt64.toNat_and, show pgV.toNat = 2 ^ 1 from rfl, Nat.and_two_pow]
  cases pte.toNat.testBit 1 <;> simp

/-- The way from a place in the text with `k1` at a table to one of two places, by the pointer of
the table at an index: to C where it is null. -/
def PointerRuns (hw : Hardware) (l : Layout) (mem : UInt64 → UInt64) (tlb : UInt64 → TlbEntry)
    (cp0 : Cp0 → UInt64) (n : ℕ) (index : UInt64) : Prop :=
  ∀ regs : Reg → UInt64, ∃ regs', regs' k1 = mem (regs k1 + 8 * index) ∧
    Runs hw (tlbException l) ⟨regs, cp0, mem, tlb, .text n, .text (n + 1)⟩
      (if regs' k1 = 0 then ⟨regs', cp0, mem, tlb, .text 50, .text 51⟩
        else ⟨regs', cp0, mem, tlb, .text (n + 7), .text (n + 8)⟩)

theorem level0_runs : PointerRuns hw l mem tlb cp0 17 (pmapIndex0 (cp0 .badVAddr)) := by
  intro regs
  obtain ⟨regs', hrun, hk⟩ : ∃ regs', Runs hw (tlbException l)
      ⟨regs, cp0, mem, tlb, .text 17, .text 18⟩ ⟨regs', cp0, mem, tlb, .text 22, .text 23⟩ ∧ _ :=
    level_runs rfl rfl rfl rfl rfl
  rw [scaled_pmapIndex0] at hk
  exact ⟨regs', hk, hrun.trans (.beqz rfl rfl .refl)⟩

theorem level1_runs : PointerRuns hw l mem tlb cp0 24 (pmapIndex1 (cp0 .badVAddr)) := by
  intro regs
  obtain ⟨regs', hrun, hk⟩ : ∃ regs', Runs hw (tlbException l)
      ⟨regs, cp0, mem, tlb, .text 24, .text 25⟩ ⟨regs', cp0, mem, tlb, .text 29, .text 30⟩ ∧ _ :=
    level_runs rfl rfl rfl rfl rfl
  rw [scaled_pmapIndex1] at hk
  exact ⟨regs', hk, hrun.trans (.beqz rfl rfl .refl)⟩

theorem entry_runs (mem : UInt64 → UInt64) :
    ∃ regs', regs' k1 = mem (regs k1 + 8 * pmapIndexPte (cp0 .badVAddr)) ∧
      Runs hw (tlbException l) ⟨regs, cp0, mem, tlb, .text 31, .text 32⟩
        (if ¬ pteValid (regs' k1) then ⟨regs', cp0, mem, tlb, .text 50, .text 51⟩
          else ⟨regs', cp0, mem, tlb, .text 39, .text 40⟩) := by
  obtain ⟨regs', hrun, hk⟩ : ∃ regs', Runs hw (tlbException l)
      ⟨regs, cp0, mem, tlb, .text 31, .text 32⟩ ⟨regs', cp0, mem, tlb, .text 36, .text 37⟩ ∧ _ :=
    level_runs rfl rfl rfl rfl rfl
  rw [scaled_pmapIndexPte] at hk
  refine ⟨update regs' k0 (regs' k1 &&& pgV.toUInt16.toUInt64), ?_, hrun.trans ?_⟩
  · exact hk
  · simp only [← and_pgV_eq_zero_iff]
    exact .exec rfl rfl (.beqz rfl rfl .refl)

theorem walk_runs {p : UInt64} (hp : PmapAt mem p pm)
    (hk : regs k1 = p + signExtend16 pmLevel0Offset) (hin : ¬ pm.Outside (cp0 .badVAddr)) :
    ∃ regs', (∃ pte, pmapFind pm (cp0 .badVAddr) = some pte ∧ pteValid pte ∧ regs' k1 = pte ∧
        Runs hw (tlbException l) ⟨regs, cp0, mem, tlb, .text 17, .text 18⟩
          ⟨regs', cp0, mem, tlb, .text 39, .text 40⟩) ∨
      ((∀ pte, pmapFind pm (cp0 .badVAddr) = some pte → ¬ pteValid pte) ∧
        Runs hw (tlbException l) ⟨regs, cp0, mem, tlb, .text 17, .text 18⟩
          ⟨regs', cp0, mem, tlb, .text 50, .text 51⟩) := by
  obtain ⟨regs₀, hk₀, hrun₀⟩ := level0_runs regs
  have hl := hp _ (pmapIndex0_lt (cp0 .badVAddr))
  rw [hk] at hk₀
  cases h₀ : pm.pmLevel0 (pmapIndex0 (cp0 .badVAddr)) with
  | none =>
    simp only [h₀] at hl
    rw [if_pos (hk₀.trans hl)] at hrun₀
    exact ⟨regs₀, .inr ⟨fun pte hf => by simp [pmapFind, h₀] at hf, hrun₀⟩⟩
  | some pml0 =>
    simp only [h₀, ← hk₀] at hl
    rw [if_neg hl.1] at hrun₀
    obtain ⟨regs₁, hk₁, hrun₁⟩ := level1_runs regs₀
    have hlv := hl.2 _ (pmapIndex1_lt (cp0 .badVAddr))
    cases h₁ : pml0 (pmapIndex1 (cp0 .badVAddr)) with
    | none =>
      simp only [h₁] at hlv
      rw [if_pos (hk₁.trans hlv)] at hrun₁
      exact ⟨regs₁, .inr ⟨fun pte hf => by simp [pmapFind, h₀, h₁] at hf, hrun₀.trans hrun₁⟩⟩
    | some pml1 =>
      simp only [h₁, ← hk₁] at hlv
      rw [if_neg hlv.1] at hrun₁
      obtain ⟨regs₂, hk₂, hrun₂⟩ := entry_runs mem
      rw [hlv.2 _ (pmapIndexPte_lt (cp0 .badVAddr))] at hk₂
      have hf : pmapFind pm (cp0 .badVAddr) = some (regs₂ k1) := by
        simp [pmapFind, hin, h₀, h₁, hk₂]
      have hrun := (hrun₀.trans hrun₁).trans hrun₂
      by_cases hv : pteValid (regs₂ k1)
      · rw [if_neg (not_not.mpr hv)] at hrun
        exact ⟨regs₂, .inl ⟨_, hf, hv, rfl, hrun⟩⟩
      · rw [if_pos hv] at hrun
        refine ⟨regs₂, .inr ⟨fun pte hpte => ?_, hrun⟩⟩
        rwa [← Option.some.inj (hf.symm.trans hpte)]

theorem write_runs (regs : Reg → UInt64) :
    ∃ s', Runs hw (tlbException l) ⟨regs, cp0, mem, tlb, .text 39, .text 40⟩ s' ∧
      s'.pc = .returned ∧ s'.cp0 .entryLo0 = regs k1 ∧
      s'.cp0 .entryLo1 = regs k1 + signExtend16 tlbLo1PageOffset ∧
      s'.tlb = update tlb
        (if (signExtend32 (hw.probe (cp0 .entryHi) tlb)).toInt64 < 0 then cp0 .random
          else hw.probe (cp0 .entryHi) tlb)
        ⟨cp0 .entryHi, regs k1, regs k1 + signExtend16 tlbLo1PageOffset⟩ := by
  obtain ⟨regs', cp0', hrun, hk, hh, hl, hlo1, hin, hr⟩ : ∃ regs' cp0',
      Runs hw (tlbException l) ⟨regs, cp0, mem, tlb, .text 39, .text 40⟩
        ⟨regs', cp0', mem, tlb, .text 44, .text 45⟩ ∧
      regs' k0 = signExtend32 (hw.probe (cp0 .entryHi) tlb) ∧ cp0' .entryHi = cp0 .entryHi ∧
      cp0' .entryLo0 = regs k1 ∧ cp0' .entryLo1 = regs k1 + signExtend16 tlbLo1PageOffset ∧
      cp0' .index = hw.probe (cp0 .entryHi) tlb ∧ cp0' .random = cp0 .random :=
    ⟨_, _, .exec rfl rfl (.exec rfl rfl (.exec rfl rfl (.exec rfl rfl (.exec rfl rfl .refl)))),
      rfl, rfl, rfl, rfl, rfl, rfl⟩
  have hb : Runs hw (tlbException l) ⟨regs', cp0', mem, tlb, .text 44, .text 45⟩ _ :=
    .bltz rfl rfl .refl
  rw [hk] at hb
  by_cases hn : (signExtend32 (hw.probe (cp0 .entryHi) tlb)).toInt64 < 0
  · rw [if_pos hn] at hb ⊢
    refine ⟨_, (hrun.trans hb).trans (.exec rfl rfl (.exec rfl rfl .refl)), rfl, hl, hlo1, ?_⟩
    rw [← hr, ← hh, ← hlo1, ← hl]
    rfl
  · rw [if_neg hn] at hb ⊢
    refine ⟨_, (hrun.trans hb).trans (.exec rfl rfl (.exec rfl rfl .refl)), rfl, hl, hlo1, ?_⟩
    rw [← hin, ← hh, ← hlo1, ← hl]
    rfl

/-- The pointers to the page table of the current task. -/
structure UserAt (l : Layout) (mem : UInt64 → UInt64) (pm : Pmap) : Prop where
  thread : mem (pcpuVirtual + l.pcThread) ≠ 0
  task : mem (mem (pcpuVirtual + l.pcThread) + l.tdTask) ≠ 0
  vm : mem (mem (mem (pcpuVirtual + l.pcThread) + l.tdTask) + l.tVm) ≠ 0
  pmap : PmapAt mem
    (mem (mem (mem (mem (pcpuVirtual + l.pcThread) + l.tdTask) + l.tVm) + l.vmPmap)) pm

def KernelAt (l : Layout) (mem : UInt64 → UInt64) (pm : Pmap) : Prop :=
  PmapAt mem (mem (l.kernelVm + l.vmPmap)) pm

theorem branch_runs (regs : Reg → UInt64) (hw : Hardware) (tlb : UInt64 → TlbEntry) : ∃ regs₁,
    Runs hw (tlbException l) ⟨regs, cp0, mem, tlb, .text 0, .text 1⟩
      (if (cp0 .badVAddr).toInt64 < 0 then ⟨regs₁, cp0, mem, tlb, .text 12, .text 13⟩
        else ⟨regs₁, cp0, mem, tlb, .text 3, .text 4⟩) ∧
    regs₁ k0 = cp0 .badVAddr ∧ regs₁ zero = regs zero :=
  ⟨_, .exec rfl rfl (.bltz rfl rfl .refl), rfl, rfl⟩

theorem user_runs (hzr : regs zero = 0)
    (h : UserAt l mem pm) (hv : (cp0 .badVAddr).toNat < 2 ^ 63) :
    ∃ regs' p, PmapAt mem p pm ∧ regs' k1 = p + signExtend16 pmLevel0Offset ∧
      Runs hw (tlbException l) ⟨regs, cp0, mem, tlb, .text 0, .text 1⟩
        ⟨regs', cp0, mem, tlb, .text 17, .text 18⟩ := by
  have hpos : ¬ (cp0 .badVAddr).toInt64 < 0 := by
    rw [toInt64_neg_iff]
    omega
  obtain ⟨regs₁, hb, -, hz₁⟩ := branch_runs regs hw tlb
  rw [if_neg hpos] at hb
  rw [hzr] at hz₁
  have ht : mem (pcpuVirtual + l.pcThread) ≠ regs₁ zero := hz₁ ▸ h.thread
  have hts : mem (mem (pcpuVirtual + l.pcThread) + l.tdTask) ≠ regs₁ zero := hz₁ ▸ h.task
  have hvm : mem (mem (mem (pcpuVirtual + l.pcThread) + l.tdTask) + l.tVm) ≠ regs₁ zero :=
    hz₁ ▸ h.vm
  obtain ⟨regs', hrun, hk⟩ : ∃ regs', Runs hw (tlbException l)
      ⟨regs₁, cp0, mem, tlb, .text 3, .text 4⟩ ⟨regs', cp0, mem, tlb, .text 17, .text 18⟩ ∧
      regs' k1 = mem (mem (mem (mem (pcpuVirtual + l.pcThread) + l.tdTask) + l.tVm) + l.vmPmap) +
        signExtend16 pmLevel0Offset :=
    ⟨_, .exec rfl rfl (.exec rfl rfl (.teq rfl ht (.exec rfl rfl (.teq rfl hts
      (.exec rfl rfl (.teq rfl hvm (.exec rfl rfl (.exec rfl rfl (.exec rfl rfl
        (.exec rfl rfl .refl)))))))))), rfl⟩
  exact ⟨regs', _, h.pmap, hk, hb.trans hrun⟩

theorem kernel_runs (h : KernelAt l mem pm)
    (hv : 2 ^ 63 ≤ (cp0 .badVAddr).toNat) (hend : cp0 .badVAddr < kernelEnd) :
    ∃ regs' p, PmapAt mem p pm ∧ regs' k1 = p + signExtend16 pmLevel0Offset ∧
      Runs hw (tlbException l) ⟨regs, cp0, mem, tlb, .text 0, .text 1⟩
        ⟨regs', cp0, mem, tlb, .text 17, .text 18⟩ := by
  have hn : (cp0 .badVAddr).toInt64 < 0 := (toInt64_neg_iff _).mpr hv
  obtain ⟨regs₁, hb, hk₁, -⟩ := branch_runs regs hw tlb
  rw [if_pos hn] at hb
  have hlt : regs₁ k0 < kernelEnd := hk₁ ▸ hend
  obtain ⟨regs', hrun, hk⟩ : ∃ regs', Runs hw (tlbException l)
      ⟨regs₁, cp0, mem, tlb, .text 12, .text 13⟩ ⟨regs', cp0, mem, tlb, .text 17, .text 18⟩ ∧
      regs' k1 = mem (l.kernelVm + l.vmPmap) + signExtend16 pmLevel0Offset :=
    ⟨_, .exec rfl rfl (.tgeu rfl hlt (.exec rfl rfl (.exec rfl rfl (.exec rfl rfl .refl)))), rfl⟩
  exact ⟨regs', _, h, hk, hb.trans hrun⟩

end Walk

/-! ## The two halves of a page -/

theorem uint64_or_and (x y z : UInt64) : (x ||| y) &&& z = (x &&& z) ||| (y &&& z) := by
  apply UInt64.toNat_inj.mp
  simp only [UInt64.toNat_and, UInt64.toNat_or, Nat.and_or_distrib_right]

theorem uint64_add_eq_or {x y : UInt64} (h : x &&& y = 0) : x + y = x ||| y := by
  apply UInt64.toBitVec_inj.mp
  apply BitVec.add_eq_or_of_and_eq_zero
  rw [← UInt64.toBitVec_and, h]
  rfl

/-- The entry has the frame of a page of 8K: the lowest bit of its frame number, which is that of a
page of 4K, is clear. -/
def FramedPte (pte : UInt64) : Prop := pte &&& tlbloPaToPfn tlbPageSize = 0

theorem framedPte_iff (pte : UInt64) : FramedPte pte ↔ pte.toNat.testBit 6 = false := by
  rw [FramedPte, ← UInt64.toNat_inj, UInt64.toNat_and,
    show (tlbloPaToPfn tlbPageSize).toNat = 2 ^ 6 from by decide, Nat.and_two_pow]
  cases pte.toNat.testBit 6 <;> simp

theorem testBit_tlbloPteToPa (pte : UInt64) {i : ℕ} (hi : i < 64) :
    (tlbloPteToPa pte).toNat.testBit i = (decide (12 ≤ i) && (pte.toNat.testBit (6 + (i - 12)) &&
      tlbloPfnMask.toNat.testBit (6 + (i - 12)))) := by
  rw [tlbloPteToPa, UInt64.toNat_shiftLeft, UInt64.toNat_shiftRight, UInt64.toNat_and]
  simp only [UInt64.reduceToNat, Nat.testBit_mod_two_pow, Nat.testBit_shiftLeft,
    Nat.testBit_shiftRight, Nat.testBit_and, hi, decide_true, Bool.true_and]

variable {pte : UInt64}

theorem FramedPte.testBit_pa (h : FramedPte pte) : (tlbloPteToPa pte).toNat.testBit 12 = false := by
  rw [testBit_tlbloPteToPa pte (by decide), (framedPte_iff pte).mp h]
  rfl

theorem FramedPte.pageAligned (h : FramedPte pte) : PageAligned (tlbloPteToPa pte) := by
  rw [PageAligned, ← UInt64.toNat_inj, toNat_pageOffset, show (8192 : ℕ) = 2 ^ 13 from rfl]
  apply Nat.eq_of_testBit_eq
  intro i
  rw [Nat.testBit_mod_two_pow]
  by_cases hi : i < 13
  · rcases Nat.lt_succ_iff_lt_or_eq.mp hi with hlt | rfl
    · rw [testBit_tlbloPteToPa pte (by omega), decide_eq_false (not_le.mpr hlt)]
      simp
    · rw [h.testBit_pa]
      simp
  · simp [hi]

theorem FramedPte.pair (h : FramedPte pte) :
    (pte + tlbloPaToPfn tlbPageSize) &&& ~~~ tlbloPfnMask = pte &&& ~~~ tlbloPfnMask ∧
      tlbloPteToPa (pte + tlbloPaToPfn tlbPageSize) = tlbloPteToPa pte + tlbPageSize := by
  have hf : tlbloPaToPfn tlbPageSize &&& ~~~ tlbloPfnMask = 0 := by decide
  have hp : (tlbloPaToPfn tlbPageSize &&& tlbloPfnMask) >>> 6 <<< 12 = tlbPageSize := by decide
  have hd : tlbloPteToPa pte &&& tlbPageSize = 0 := by
    rw [← UInt64.toNat_inj, UInt64.toNat_and, show tlbPageSize.toNat = 2 ^ 12 from by decide,
      Nat.and_two_pow, h.testBit_pa]
    rfl
  constructor
  · rw [uint64_add_eq_or h, uint64_or_and, hf, UInt64.or_zero]
  · rw [uint64_add_eq_or h, uint64_add_eq_or hd, tlbloPteToPa, tlbloPteToPa, uint64_or_and,
      UInt64.shiftRight_or, UInt64.shiftLeft_or, hp]

/-! ## The frames of all entries -/

def pgD : UInt64 := 0x04

def pgRo : UInt64 := (0x01 : UInt64) <<< 30

section Frames

variable {ν : Type} [DecidableEq ν] {kernelVm vm : ν} {v : UInt64} {s₀ s s' : MemState ν}

/-- `tlb_modify`: the entry of an address that is written for the first time becomes dirty. -/
def tlbModify (kernelVm current : ν) (vaddr : UInt64) (s : MemState ν) : Outcome (MemState ν) :=
  if pageFloor vaddr = 0 then .error .panic
  else
    let vm := if vaddr ≥ kernelBase ∧ vaddr < kernelEnd then kernelVm else current
    match pmapFind (s.pmap vm) vaddr with
    | none => .error .panic
    | some pte =>
      if pte &&& pgRo = pgRo then .error .panic
      else if pte &&& pgD = pgD then .error .panic
      else pure (s.setPmap vm ((s.pmap vm).setPte vaddr (pte ||| pgD)))

inductive TableCall (ν : Type)
  | map (vm : ν) (vaddr page : UInt64)
  | unmap (vm : ν) (vaddr : UInt64)
  | modify (current : ν) (vaddr : UInt64)

/-- A call of a function that writes page table entries, with any arguments. -/
inductive TableStep (kernelVm : ν) : MemState ν → TableCall ν → MemState ν → Prop
  | map {s vm vaddr page s' r} : pmapMap kernelVm vm vaddr page s = .ok (s', r) →
      TableStep kernelVm s (.map vm vaddr page) s'
  | unmap {s vm vaddr} : TableStep kernelVm s (.unmap vm vaddr) (pmapUnmap vm vaddr s).1
  | modify {s current vaddr s'} : tlbModify kernelVm current vaddr s = .ok s' →
      TableStep kernelVm s (.modify current vaddr) s'

theorem pageAddress_mod (page : UInt64) : (pageAddress page).toNat % 8192 = 0 := by
  have he : (pmapExtractDirect (pageFloor page)).toNat % 2 ^ 13 = 0 := by
    rw [pmapExtractDirect, xkphysExtract, UInt64.toNat_and, Nat.and_mod_two_pow,
      (pageAligned_floor page).toNat, Nat.zero_and]
  have hs : pageSize.toNat = 8192 := by decide
  rw [pageAddress, UInt64.toNat_add, UInt64.toNat_mul, hs]
  omega

theorem framedPte_entryFor (page : UInt64) : FramedPte (entryFor kernelVm vm page) := by
  have hp : (pageAddress page).toNat.testBit 12 = false := by
    have := pageAddress_mod page
    rw [Nat.testBit_eq_decide_div_mod_eq]
    exact decide_eq_false (by omega)
  have hf : (mapFlags (decide (vm = kernelVm))).toNat.testBit 6 = false := by
    cases decide (vm = kernelVm) <;> decide
  rw [framedPte_iff, entryFor, UInt64.toNat_or, Nat.testBit_or, hf,
    tlbloPaToPfn, UInt64.toNat_and, UInt64.toNat_shiftLeft,
    Nat.testBit_and, Nat.testBit_mod_two_pow]
  simp [hp]

theorem framedPte_zero : FramedPte 0 := by
  rw [framedPte_iff]
  rfl

theorem FramedPte.setDirty (h : FramedPte pte) : FramedPte (pte ||| pgD) := by
  rw [framedPte_iff] at h ⊢
  rw [UInt64.toNat_or, Nat.testBit_or, h]
  rfl

theorem TableStep.pteSet {c : TableCall ν} (hs : TableStep kernelVm s c s') :
    PteSame s s' ∨ ∃ vm v x, PteSet s s' vm v x ∧
      ((∃ page, x = entryFor kernelVm vm page) ∨ x = 0 ∨
        pmapFind (s.pmap vm) v = some ((s.pmap vm).pte v) ∧ PageAligned v ∧
          x = (s.pmap vm).pte v ||| pgD) := by
  cases hs with
  | @map vm v page _ r hc =>
    by_cases ho : (s.pmap vm).Outside v
    · rw [pmapMap, if_pos ho] at hc
      cases hc
      exact .inl (pteSame_of_pmap rfl)
    · rw [← pmapMap_floor ho] at hc
      rcases pmapMap_pte (pageAligned_floor v) _ hc with ⟨-, ho'⟩ | ⟨-, -, hset⟩
      · exact absurd ho' (inside_floor ho)
      · exact .inr ⟨vm, _, _, hset, .inl ⟨page, rfl⟩⟩
  | @unmap vm v =>
    by_cases ho : (s.pmap vm).Outside v
    · have hn : pmapFind (s.pmap vm) v = none := if_pos ho
      rw [pmapUnmap, hn]
      exact .inl (pteSame_of_pmap rfl)
    · rw [← pmapUnmap_floor ho]
      rcases pmapUnmap_pte vm s (pageAligned_floor v) with ⟨hu, -⟩ | ⟨hu, -⟩ | ⟨-, -, -, hset⟩
      · rw [hu]
        exact .inl (pteSame_of_pmap rfl)
      · rw [hu]
        exact .inl (pteSame_of_pmap rfl)
      · exact .inr ⟨vm, _, 0, hset, .inr (.inl rfl)⟩
  | @modify current v _ hc =>
    rw [tlbModify] at hc
    split at hc
    · cases hc
    generalize (if v ≥ kernelBase ∧ v < kernelEnd then kernelVm else current) = vm at hc
    dsimp only at hc
    split at hc
    · cases hc
    rename_i pte hf
    split_ifs at hc
    cases hc
    have hin := pmapFind_inside hf
    rw [← pmapFind_floor hin] at hf
    rw [← setPte_floor]
    refine .inr ⟨_, _, _, pteSet_setPte hf (pageAligned_floor v), .inr (.inr ⟨?_, ?_, ?_⟩)⟩
    · rw [Pmap.pte, hf]
      rfl
    · exact pageAligned_floor v
    · rw [Pmap.pte, hf]
      rfl

def Framed (s : MemState ν) : Prop := ∀ vm w, PageAligned w → FramedPte ((s.pmap vm).pte w)

theorem Framed.step {c : TableCall ν} (h : Framed s) (hs : TableStep kernelVm s c s') :
    Framed s' := by
  intro vm' w hw
  rcases hs.pteSet with hsm | ⟨vm, v, x, hset, hx⟩
  · rw [hsm.pte]
    exact h vm' w hw
  · rw [hset.pte vm' w hw]
    split
    · rcases hx with ⟨page, rfl⟩ | rfl | ⟨-, hv, rfl⟩
      · exact framedPte_entryFor page
      · exact framedPte_zero
      · exact (h vm v hv).setDirty
    · exact h vm' w hw

theorem TableStep.outside {c : TableCall ν} (hs : TableStep kernelVm s c s') (vm : ν) (w : UInt64) :
    (s'.pmap vm).Outside w ↔ (s.pmap vm).Outside w := by
  rcases hs.pteSet with hsm | ⟨_, _, _, hset, -⟩
  · exact hsm.outside vm w
  · exact hset.outside vm w

omit [DecidableEq ν] in
theorem framed_empty (h : ∀ vm i, (s.pmap vm).pmLevel0 i = none) : Framed s := by
  intro vm w _
  rw [Pmap.pte, pmapFind_empty (h vm)]
  exact framedPte_zero

omit [DecidableEq ν] in
theorem Framed.of_find (h : Framed s) (hf : pmapFind (s.pmap vm) v = some pte) : FramedPte pte := by
  have hfl := h vm _ (pageAligned_floor v)
  rwa [Pmap.pte, pmapFind_floor (pmapFind_inside hf), hf] at hfl

/-! ## Agreement -/

/-- The page tables are as `pmap_pinit` leaves them. -/
structure Pinit (kernelVm : ν) (s : MemState ν) : Prop where
  kernel : s.pmap kernelVm = kernelPmap
  user : ∀ vm, vm ≠ kernelVm → s.pmap vm = userPmap

/-- The memory leads the handler to the page table of an address space: that of the kernel, or that
of the current task. -/
def Serves (kernelVm vm : ν) (l : Layout) (mem : UInt64 → UInt64) (pm : Pmap) : Prop :=
  (vm = kernelVm ∧ KernelAt l mem pm) ∨ (vm ≠ kernelVm ∧ UserAt l mem pm)

/-- The processor at the start of the handler. -/
structure AtStart (c : Mips.Cpu Symbol) : Prop where
  pc : c.pc = .text 0
  npc : c.npc = .text 1
  zero : c.regs zero = 0

/-- The handler has loaded an entry: the pair of the entry is in `EntryLo0` and `EntryLo1` and in
the TLB, and the exception is over. -/
structure TlbRefilled (c c' : Mips.Cpu Symbol) (pte : UInt64) : Prop where
  returned : c'.pc = .returned
  pair : (c'.cp0 .entryLo0, c'.cp0 .entryLo1) = tlbUpdateLo pte
  tlb : ∃ i, c'.tlb = update c.tlb i ⟨c.cp0 .entryHi, (tlbUpdateLo pte).1, (tlbUpdateLo pte).2⟩

omit [DecidableEq ν] in
theorem start_runs (hw : Hardware) {l : Layout} {c : Mips.Cpu Symbol} (hc : AtStart c)
    (hit : Pinit kernelVm s₀) (hr : ∀ w, (s.pmap vm).Outside w ↔ (s₀.pmap vm).Outside w)
    (hs : Serves kernelVm vm l c.mem (s.pmap vm))
    (hin : ¬ (s.pmap vm).Outside (c.cp0 .badVAddr)) :
    ∃ regs p, PmapAt c.mem p (s.pmap vm) ∧ regs k1 = p + signExtend16 pmLevel0Offset ∧
      Runs hw (tlbException l) c ⟨regs, c.cp0, c.mem, c.tlb, .text 17, .text 18⟩ := by
  obtain ⟨regs, cp0, mem, tlb, pc, npc⟩ := c
  obtain ⟨rfl, rfl, hz⟩ := hc
  rw [hr] at hin
  rcases hs with ⟨rfl, hk⟩ | ⟨hne, hu⟩
  · rw [hit.kernel, Pmap.Outside, not_or] at hin
    have hb := UInt64.le_iff_toNat_le.mp (UInt64.not_lt.mp hin.1)
    have hend : cp0 .badVAddr < kernelEnd := UInt64.not_le.mp hin.2
    have hh : 2 ^ 63 ≤ kernelPmap.pmBase.toNat := by decide
    exact kernel_runs hk (hh.trans hb) hend
  · rw [hit.user vm hne, Pmap.Outside, not_or] at hin
    have hend := UInt64.lt_iff_toNat_lt.mp (UInt64.not_le.mp hin.2)
    have hl : userPmap.pmEnd.toNat ≤ 2 ^ 63 := by decide
    exact user_runs hz hu (hend.trans_le hl)

/-- **Fast and slow translation agree.** After any calls that write page table entries, let the
memory hold the page tables, and let an address in the range of one miss in the TLB. If `pmap_find`
finds a valid entry, the handler loads the pair that `tlb_update` loads, for the two halves of a
page of 8K. Otherwise it goes to C, and leaves the TLB as it is. -/
theorem refill_agrees {h : List (MemState ν × TableCall ν)} (hinit : Pinit kernelVm s₀)
    (hr : Run (TableStep kernelVm) s₀ h s) (hw : Hardware) {l : Layout} {c : Mips.Cpu Symbol}
    (hc : AtStart c) (hserves : Serves kernelVm vm l c.mem (s.pmap vm))
    (hin : ¬ (s.pmap vm).Outside (c.cp0 .badVAddr)) :
    ∃ c', Runs hw (tlbException l) c c' ∧
      ((∃ pte, pmapFind (s.pmap vm) (c.cp0 .badVAddr) = some pte ∧ pteValid pte ∧
          TlbRefilled c c' pte ∧ PageAligned (tlbloPteToPa pte) ∧
          c'.cp0 .entryLo1 &&& ~~~ tlbloPfnMask = pte &&& ~~~ tlbloPfnMask ∧
          tlbloPteToPa (c'.cp0 .entryLo1) = tlbloPteToPa pte + tlbPageSize) ∨
        ((∀ pte, pmapFind (s.pmap vm) (c.cp0 .badVAddr) = some pte → ¬ pteValid pte) ∧
          c'.pc = .symbol .genericException ∧ c'.tlb = c.tlb)) := by
  have he : ∀ vm i, (s₀.pmap vm).pmLevel0 i = none := by
    intro vm i
    by_cases hvm : vm = kernelVm
    · rw [hvm, hinit.kernel]
      rfl
    · rw [hinit.user vm hvm]
      rfl
  obtain ⟨hfr, hrn⟩ : Framed s ∧ ∀ w, (s.pmap vm).Outside w ↔ (s₀.pmap vm).Outside w := by
    refine hr.invariant ⟨framed_empty he, fun _ => Iff.rfl⟩ ?_
    rintro - s e s' - ⟨hfr, hrn⟩ hs
    exact ⟨hfr.step hs, fun w => (hs.outside vm w).trans (hrn w)⟩
  obtain ⟨regs, p, hp, hk, hst⟩ := start_runs hw hc hinit hrn hserves hin
  have ho : signExtend16 tlbLo1PageOffset = tlbloPaToPfn tlbPageSize := by decide
  obtain ⟨regs', ⟨pte, hf, hv, hk', hwl⟩ | ⟨hn, hwl⟩⟩ := walk_runs hp hk hin
  · obtain ⟨c', hend, hret, hlo0, hl, ht⟩ := write_runs regs'
    rw [hk'] at hl ht
    rw [hk'] at hlo0
    have hpte := hfr.of_find hf
    refine ⟨c', hst.trans (hwl.trans hend), .inl ⟨pte, hf, hv, ⟨hret, ?_, _, ht⟩,
      hpte.pageAligned, ?_⟩⟩
    · rw [hlo0, hl]
      rfl
    · rw [hl]
      exact hpte.pair
  · exact ⟨_, hst.trans (hwl.trans (.exec rfl rfl (.exec rfl rfl .refl))), .inr ⟨hn, rfl, rfl⟩⟩

end Frames

/-! ## One page -/

def freshTables : MemState ℕ :=
  { eightPages with pmap := fun vm => if vm = 0 then kernelPmap else userPmap }

theorem pinit_freshTables : Pinit 0 freshTables := ⟨rfl, fun _ hvm => if_neg hvm⟩

def onePte : UInt64 := entryFor 0 1 (entryOf 16 4)

def oneLevel0 (i : UInt64) : Option PmapLev0 :=
  if i = 0 then some fun j => if j = 0 then some fun k => if k = 1 then onePte else 0 else none
  else none

theorem exists_run_onePage : ∃ h s, Run (TableStep 0) freshTables h s ∧
    ¬ (s.pmap 1).Outside 8200 ∧ ∀ i, (s.pmap 1).pmLevel0 i = oneLevel0 i := by
  have h₁ : Run (TableStep 0) freshTables _ _ := Run.nil.snoc
    (TableStep.map (rfl : pmapMap 0 1 8192 (entryOf 16 4) _ = .ok (_, .ok ())))
  refine ⟨_, _, h₁, by decide, fun i => ?_⟩
  by_cases hi : i = 0
  · subst hi
    refine congrArg some (funext fun j => ?_)
    by_cases hj : j = 0
    · subst hj
      refine congrArg some (funext fun k => ?_)
      by_cases hk : k = 1
      · subst hk
        rfl
      · rw [if_neg hk]
        exact update_of_ne hk _ _
    · rw [if_neg hj]
      exact (update_of_ne hj _ _).trans (update_of_ne hj _ _)
  · rw [oneLevel0, if_neg hi]
    exact (update_of_ne hi _ _).trans ((update_of_ne hi _ _).trans (update_of_ne hi _ _))

def smallLayout : Layout := ⟨8, 16, 24, 32, 0x5000⟩

/-- A memory with the tables at 0x10000, 0x20000 and 0x30000, and with the pointers of the current
thread to them. -/
def oneMem (a : UInt64) : UInt64 :=
  if a = 0x10000 then 0x20000
  else if a = 0x20000 then 0x30000
  else if a = 0x30008 then onePte
  else if a = 0xc000000000000008 then 0x1000
  else if a = 0x1010 then 0x2000
  else if a = 0x2018 then 0x3000
  else if a = 0x3020 then 0x10000
  else 0

theorem oneMem_eq_zero {a : UInt64}
    (h : ∀ b ∈ [0x10000, 0x20000, 0x30008, 0xc000000000000008, 0x1010, 0x2018, 0x3020], a ≠ b) :
    oneMem a = 0 := by
  simp only [List.forall_mem_cons, List.not_mem_nil, false_imp_iff, implies_true, and_true] at h
  obtain ⟨h₁, h₂, h₃, h₄, h₅, h₆, h₇⟩ := h
  simp only [oneMem, if_neg h₁, if_neg h₂, if_neg h₃, if_neg h₄, if_neg h₅, if_neg h₆, if_neg h₇]

theorem oneMem_table {p i : UInt64} (hp : p = 0x10000 ∨ p = 0x20000 ∨ p = 0x30000) (hi : i < 1024)
    (h0 : i ≠ if p = 0x30000 then 1 else 0) : oneMem (p + 8 * i) = 0 := by
  have hi' := UInt64.lt_iff_toNat_lt.mp hi
  have h0' : i.toNat ≠ if p = 0x30000 then 1 else 0 := by
    intro h
    apply h0
    apply UInt64.toNat_inj.mp
    rw [h]
    split <;> rfl
  apply oneMem_eq_zero
  rcases hp with rfl | rfl | rfl <;>
    simp [← UInt64.toNat_inj] at hi' h0' ⊢ <;> omega

theorem pmapAt_oneMem {pm : Pmap} (h : ∀ i, pm.pmLevel0 i = oneLevel0 i) :
    PmapAt oneMem 0x10000 pm := by
  intro i hi
  have hlt : i < 1024 := UInt64.lt_trans hi (by decide)
  have ho : (0x10000 : UInt64) + signExtend16 pmLevel0Offset = 0x10000 := by decide
  rw [h]
  by_cases h0 : i = 0
  · subst h0
    refine ⟨by decide, fun j hj => ?_⟩
    by_cases hj0 : j = 0
    · subst hj0
      refine ⟨by decide, fun k hk => ?_⟩
      by_cases hk1 : k = 1
      · subst hk1
        decide
      · simp only [if_neg hk1]
        exact oneMem_table (.inr (.inr rfl)) hk hk1
    · simp only [if_neg hj0]
      exact oneMem_table (.inr (.inl rfl)) hj hj0
  · rw [oneLevel0, if_neg h0]
    exact oneMem_table (.inl rfl) hlt h0

theorem userAt_oneMem {pm : Pmap} (h : ∀ i, pm.pmLevel0 i = oneLevel0 i) :
    UserAt smallLayout oneMem pm :=
  ⟨by decide, by decide, by decide, pmapAt_oneMem h⟩

def missed : Mips.Cpu Symbol :=
  ⟨fun _ => 0, fun c => if c = .badVAddr then 8200 else 0, oneMem, fun _ => ⟨0, 0, 0⟩,
    .text 0, .text 1⟩

/-- The handler loads the entry of the page. -/
theorem refill_agrees_onePage : ∃ hw c', Runs hw (tlbException smallLayout) missed c' ∧
    c'.pc = .returned ∧ c'.cp0 .entryLo0 = onePte ∧ c'.cp0 .entryLo1 = onePte + 64 := by
  obtain ⟨h, s, hr, hin, ht⟩ := exists_run_onePage
  have hf : pmapFind (s.pmap 1) 8200 = some onePte := by
    simp only [pmapFind, if_neg hin, ht]
    rfl
  obtain ⟨c', hrn, ⟨pte, hpte, -, hrf, -⟩ | ⟨hn, -⟩⟩ :=
    refill_agrees pinit_freshTables hr ⟨fun _ _ => 0⟩ ⟨rfl, rfl, rfl⟩
      (c := missed) (.inr ⟨by decide, userAt_oneMem ht⟩) hin
  · obtain rfl : onePte = pte := Option.some.inj (hf.symm.trans hpte)
    have hp := hrf.pair
    exact ⟨_, c', hrn, hrf.returned, congrArg Prod.fst hp, congrArg Prod.snd hp⟩
  · exact absurd (by decide) (hn onePte hf)

end Glatt
