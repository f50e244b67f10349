import Glatt.Lib.Bitmap
import Glatt.Lib.Transition

/-!
# The Hokusai rendezvous

The functions of `core_mp_hokusai.c`. A processor that calls `mp_hokusai_synchronize` takes a lock,
stores a callback and the mask of the processors that shall run it, and interrupts all others. Every
processor of the mask sets its bit in the mask of those that are ready, waits until all bits are
set, runs the callback, and does the same with the mask of those that are done.

A step is one read or one write of a variable that the processors share. A comparison of two masks
reads the left one first.

## Main definitions

* `HokusaiPc`: where a processor is in the functions
* `HokusaiMachine`, `HokusaiStep`: the processors with their variables, and one read or write

## Main results

* `cpuBitmask_ext`, `cpuBitmaskIsSet_set`: masks are sets of processors
-/

namespace Glatt

open Transition Function

/-! ## Masks of processors -/

/-- `cpu_id_t`: a processor, one of at most `MAXCPUS`. -/
abbrev CpuId := Fin 64

def cpuBitmaskIsSet (mask : UInt64) (cpu : CpuId) : Bool := mask &&& Bitmap.bit cpu ≠ 0

def cpuBitmaskSet (mask : UInt64) (cpu : CpuId) : UInt64 := mask ||| Bitmap.bit cpu

section Masks

variable {m m' : UInt64} {c c' : CpuId}

theorem cpuBitmaskIsSet_iff : cpuBitmaskIsSet m c = true ↔ m.toNat.testBit c = true := by
  rw [cpuBitmaskIsSet, decide_eq_true_eq, Bitmap.and_bit_ne_zero c.isLt]

@[simp] theorem cpuBitmaskIsSet_set :
    cpuBitmaskIsSet (cpuBitmaskSet m c) c' = (decide (c' = c) || cpuBitmaskIsSet m c') := by
  rw [Bool.eq_iff_iff, cpuBitmaskIsSet_iff, cpuBitmaskSet, Bitmap.testBit_or_bit c.isLt,
    Bool.or_eq_true, decide_eq_true_eq, Fin.val_inj, cpuBitmaskIsSet_iff]

@[simp] theorem cpuBitmaskIsSet_zero : cpuBitmaskIsSet 0 c = false := by
  rw [Bool.eq_false_iff, Ne, cpuBitmaskIsSet_iff]
  simp

theorem cpuBitmask_ext (h : ∀ c, cpuBitmaskIsSet m c = true ↔ cpuBitmaskIsSet m' c = true) :
    m = m' := by
  refine UInt64.toNat_inj.mp (Nat.eq_of_testBit_eq fun n => ?_)
  by_cases hn : n < 64
  · have hb := h ⟨n, hn⟩
    rw [cpuBitmaskIsSet_iff, cpuBitmaskIsSet_iff] at hb
    exact Bool.eq_iff_iff.mpr hb
  · have hle : 2 ^ 64 ≤ 2 ^ n := Nat.pow_le_pow_right (by decide) (Nat.le_of_not_lt hn)
    rw [Nat.testBit_lt_two_pow (m.toNat_lt.trans_le hle),
      Nat.testBit_lt_two_pow (m'.toNat_lt.trans_le hle)]

end Masks

/-! ## The processors -/

variable {γ δ : Type}

/-- The variables that the processors share, the lock, and how many interrupts are pending on each
processor. A pointer is `none` if it is NULL. -/
structure HokusaiVars (γ δ : Type) where
  readyBitmask : UInt64
  doneBitmask : UInt64
  targetBitmask : UInt64
  callback : Option γ
  arg : Option δ
  lock : Option CpuId
  pending : CpuId → ℕ

/-- What `mp_hokusai_synchronize` does next, before it calls `mp_hokusai`. -/
inductive SetupStage
  | callback
  | arg
  | clearReady
  | clearDone
  | target
  | send
  deriving DecidableEq

/-- What `mp_hokusai` does next: it sets the bit in `mp_hokusai_enter`; reads the mask of the ready
processors, and then the target mask, in its wait loop; is about to run the callback, or runs it;
and the same again in `mp_hokusai_exit`. -/
inductive BarrierStage
  | enter
  | waitReady
  | waitReadyTarget (ready : UInt64)
  | entered
  | calling
  | exit
  | waitDone
  | waitDoneTarget (done : UInt64)
  deriving DecidableEq

/-- What `mp_hokusai_synchronize` does next, after `mp_hokusai`. -/
inductive FinishStage
  | callback
  | arg
  | unlock
  deriving DecidableEq

/-- Where a processor is: not in a round; in `mp_hokusai_synchronize`, with the lock; in
`mp_hokusai_ipi`, before it tests the target mask or reads the callback; in `mp_hokusai`, called by
the former if `initiator` is set and else by the latter; or back in `mp_hokusai_synchronize`. -/
inductive HokusaiPc (γ δ : Type)
  | idle
  | setup (stage : SetupStage) (target : UInt64) (callback : γ) (p : Option δ) (justwait : Bool)
  | testing
  | loading
  | loadingArg (callback : Option γ)
  | inside (initiator : Bool) (callback : Option γ) (p : Option δ) (stage : BarrierStage)
  | finish (stage : FinishStage)

def HokusaiPc.waitsDone : HokusaiPc γ δ → Bool
  | .inside _ _ _ .waitDone => true
  | .inside _ _ _ (.waitDoneTarget _) => true
  | _ => false

/-- The processor is in the wait loop of `mp_hokusai_enter` or `mp_hokusai_exit`. -/
def HokusaiPc.waits : HokusaiPc γ δ → Bool
  | .inside _ _ _ .waitReady => true
  | .inside _ _ _ (.waitReadyTarget _) => true
  | pc => pc.waitsDone

def setupAdvance (cpu : CpuId) (g : HokusaiVars γ δ) (target : UInt64) (callback : γ) (p : Option δ)
    (justwait : Bool) : SetupStage → HokusaiVars γ δ × HokusaiPc γ δ
  | .callback => ({ g with callback := some callback }, .setup .arg target callback p justwait)
  | .arg => ({ g with arg := p }, .setup .clearReady target callback p justwait)
  | .clearReady => ({ g with readyBitmask := 0 }, .setup .clearDone target callback p justwait)
  | .clearDone => ({ g with doneBitmask := 0 }, .setup .target target callback p justwait)
  | .target => ({ g with targetBitmask := target }, .setup .send target callback p justwait)
  | .send =>
    ({ g with pending := fun c => if c = cpu then g.pending c else g.pending c + 1 },
      if justwait then .inside true none none .enter
      else .inside true (some callback) p .enter)

def barrierAdvance (cpu : CpuId) (g : HokusaiVars γ δ) (initiator : Bool) (callback : Option γ)
    (p : Option δ) : BarrierStage → HokusaiVars γ δ × HokusaiPc γ δ
  | .enter =>
    ({ g with readyBitmask := cpuBitmaskSet g.readyBitmask cpu },
      .inside initiator callback p .waitReady)
  | .waitReady => (g, .inside initiator callback p (.waitReadyTarget g.readyBitmask))
  | .waitReadyTarget ready =>
    (g, .inside initiator callback p (if ready = g.targetBitmask then .entered else .waitReady))
  | .entered => (g, .inside initiator callback p (if callback.isSome then .calling else .exit))
  | .calling => (g, .inside initiator callback p .exit)
  | .exit =>
    ({ g with doneBitmask := cpuBitmaskSet g.doneBitmask cpu },
      .inside initiator callback p .waitDone)
  | .waitDone => (g, .inside initiator callback p (.waitDoneTarget g.doneBitmask))
  | .waitDoneTarget done =>
    (g, if done = g.targetBitmask then if initiator then .finish .callback else .idle
      else .inside initiator callback p .waitDone)

def finishAdvance (g : HokusaiVars γ δ) : FinishStage → HokusaiVars γ δ × HokusaiPc γ δ
  | .callback => ({ g with callback := none }, .finish .arg)
  | .arg => ({ g with arg := none }, .finish .unlock)
  | .unlock => ({ g with lock := none }, .idle)

def hokusaiAdvance (cpu : CpuId) (g : HokusaiVars γ δ) :
    HokusaiPc γ δ → HokusaiVars γ δ × HokusaiPc γ δ
  | .idle => (g, .idle)
  | .setup stage target callback p justwait =>
    setupAdvance cpu g target callback p justwait stage
  | .testing => (g, if cpuBitmaskIsSet g.targetBitmask cpu then .loading else .idle)
  | .loading => (g, .loadingArg g.callback)
  | .loadingArg callback => (g, .inside false callback g.arg .enter)
  | .inside initiator callback p stage => barrierAdvance cpu g initiator callback p stage
  | .finish stage => finishAdvance g stage

/-- The shared variables, and where the processors are. -/
structure HokusaiMachine (γ δ : Type) where
  g : HokusaiVars γ δ
  pc : CpuId → HokusaiPc γ δ

/-- What a step does. -/
inductive HokusaiEvent (γ δ : Type)
  | acquire (cpu : CpuId) (target : UInt64) (callback : γ) (p : Option δ)
  | interrupt (cpu : CpuId)
  | run (cpu : CpuId)

/-- A call of `mp_hokusai_synchronize` gets the lock, and adds the processor to the target mask. -/
def HokusaiMachine.acquired (s : HokusaiMachine γ δ) (cpu : CpuId) (target : UInt64) (callback : γ)
    (p : Option δ) : HokusaiMachine γ δ where
  g := { s.g with lock := some cpu }
  pc := update s.pc cpu <|
    .setup .callback (cpuBitmaskSet target cpu) callback p (!cpuBitmaskIsSet target cpu)

def HokusaiMachine.interrupted (s : HokusaiMachine γ δ) (cpu : CpuId) : HokusaiMachine γ δ where
  g := { s.g with pending := update s.g.pending cpu (s.g.pending cpu - 1) }
  pc := update s.pc cpu .testing

def HokusaiMachine.next (s : HokusaiMachine γ δ) (cpu : CpuId) : HokusaiMachine γ δ where
  g := (hokusaiAdvance cpu s.g (s.pc cpu)).1
  pc := update s.pc cpu (hokusaiAdvance cpu s.g (s.pc cpu)).2

/-- **One step**: a processor gets the lock in `mp_hokusai_synchronize`; takes an interrupt, which
it does not while it has the lock or is in the handler; or goes on in its round. -/
inductive HokusaiStep : HokusaiMachine γ δ → HokusaiEvent γ δ → HokusaiMachine γ δ → Prop
  | acquire {s cpu target callback p} : s.pc cpu = .idle → s.g.lock = none →
      HokusaiStep s (.acquire cpu target callback p) (s.acquired cpu target callback p)
  | interrupt {s cpu} : s.pc cpu = .idle → s.g.pending cpu ≠ 0 →
      HokusaiStep s (.interrupt cpu) (s.interrupted cpu)
  | run {s cpu} : s.pc cpu ≠ .idle → HokusaiStep s (.run cpu) (s.next cpu)

/-! ## A step moves one processor -/

section Moves

variable {s : HokusaiMachine γ δ} {cpu c : CpuId}

theorem acquired_pc_of_ne {target : UInt64} {callback : γ} {p : Option δ} (h : c ≠ cpu) :
    (s.acquired cpu target callback p).pc c = s.pc c := update_of_ne h ..

theorem interrupted_pc_of_ne (h : c ≠ cpu) : (s.interrupted cpu).pc c = s.pc c := update_of_ne h ..

theorem next_pc_self : (s.next c).pc c = (hokusaiAdvance c s.g (s.pc c)).2 := update_self ..

theorem next_pc_of_ne (h : c ≠ cpu) : (s.next cpu).pc c = s.pc c := update_of_ne h ..

end Moves

end Glatt
