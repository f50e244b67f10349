import Glatt.Core.HokusaiRound
import Mathlib.Algebra.BigOperators.Fin
import Mathlib.Algebra.Order.BigOperators.Group.Finset

/-!
# The rendezvous of one round

A round that begins when no processor is in another one runs the callback once on each processor of
its target mask, on none before all have entered, and returns after all callbacks have.

## Main definitions

* `HokusaiMachine.distance`: how far a round is from its end

## Main results

* `hokusai_rendezvous`: the rendezvous
-/

namespace Glatt

open Transition List HokusaiMachine Round

variable {γ δ : Type} {p : Option δ} {f : Option γ} {stage : SetupStage} {i : Bool}

/-! ## Counting steps -/

/-- How often a history runs a processor from a place with the given property. -/
def stepsAt (P : HokusaiPc γ δ → Bool) (h : List (HokusaiMachine γ δ × HokusaiEvent γ δ))
    (c : CpuId) : ℕ :=
  h.countP fun e => match e.2 with
    | .run c' => decide (c' = c) && P (e.1.pc c)
    | _ => false

def HokusaiPc.enters : HokusaiPc γ δ → Bool
  | .inside _ _ _ .enter => true
  | _ => false

def HokusaiPc.starts : HokusaiPc γ δ → Bool
  | .inside _ (some _) _ .entered => true
  | _ => false

def HokusaiPc.returns : HokusaiPc γ δ → Bool
  | .inside _ (some _) _ .calling => true
  | _ => false

/-- The processor has called the callback, if it has one. The bit says whether it has entered. -/
def HokusaiPc.started (entered : Bool) : HokusaiPc γ δ → Bool
  | .idle => entered
  | .inside _ _ _ .calling => true
  | .inside _ _ _ .exit => true
  | .inside _ _ _ .waitDone => true
  | .inside _ _ _ (.waitDoneTarget _) => true
  | .finish _ => true
  | _ => false

def HokusaiPc.returned (entered : Bool) : HokusaiPc γ δ → Bool
  | .idle => entered
  | .inside _ _ _ .exit => true
  | .inside _ _ _ .waitDone => true
  | .inside _ _ _ (.waitDoneTarget _) => true
  | .finish _ => true
  | _ => false

section Counts

variable {P : HokusaiPc γ δ → Bool} {h : List (HokusaiMachine γ δ × HokusaiEvent γ δ)}
  {s s' : HokusaiMachine γ δ} {c c' : CpuId} {R : Round γ δ} {e : HokusaiEvent γ δ}

theorem stepsAt_run :
    stepsAt P (h ++ [(s, .run c')]) c =
      stepsAt P h c + if c' = c ∧ P (s.pc c) = true then 1 else 0 := by
  simp [stepsAt, countP_append, countP_singleton]

theorem stepsAt_interrupt : stepsAt P (h ++ [(s, .interrupt c')]) c = stepsAt P h c := by
  simp [stepsAt, countP_append]

/-- The numbers of steps of a processor: it has entered if its bit is set, and has called and
returned from its callback once, if it has one and is beyond that. -/
structure CountedAt (R : Round γ δ) (h : List (HokusaiMachine γ δ × HokusaiEvent γ δ))
    (s : HokusaiMachine γ δ) (c : CpuId) : Prop where
  enters : cpuBitmaskIsSet s.g.readyBitmask c = true → 0 < stepsAt HokusaiPc.enters h c
  starts : stepsAt HokusaiPc.starts h c =
    if (R.own c).1.isSome && (s.pc c).started (cpuBitmaskIsSet s.g.readyBitmask c) then 1 else 0
  returns : stepsAt HokusaiPc.returns h c =
    if (R.own c).1.isSome && (s.pc c).returned (cpuBitmaskIsSet s.g.readyBitmask c) then 1 else 0

theorem Going.next_ready_of_ne (h : Going R s) (hc : c ≠ c') :
    cpuBitmaskIsSet (s.next c').g.readyBitmask c = cpuBitmaskIsSet s.g.readyBitmask c := by
  have ha := h.place c'
  rw [HokusaiMachine.next]
  cases hpc : s.pc c' with
  | setup =>
    rw [hpc] at ha
    exact ha.elim
  | inside _ _ _ stage =>
    cases stage with
    | enter => simp [hokusaiAdvance, barrierAdvance, hc]
    | _ => rfl
  | finish stage => cases stage <;> rfl
  | _ => rfl

theorem CountedAt.frame (hct : CountedAt R h s c) (hpc : s'.pc c = s.pc c)
    (hr : cpuBitmaskIsSet s'.g.readyBitmask c = cpuBitmaskIsSet s.g.readyBitmask c)
    (hs : ∀ P, stepsAt P (h ++ [(s, e)]) c = stepsAt P h c) :
    CountedAt R (h ++ [(s, e)]) s' c where
  enters := by
    rw [hr, hs]
    exact hct.enters
  starts := by
    rw [hr, hs, hpc]
    exact hct.starts
  returns := by
    rw [hr, hs, hpc]
    exact hct.returns

theorem HokusaiPc.not_started {entered : Bool} {pc : HokusaiPc γ δ} (h : pc.starts = true) :
    pc.started entered = false := by
  match pc, h with
  | .inside _ (some _) _ .entered, _ => rfl

theorem HokusaiPc.not_returned {entered : Bool} {pc : HokusaiPc γ δ} (h : pc.returns = true) :
    pc.returned entered = false := by
  match pc, h with
  | .inside _ (some _) _ .calling, _ => rfl

theorem Going.own_isSome (h : Going R s)
    (hpc : (s.pc c).starts = true ∨ (s.pc c).returns = true) : (R.own c).1.isSome = true := by
  have ha := h.place c
  obtain ⟨i, f, p, stage, heq⟩ : ∃ i f p stage, s.pc c = .inside i (some f) p stage := by
    match hs : s.pc c, hpc with
    | .inside i (some f) p .entered, _ | .inside i (some f) p .calling, _ => exact ⟨i, f, p, _, rfl⟩
  rw [heq] at ha
  rw [← ha.2.2.2.1]
  rfl

theorem count_advance {own before after now : Bool} {n : ℕ}
    (hct : n = if own && before then 1 else 0) (ho : now = true → own = true)
    (hb : now = true → before = false) (ha : own = true → after = (before || now)) :
    n + (if now = true then 1 else 0) = if own && after then 1 else 0 := by
  subst hct
  cases own with
  | false =>
    have hn : now = false := Bool.eq_false_iff.mpr fun h => by cases ho h
    simp [hn]
  | true =>
    rw [ha rfl]
    cases now with
    | false => simp
    | true => simp [hb rfl]

section

variable (hct : CountedAt R h s c)
include hct

theorem CountedAt.advance (hg : Going R s)
    (hr : cpuBitmaskIsSet (s.next c).g.readyBitmask c = cpuBitmaskIsSet s.g.readyBitmask c)
    (hs : ∀ r, r = cpuBitmaskIsSet s.g.readyBitmask c → (R.own c).1.isSome = true → ((s.next
      c).pc c).started r = ((s.pc c).started r || (s.pc c).starts))
    (hrt : ∀ r, r = cpuBitmaskIsSet s.g.readyBitmask c → (R.own c).1.isSome = true → ((s.next
      c).pc c).returned r = ((s.pc c).returned r || (s.pc c).returns)) :
    CountedAt R (h ++ [(s, .run c)]) (s.next c) c where
  enters := by
    rw [hr, stepsAt_run]
    exact fun hb => Nat.add_pos_left (hct.enters hb) _
  starts := by
    rw [hr, stepsAt_run]
    simp only [true_and]
    exact count_advance hct.starts (fun h => hg.own_isSome (.inl h))
      HokusaiPc.not_started (hs _ rfl)
  returns := by
    rw [hr, stepsAt_run]
    simp only [true_and]
    exact count_advance hct.returns (fun h => hg.own_isSome (.inr h))
      HokusaiPc.not_returned (hrt _ rfl)

theorem CountedAt.barrier (hg : Going R s) {initiator : Bool} {callback : Option γ}
    {stage : BarrierStage} (hpc : s.pc c = .inside initiator callback p stage)
    (hst : stage ≠ .enter) :
    CountedAt R (h ++ [(s, .run c)]) (s.next c) c := by
  have ha := hg.place c
  rw [hpc] at ha
  obtain ⟨-, hmem, -, ho, hok⟩ := ha
  have hn : (s.next c).pc c = (barrierAdvance c s.g initiator callback p stage).2 := by
    rw [next_pc_self, hpc, hokusaiAdvance]
  refine hct.advance hg ?_ (fun r hr hs => ?_) fun r hr hs => ?_
  · rw [HokusaiMachine.next, hpc, hokusaiAdvance]
    cases stage with
    | enter => exact absurd rfl hst
    | _ => rfl
  all_goals
    rw [← ho] at hs
    obtain ⟨f, rfl⟩ := Option.isSome_iff_exists.mp hs
    rw [hn, hpc]
    cases stage with
    | enter => exact absurd rfl hst
    | waitReadyTarget ready =>
      rw [barrierAdvance]
      split <;> rfl
    | waitDoneTarget done =>
      -- a processor that leaves has its bit set
      rw [barrierAdvance, hr, hg.all_ready c hok.1, hmem]
      split
      · split <;> rfl
      · rfl
    | _ => rfl

theorem CountedAt.run (hg : Going R s) (hin : s.pc c ≠ .idle) :
    CountedAt R (h ++ [(s, .run c)]) (s.next c) c := by
  have ha := hg.place c
  cases hpc : s.pc c with
  | idle => exact absurd hpc hin
  | setup =>
    rw [hpc] at ha
    exact ha.elim
  | testing =>
    rw [hpc] at ha
    refine hct.advance hg ?_ (fun r hr _ => ?_) fun r hr _ => ?_
    · rw [HokusaiMachine.next, hpc, hokusaiAdvance]
    all_goals
      rw [next_pc_self, hpc, hokusaiAdvance, hr, ha.2.2]
      split <;> rfl
  | loading | loadingArg =>
    refine hct.advance hg ?_ (fun r hr _ => ?_) fun r hr _ => ?_
    · rw [HokusaiMachine.next, hpc, hokusaiAdvance]
    all_goals
      rw [next_pc_self, hpc]
      rfl
  | inside initiator callback p stage =>
    by_cases hs : stage = .enter
    · subst hs
      refine ⟨fun _ => ?_, ?_, ?_⟩
      · rw [stepsAt_run, hpc]
        simp [HokusaiPc.enters]
      · rw [stepsAt_run, hct.starts, next_pc_self, hpc]
        simp [hokusaiAdvance, barrierAdvance, HokusaiPc.started, HokusaiPc.starts]
      · rw [stepsAt_run, hct.returns, next_pc_self, hpc]
        simp [hokusaiAdvance, barrierAdvance, HokusaiPc.returned, HokusaiPc.returns]
    · exact hct.barrier hg hpc hs
  | finish stage =>
    rw [hpc] at ha
    have hrd : cpuBitmaskIsSet s.g.readyBitmask c = true := by
      have hb : cpuBitmaskIsSet R.mask c = true := ha.2.1 ▸ R.initiator_mem
      rw [hg.all_ready c (by rw [ha.2.2, hb]), hb]
    refine hct.advance hg ?_ (fun r hr _ => ?_) fun r hr _ => ?_
    · rw [HokusaiMachine.next, hpc, hokusaiAdvance]
      cases stage <;> rfl
    all_goals
      rw [next_pc_self, hpc, hr, hrd]
      cases stage <;> rfl

theorem CountedAt.interrupt (hg : Going R s) (hid : s.pc c' = .idle) (hp : s.g.pending c' ≠ 0) :
    CountedAt R (h ++ [(s, .interrupt c')]) (s.interrupted c') c := by
  by_cases hc : c = c'
  · subst hc
    have hr : cpuBitmaskIsSet s.g.readyBitmask c = false := by
      have ha := hg.place c
      rw [hid] at ha
      rcases ha with ha | ha
      · exact ha.2.2
      · exact absurd ha.1 hp
    have hpc : (s.interrupted c).pc c = .testing := Function.update_self ..
    have hv : (s.interrupted c).g.readyBitmask = s.g.readyBitmask := rfl
    refine ⟨fun hb => ?_, ?_, ?_⟩
    · rw [hv, hr] at hb
      cases hb
    · rw [stepsAt_interrupt, hct.starts, hpc, hid, hv, hr]
      rfl
    · rw [stepsAt_interrupt, hct.returns, hpc, hid, hv, hr]
      rfl
  · exact hct.frame (interrupted_pc_of_ne hc) rfl fun _ => stepsAt_interrupt

end

/-- The numbers of all processors: nobody has called the callback while the round is prepared, and
then each processor counts. -/
def RoundCounted (R : Round γ δ) (h : List (HokusaiMachine γ δ × HokusaiEvent γ δ))
    (s : HokusaiMachine γ δ) : Prop :=
  (∃ stage, Preparing R s stage) ∧
      (∀ c, stepsAt HokusaiPc.starts h c = 0 ∧ stepsAt HokusaiPc.returns h c = 0) ∨
    Going R s ∧ ∀ c, CountedAt R h s c

theorem Preparing.countedAt_send (hp : Preparing R s .send)
    (hz : stepsAt HokusaiPc.starts h c = 0 ∧ stepsAt HokusaiPc.returns h c = 0) :
    CountedAt R (h ++ [(s, .run R.initiator)]) (s.next R.initiator) c := by
  have hr : cpuBitmaskIsSet (s.next R.initiator).g.readyBitmask c = false := by
    rw [HokusaiMachine.next, hp.pc, hokusaiAdvance, setupAdvance, hp.prepared.2.2.1,
      cpuBitmaskIsSet_zero]
  have hpl : ((s.next R.initiator).pc c).started false = false ∧
      ((s.next R.initiator).pc c).returned false = false := by
    by_cases hc : c = R.initiator
    · subst hc
      rw [next_pc_self, hp.pc, hokusaiAdvance, setupAdvance]
      split <;> exact ⟨rfl, rfl⟩
    · rw [next_pc_of_ne hc, hp.idle c hc]
      exact ⟨rfl, rfl⟩
  have hs : ∀ P : HokusaiPc γ δ → Bool, (∀ t f p w, P (.setup .send t f p w) = false) →
      stepsAt P (h ++ [(s, .run R.initiator)]) c = stepsAt P h c := by
    intro P hP
    rw [stepsAt_run]
    by_cases hc : R.initiator = c
    · rw [← hc, hp.pc]
      simp [hP]
    · simp [hc]
  refine ⟨fun hb => ?_, ?_, ?_⟩
  · rw [hr] at hb
    cases hb
  · rw [hr, hpl.1, hs _ fun _ _ _ _ => rfl, hz.1]
    simp
  · rw [hr, hpl.2, hs _ fun _ _ _ _ => rfl, hz.2]
    simp

theorem RoundCounted.step (hct : RoundCounted R h s) (hs : HokusaiStep s e s')
    (he : e.Continues) : RoundCounted R (h ++ [(s, e)]) s' := by
  rcases hct with ⟨⟨stage, hpr⟩, hz⟩ | ⟨hg, hct⟩
  · cases hs with
    | acquire => exact he.elim
    | interrupt _ hp => exact absurd (hpr.pending _) hp
    | @run cpu hin =>
      obtain rfl : cpu = R.initiator := by
        by_contra hne
        exact hin (hpr.idle cpu hne)
      by_cases hst : stage = .send
      · subst hst
        exact .inr ⟨hpr.send, fun c => hpr.countedAt_send (hz c)⟩
      · refine .inl ⟨⟨_, hpr.advance hst⟩, fun c => ?_⟩
        rw [stepsAt_run, stepsAt_run, (hz c).1, (hz c).2]
        by_cases hc : R.initiator = c
        · rw [← hc, hpr.pc]
          simp [HokusaiPc.starts, HokusaiPc.returns]
        · simp [hc]
  · cases hs with
    | acquire => exact he.elim
    | interrupt hid hp =>
      exact .inr ⟨hg.interrupt hid hp, fun c => (hct c).interrupt hg hid hp⟩
    | @run cpu hin =>
      refine .inr ⟨hg.run hin, fun c => ?_⟩
      by_cases hc : c = cpu
      · subst hc
        exact (hct c).run hg hin
      · refine (hct c).frame (next_pc_of_ne hc) (hg.next_ready_of_ne hc) fun P => ?_
        rw [stepsAt_run, if_neg fun ha => hc ha.1.symm, Nat.add_zero]

end Counts

/-! ## Completing a round -/

def HokusaiPc.rank : HokusaiPc γ δ → ℕ
  | .idle => 0
  | .setup .. => 0
  | .testing => 19
  | .loading => 18
  | .loadingArg _ => 17
  | .inside _ _ _ .enter => 16
  | .inside _ _ _ .waitReady => 15
  | .inside _ _ _ (.waitReadyTarget _) => 15
  | .inside _ _ _ .entered => 14
  | .inside _ _ _ .calling => 13
  | .inside _ _ _ .exit => 12
  | .inside _ _ _ .waitDone => 11
  | .inside _ _ _ (.waitDoneTarget _) => 11
  | .finish .callback => 3
  | .finish .arg => 2
  | .finish .unlock => 1

/-- How far a processor is from the end of the round, with its pending interrupts. -/
def HokusaiMachine.weight (s : HokusaiMachine γ δ) (c : CpuId) : ℕ :=
  (s.pc c).rank + 20 * s.g.pending c

def HokusaiMachine.distance (s : HokusaiMachine γ δ) : ℕ := ∑ c, s.weight c

section Completes

variable {s s' : HokusaiMachine γ δ} {c : CpuId} {R : Round γ δ}

theorem distance_lt (c : CpuId) (ho : ∀ c', c' ≠ c → s'.weight c' = s.weight c')
    (hs : s'.weight c < s.weight c) : s'.distance < s.distance := by
  refine Finset.sum_lt_sum (fun c' _ => ?_) ⟨c, Finset.mem_univ c, hs⟩
  by_cases hc : c' = c
  · rw [hc]
    exact hs.le
  · exact (ho c' hc).le

theorem Going.next_pending (h : Going R s) : (s.next c).g.pending = s.g.pending := by
  have ha := h.place c
  rw [HokusaiMachine.next]
  cases hpc : s.pc c with
  | setup =>
    rw [hpc] at ha
    exact ha.elim
  | inside _ _ _ stage | finish stage => cases stage <;> rfl
  | _ => rfl

theorem Going.weight_next_of_ne {c' : CpuId} (h : Going R s) (hc : c' ≠ c) :
    (s.next c).weight c' = s.weight c' := by
  rw [weight, weight, next_pc_of_ne hc, h.next_pending]

theorem Going.rank_lt (h : Going R s) (hin : s.pc c ≠ .idle) (hw : (s.pc c).waits = false) :
    ((s.next c).pc c).rank < (s.pc c).rank := by
  have ha := h.place c
  rw [next_pc_self]
  cases hpc : s.pc c with
  | idle => exact absurd hpc hin
  | setup =>
    rw [hpc] at ha
    exact ha.elim
  | testing =>
    rw [hokusaiAdvance]
    split <;> simp [HokusaiPc.rank]
  | loading => exact Nat.lt_succ_self 17
  | loadingArg => exact Nat.lt_succ_self 16
  | inside initiator callback p stage =>
    rw [hpc] at hw
    cases stage with
    | enter => exact Nat.lt_succ_self 15
    | entered =>
      rw [hokusaiAdvance, barrierAdvance]
      cases callback
      · exact Nat.lt_of_succ_lt (Nat.lt_succ_self 13)
      · exact Nat.lt_succ_self 13
    | calling => exact Nat.lt_succ_self 12
    | exit => exact Nat.lt_succ_self 11
    | _ => cases hw
  | finish stage =>
    cases stage with
    | callback => exact Nat.lt_succ_self 2
    | arg => exact Nat.lt_succ_self 1
    | unlock => exact Nat.lt_succ_self 0

theorem interrupted_distance (hid : s.pc c = .idle) (hp : s.g.pending c ≠ 0) :
    (s.interrupted c).distance < s.distance := by
  refine distance_lt c (fun c' hc => ?_) ?_
  · rw [weight, weight, interrupted_pc_of_ne hc]
    simp [interrupted, hc]
  · simp only [weight, interrupted, Function.update_self, hid, HokusaiPc.rank]
    omega

def Nearer (R : Round γ δ) (s : HokusaiMachine γ δ) : Prop :=
  ∃ h s', Run HokusaiStep s h s' ∧ (∀ e ∈ h, e.2.Continues) ∧ Going R s' ∧ s'.distance < s.distance

section

variable (h : Going R s)
include h

theorem Going.nearer_once (hin : s.pc c ≠ .idle) (hr : ((s.next c).pc c).rank < (s.pc c).rank) :
    Nearer R s := by
  refine ⟨_, _, Run.nil.snoc (.run hin), by simp [HokusaiEvent.Continues], h.run hin,
    distance_lt c (fun c' hc => h.weight_next_of_ne hc) ?_⟩
  rw [weight, weight, h.next_pending]
  omega

theorem Nearer.of_next (hin : s.pc c ≠ .idle) (hr : ((s.next c).pc c).rank = (s.pc c).rank)
    (hn : Nearer R (s.next c)) :
    Nearer R s := by
  obtain ⟨h', s', hrun, hcn, hg, hlt⟩ := hn
  have hs : (s.next c).distance = s.distance := by
    rw [distance, distance]
    refine Finset.sum_congr rfl fun c' _ => ?_
    by_cases hc : c' = c
    · rw [hc, weight, weight, hr, h.next_pending]
    · exact h.weight_next_of_ne hc
  have hrun' := (Run.nil.snoc (HokusaiStep.run hin)).append hrun
  refine ⟨_, s', hrun', fun e he => ?_, hg, hlt.trans_eq hs⟩
  rcases mem_append.mp he with he | he
  · obtain rfl := mem_singleton.mp he
    trivial
  · exact hcn e he

theorem Going.nearer_wait {mask : HokusaiVars γ δ → UInt64} {read k : HokusaiPc γ δ}
    {test : UInt64 → HokusaiPc γ δ} (hpc : s.pc c = read ∨ ∃ m, s.pc c = test m)
    (hrd : ∀ g, hokusaiAdvance c g read = (g, test (mask g)))
    (ht : ∀ g m, hokusaiAdvance c g (test m) = (g, if m = g.targetBitmask then k else read))
    (hrn : k.rank < read.rank) (hs : ∀ m, (test m).rank = read.rank)
    (hms : mask s.g = R.mask) : Nearer R s := by
  have hne : ∀ {pc : HokusaiPc γ δ}, pc.rank = read.rank → pc ≠ .idle := by
    rintro _ hr rfl
    exact Nat.not_lt_zero _ (hr ▸ hrn)
  -- the loop leaves where it compares the complete mask
  have hl : ∀ {s : HokusaiMachine γ δ}, Going R s → s.pc c = test R.mask → Nearer R s := by
    intro s h hpc
    refine h.nearer_once (by rw [hpc]; exact hne (hs _)) ?_
    rw [next_pc_self, hpc, ht, h.target, if_pos rfl, hs]
    exact hrn
  have ha : ∀ {s : HokusaiMachine γ δ}, Going R s → mask s.g = R.mask → s.pc c = read →
      Nearer R s := by
    intro s h hms hpc
    have hin : s.pc c ≠ .idle := by rw [hpc]; exact hne rfl
    have hn : (s.next c).pc c = test R.mask := by rw [next_pc_self, hpc, hrd, hms]
    exact Nearer.of_next h hin (by rw [hn, hpc, hs]) (hl (h.run hin) hn)
  rcases hpc with hpc | ⟨m, hpc⟩
  · exact ha h hms hpc
  have hin : s.pc c ≠ .idle := by rw [hpc]; exact hne (hs m)
  by_cases hm : m = R.mask
  · exact hl h (hm ▸ hpc)
  · have hn : (s.next c).pc c = read := by rw [next_pc_self, hpc, ht, h.target, if_neg hm]
    have hv : (s.next c).g = s.g := by rw [HokusaiMachine.next, hpc, ht]
    exact Nearer.of_next h hin (by rw [hn, hpc, hs]) (ha (h.run hin) (by rw [hv, hms]) hn)

theorem Going.nearer_waitReady (hr : s.g.readyBitmask = R.mask)
    (hpc : s.pc c = .inside i f p .waitReady ∨ ∃ m, s.pc c = .inside i f p (.waitReadyTarget m)) :
    Nearer R s := by
  refine h.nearer_wait (k := .inside i f p .entered) hpc (fun _ => rfl) (fun g m => ?_)
    (Nat.lt_succ_self 14) (fun _ => rfl) hr
  rw [hokusaiAdvance, barrierAdvance]
  split <;> rfl

theorem Going.nearer_waitDone (hd : s.g.doneBitmask = R.mask)
    (hpc : s.pc c = .inside i f p .waitDone ∨ ∃ m, s.pc c = .inside i f p (.waitDoneTarget m)) :
    Nearer R s := by
  refine h.nearer_wait hpc (fun _ => rfl) (fun _ _ => rfl) ?_ (fun _ => rfl) hd
  split <;> simp [HokusaiPc.rank]

theorem Going.complete (hs : ∀ c, s.pc c = .idle ∧ s.g.pending c = 0 ∨ (s.pc c).waits = true) :
    s.g.readyBitmask = R.mask ∧
      ((∀ c, (s.pc c).waits = true → (s.pc c).waitsDone = true) → s.g.doneBitmask = R.mask) := by
  -- a processor of the mask is ready; if it waits in its exit or has left, all are
  have hp : ∀ c, cpuBitmaskIsSet R.mask c = true →
      cpuBitmaskIsSet s.g.readyBitmask c = true ∧
        ((s.pc c).waits = false ∨ (s.pc c).waitsDone = true →
          cpuBitmaskIsSet s.g.doneBitmask c = true) := by
    intro c hmem
    have hat := h.place c
    rcases hs c with ⟨hid, hpn⟩ | hw
    · rw [hid] at hat
      have hd : s.g.doneBitmask = R.mask := by
        rcases hat with hat | ⟨-, ho | hd⟩
        · exact absurd hat.1 (by simp [hpn])
        · rw [hmem] at ho
          cases ho
        · exact hd
      have hb : cpuBitmaskIsSet s.g.doneBitmask c = true := by rw [hd, hmem]
      exact ⟨by rw [h.all_ready c hb, hmem], fun _ => hb⟩
    · match hpc : s.pc c, hw with
      | .inside _ _ _ .waitReady, _ | .inside _ _ _ (.waitReadyTarget _), _ =>
        rw [hpc] at hat
        exact ⟨hat.2.2.2.2.1, fun hor => by rcases hor with hor | hor <;> cases hor⟩
      | .inside _ _ _ .waitDone, _ =>
        rw [hpc] at hat
        have hb := hat.2.2.2.2
        exact ⟨by rw [h.all_ready c hb, hmem], fun _ => hb⟩
      | .inside _ _ _ (.waitDoneTarget _), _ =>
        rw [hpc] at hat
        have hb := hat.2.2.2.2.1
        exact ⟨by rw [h.all_ready c hb, hmem], fun _ => hb⟩
  refine ⟨h.ready.antisymm fun c hc => (hp c hc).1, fun ha => ?_⟩
  refine h.done.antisymm fun c hc => (hp c hc).2 ?_
  cases hw : (s.pc c).waits with
  | false => exact .inl rfl
  | true => exact .inr (ha c hw)

theorem Going.nearer (hnot : ¬ HokusaiQuiet s) : Nearer R s := by
  by_cases hs : ∀ c, s.pc c = .idle ∧ s.g.pending c = 0 ∨ (s.pc c).waits = true
  · obtain ⟨hr, hd⟩ := h.complete hs
    by_cases ha : ∀ c, (s.pc c).waits = true → (s.pc c).waitsDone = true
    · -- everybody waits in the exit
      have hd := hd ha
      obtain ⟨c, hwt⟩ : ∃ c, (s.pc c).waitsDone = true := by
        by_contra hno
        push Not at hno
        have hid : ∀ c, s.pc c = .idle ∧ s.g.pending c = 0 := fun c =>
          (hs c).resolve_right fun hw => hno c (ha c hw)
        refine hnot ⟨?_, fun c => (hid c).1, fun c => (hid c).2⟩
        rcases h.lock with ⟨-, hin⟩ | ⟨hf, -⟩
        · exact absurd (hid R.initiator).1 hin
        · exact hf
      match hpc : s.pc c, hwt with
      | .inside _ _ _ .waitDone, _ => exact h.nearer_waitDone hd (.inl hpc)
      | .inside _ _ _ (.waitDoneTarget _), _ => exact h.nearer_waitDone hd (.inr ⟨_, hpc⟩)
    · push Not at ha
      obtain ⟨c, hwt, hn⟩ := ha
      match hpc : s.pc c, hwt, hn with
      | .inside _ _ _ .waitReady, _, _ => exact h.nearer_waitReady hr (.inl hpc)
      | .inside _ _ _ (.waitReadyTarget _), _, _ => exact h.nearer_waitReady hr (.inr ⟨_, hpc⟩)
  · push Not at hs
    obtain ⟨c, hid, hwt⟩ := hs
    by_cases hin : s.pc c = .idle
    · have hp := hid hin
      refine ⟨_, _, Run.nil.snoc (.interrupt hin hp), by simp [HokusaiEvent.Continues],
        h.interrupt hin hp, interrupted_distance hin hp⟩
    · exact h.nearer_once hin (h.rank_lt hin (Bool.eq_false_iff.mpr hwt))

theorem Going.completes :
    ∃ h' s', Run HokusaiStep s h' s' ∧ (∀ e ∈ h', e.2.Continues) ∧ HokusaiQuiet s' := by
  generalize hn : s.distance = n
  -- by induction on the distance from the end
  induction n using Nat.strong_induction_on generalizing s with
  | _ n ih =>
    by_cases hq : HokusaiQuiet s
    · exact ⟨[], s, Run.nil, nofun, hq⟩
    · obtain ⟨h₁, s₁, hrun₁, hc₁, hg, hlt⟩ := h.nearer hq
      obtain ⟨h₂, s₂, hrun₂, hc₂, hq₂⟩ := ih s₁.distance (hn ▸ hlt) hg rfl
      exact ⟨h₁ ++ h₂, s₂, hrun₁.append hrun₂, forall_mem_append.mpr ⟨hc₁, hc₂⟩, hq₂⟩

end

def SetupStage.left : SetupStage → ℕ
  | .callback => 5
  | .arg => 4
  | .clearReady => 3
  | .clearDone => 2
  | .target => 1
  | .send => 0

theorem SetupStage.left_next (h : stage ≠ .send) : stage.next.left + 1 = stage.left := by
  cases stage with
  | send => exact absurd rfl h
  | _ => rfl

theorem SetupStage.eq_send (h : stage.left = 0) : stage = .send := by
  by_contra hne
  have hl := SetupStage.left_next hne
  omega

theorem Preparing.completes (h : Preparing R s stage) :
    ∃ h' s', Run HokusaiStep s h' s' ∧ (∀ e ∈ h', e.2.Continues) ∧ HokusaiQuiet s' := by
  generalize hn : stage.left = n
  -- by induction on the stages that are left; the initiator takes the next step
  have hin : s.pc R.initiator ≠ .idle := by
    rw [h.pc]
    nofun
  have hf : Run HokusaiStep s [(s, .run R.initiator)] (s.next R.initiator) :=
    Run.nil.snoc (.run hin)
  induction n generalizing s stage with
  | zero =>
    obtain rfl := SetupStage.eq_send hn
    obtain ⟨h', s', hrun, hc, hq⟩ := h.send.completes
    exact ⟨_, s', hf.append hrun, forall_mem_cons.mpr ⟨trivial, hc⟩, hq⟩
  | succ n ih =>
    have hs : stage ≠ .send := by
      rintro rfl
      cases hn
    have hnx := h.advance hs
    have hin' : (s.next R.initiator).pc R.initiator ≠ .idle := by
      rw [hnx.pc]
      nofun
    have hl : stage.next.left = n := by
      have ho := SetupStage.left_next hs
      omega
    obtain ⟨h', s', hrun, hc, hq⟩ := ih hnx hl hin' (Run.nil.snoc (.run hin'))
    exact ⟨_, s', hf.append hrun, forall_mem_cons.mpr ⟨trivial, hc⟩, hq⟩

end Completes

/-! ## The rendezvous -/

section Rendezvous

variable {q s : HokusaiMachine γ δ} {c : CpuId} {R : Round γ δ}
  {h : List (HokusaiMachine γ δ × HokusaiEvent γ δ)}

theorem counted_run (hq : HokusaiQuiet q)
    (hrun : Run HokusaiStep (q.acquired R.initiator R.target R.callback R.p) h s)
    (ho : ∀ e ∈ h, e.2.Continues) : RoundCounted R h s := by
  induction hrun with
  | nil => exact .inl ⟨⟨_, hq.acquired R⟩, fun _ => ⟨rfl, rfl⟩⟩
  | snoc _ hs ih =>
    have hct := ih fun e he => ho e (mem_append_left _ he)
    exact hct.step hs (ho _ (mem_append_right _ mem_cons_self))

theorem Round.own_of_mem (hmem : cpuBitmaskIsSet R.target c = true) :
    R.own c = (some R.callback, R.p) := by
  rw [own, if_neg]
  rintro ⟨rfl, hw⟩
  rw [justwait, hmem] at hw
  cases hw

theorem Round.mem_mask (hmem : cpuBitmaskIsSet R.target c = true) :
    cpuBitmaskIsSet R.mask c = true := by
  simp [mask, hmem]

theorem CountedAt.starts_eq_zero (hct : CountedAt R h s c) (hg : Going R s)
    (ho : cpuBitmaskIsSet R.target c = false) : stepsAt HokusaiPc.starts h c = 0 := by
  rw [hct.starts]
  by_cases hc : c = R.initiator
  · subst hc
    have hown : R.own R.initiator = (none, none) := if_pos ⟨rfl, by simp [justwait, ho]⟩
    rw [hown]
    rfl
  · have hm : cpuBitmaskIsSet R.mask c = false := by simp [mask, hc, ho]
    have ha := hg.place c
    have hr : cpuBitmaskIsSet s.g.readyBitmask c = false :=
      Bool.eq_false_iff.mpr fun hb => by
        rw [hg.ready c hb] at hm
        cases hm
    have hs : (s.pc c).started (cpuBitmaskIsSet s.g.readyBitmask c) = false := by
      rw [hr]
      cases hpc : s.pc c with
      | inside =>
        rw [hpc] at ha
        rw [ha.2.1] at hm
        cases hm
      | finish =>
        rw [hpc] at ha
        exact absurd ha.2.1 hc
      | _ => rfl
    rw [hs, Bool.and_false]
    rfl

theorem CountedAt.of_done (hct : CountedAt R h s c) (hg : Going R s)
    (hd : s.g.doneBitmask = R.mask) (hmem : cpuBitmaskIsSet R.target c = true) :
    stepsAt HokusaiPc.starts h c = 1 ∧ stepsAt HokusaiPc.returns h c = 1 := by
  have hm := mem_mask hmem
  have hb : cpuBitmaskIsSet s.g.doneBitmask c = true := by rw [hd, hm]
  have hr : cpuBitmaskIsSet s.g.readyBitmask c = true := by
    rw [hg.all_ready c hb, hm]
  have hp : (s.pc c).started true = true ∧ (s.pc c).returned true = true := by
    have ha := hg.place c
    cases hpc : s.pc c with
    | idle => exact ⟨rfl, rfl⟩
    | setup =>
      rw [hpc] at ha
      exact ha.elim
    | testing =>
      rw [hpc] at ha
      exact absurd hr (by simp [ha.2.2])
    | loading | loadingArg =>
      rw [hpc] at ha
      exact absurd hr (by simp [ha.2.2.1])
    | inside _ _ _ stage =>
      rw [hpc] at ha
      have ho := ha.2.2.2.2
      cases stage with
      | enter => exact absurd hr (by simp [show _ = false from ho])
      | waitReady => exact absurd hb (by simp [ho.2])
      | waitReadyTarget => exact absurd hb (by simp [ho.2.1])
      | entered | calling => exact absurd hb (by simp [ho.2])
      | exit | waitDone | waitDoneTarget => exact ⟨rfl, rfl⟩
    | finish => exact ⟨rfl, rfl⟩
  rw [hct.starts, hct.returns, hr, hp.1, hp.2, own_of_mem hmem]
  exact ⟨rfl, rfl⟩

theorem RoundCounted.of_starts (hct : RoundCounted R h s) (hst : (s.pc c).starts = true) :
    (∃ i, s.pc c = .inside i (some R.callback) R.p .entered) ∧
      ∀ c', cpuBitmaskIsSet R.mask c' = true → 0 < stepsAt HokusaiPc.enters h c' := by
  obtain ⟨i, f, p, hpc⟩ : ∃ i f p, s.pc c = .inside i (some f) p .entered := by
    match hs : s.pc c, hst with
    | .inside i (some f) p .entered, _ => exact ⟨i, f, p, rfl⟩
  rcases hct with ⟨⟨stage, hp⟩, -⟩ | ⟨hg, hct⟩
  · by_cases hc : c = R.initiator
    · rw [hc, hp.pc] at hpc
      cases hpc
    · rw [hp.idle c hc] at hpc
      cases hpc
  · have ha := hg.place c
    rw [hpc] at ha
    obtain ⟨-, -, -, ho, hr, -⟩ := ha
    refine ⟨⟨i, ?_⟩, fun c' hmem => (hct c').enters (by rw [hr, hmem])⟩
    rw [own] at ho
    split at ho
    · cases ho
    · cases ho
      exact hpc

/-- **The rendezvous.** In a round that begins when no processor is in another one, however the
processors interleave:

* a processor that calls the callback calls that of the round, and every processor of the target
  mask, the initiator with it, has entered `mp_hokusai_enter` before;
* no processor calls it more than once, and none that is not in the target mask of the caller;
* when `mp_hokusai_synchronize` returns, each processor of that mask has called it once and returned
  from it;
* and the round can always be completed, after which each of them has called it exactly once. -/
theorem hokusai_rendezvous (hquiet : HokusaiQuiet q)
    (hrun : Run HokusaiStep (q.acquired R.initiator R.target R.callback R.p) h s)
    (honce : ∀ e ∈ h, e.2.Continues) :
    (∀ h₁ s₁ c h₂, h = h₁ ++ (s₁, .run c) :: h₂ → (s₁.pc c).starts = true →
      (∃ i, s₁.pc c = .inside i (some R.callback) R.p .entered) ∧
        ∀ c', cpuBitmaskIsSet R.mask c' = true → 0 < stepsAt HokusaiPc.enters h₁ c') ∧
    (∀ c, stepsAt HokusaiPc.starts h c ≤ 1 ∧
      (cpuBitmaskIsSet R.target c = false → stepsAt HokusaiPc.starts h c = 0)) ∧
    (∀ h₁ s₁ h₂, h = h₁ ++ (s₁, .run R.initiator) :: h₂ →
      s₁.pc R.initiator = .finish .unlock → ∀ c, cpuBitmaskIsSet R.target c = true →
        stepsAt HokusaiPc.starts h₁ c = 1 ∧ stepsAt HokusaiPc.returns h₁ c = 1) ∧
    ∃ h' s', Run HokusaiStep s h' s' ∧ (∀ e ∈ h', e.2.Continues) ∧ HokusaiQuiet s' ∧
      ∀ c, cpuBitmaskIsSet R.target c = true → stepsAt HokusaiPc.starts (h ++ h') c = 1 := by
  have hct := counted_run hquiet hrun honce
  refine ⟨?_, fun c => ?_, ?_, ?_⟩
  · rintro h₁ s₁ c h₂ rfl hs
    have hb := counted_run hquiet hrun.split.1 fun e he => honce e (mem_append_left _ he)
    exact hb.of_starts hs
  · rcases hct with ⟨-, hz⟩ | ⟨hg, hct⟩
    · rw [(hz c).1]
      exact ⟨Nat.zero_le 1, fun _ => rfl⟩
    · refine ⟨?_, (hct c).starts_eq_zero hg⟩
      rw [(hct c).starts]
      split <;> omega
  · rintro h₁ s₁ h₂ rfl hu c hmem
    have hb := counted_run hquiet hrun.split.1 fun e he => honce e (mem_append_left _ he)
    rcases hb with ⟨⟨_, hp⟩, -⟩ | ⟨hg, hct⟩
    · rw [hp.pc] at hu
      cases hu
    · have hat := hg.place R.initiator
      rw [hu] at hat
      exact (hct c).of_done hg hat.2.2 hmem
  · obtain ⟨h', s', hrun', hc, hend⟩ : ∃ h' s', Run HokusaiStep s h' s' ∧
        (∀ e ∈ h', e.2.Continues) ∧ HokusaiQuiet s' := by
      rcases hct with ⟨⟨_, hp⟩, -⟩ | ⟨hg, -⟩
      · exact hp.completes
      · exact hg.completes
    refine ⟨h', s', hrun', hc, hend, fun c hmem => ?_⟩
    have ha := counted_run hquiet (hrun.append hrun') (forall_mem_append.mpr ⟨honce, hc⟩)
    rcases ha with ⟨⟨_, hp⟩, -⟩ | ⟨hg, hct⟩
    · have hh := hp.lock
      rw [hend.lock] at hh
      cases hh
    · have hd : s'.g.doneBitmask = R.mask := by
        rcases hg.lock with ⟨hh, -⟩ | ⟨-, -, hd⟩
        · rw [hend.lock] at hh
          cases hh
        · exact hd
      exact ((hct c).of_done hg hd hmem).1

/-- A round of two processors, when the second one runs the callback. -/
theorem hokusai_rendezvous_two :
    ∃ (h : List (HokusaiMachine Unit Unit × HokusaiEvent Unit Unit)) (s : HokusaiMachine Unit Unit),
      Run HokusaiStep (boot.acquired 0 3 () none) h s ∧ (s.pc 1).returns = true ∧
        ∃ h' s', Run HokusaiStep s h' s' ∧ (∀ e ∈ h', e.2.Continues) ∧ HokusaiQuiet s' ∧
          ∀ c, cpuBitmaskIsSet 3 c = true → stepsAt HokusaiPc.starts (h ++ h') c = 1 := by
  have hrun₀ : Run HokusaiStep (boot.acquired 0 3 () none : HokusaiMachine Unit Unit)
    [] _ := Run.nil
  obtain ⟨h₁, hrun₁, hc₁⟩ := go_run hrun₀ (replicate 7 0) rfl
  have hrun₂ := hrun₁.snoc (@HokusaiStep.interrupt _ _ _ 1 rfl nofun)
  obtain ⟨h₃, hrun₃, hc₃⟩ := go_run hrun₂ (replicate 7 1) rfl
  refine ⟨_, _, hrun₃, rfl,
    (hokusai_rendezvous hokusaiQuiet_boot (R := ⟨0, 3, (), none⟩) hrun₃ ?_).2.2.2⟩
  intro e he
  rw [mem_append, mem_append, mem_singleton] at he
  rcases he with (he | rfl) | he
  · exact hc₁ e he
  · trivial
  · exact hc₃ e he

end Rendezvous

end Glatt
