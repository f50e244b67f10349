import Glatt.Core.Hokusai

/-!
# The rounds of the Hokusai rendezvous

A round is quiet at its start if no processor is in an earlier one and no interrupt is pending. Then
the masks say exactly which processors are ready and which are done, so that the two wait loops are
barriers.

## Main definitions

* `HokusaiQuiet`: no processor is in a round
* `Going`: what holds in a round

## Main results

* `Going.step`: what holds in a round is kept by every step
-/

namespace Glatt

open Transition Function HokusaiMachine

variable {γ δ : Type} {pc : HokusaiPc γ δ} {callback : Option γ} {initiator : Bool} {p : Option δ}

def Within (m m' : UInt64) : Prop := ∀ c, cpuBitmaskIsSet m c = true → cpuBitmaskIsSet m' c = true

theorem Within.antisymm {m m' : UInt64} (h : Within m m') (h' : Within m' m) : m = m' :=
  cpuBitmask_ext fun c => ⟨h c, h' c⟩

theorem within_set {m : UInt64} {c : CpuId} : Within m (cpuBitmaskSet m c) := by
  intro c' h
  simp [h]

/-! ## What holds in a round -/

/-- A call of `mp_hokusai_synchronize`: the processor, and the arguments. -/
structure Round (γ δ : Type) where
  initiator : CpuId
  target : UInt64
  callback : γ
  p : Option δ

namespace Round

variable (R : Round γ δ)

def mask : UInt64 := cpuBitmaskSet R.target R.initiator

def justwait : Bool := !cpuBitmaskIsSet R.target R.initiator

def own (c : CpuId) : Option γ × Option δ :=
  if c = R.initiator ∧ R.justwait = true then (none, none) else (some R.callback, R.p)

def Prepared (g : HokusaiVars γ δ) : SetupStage → Prop
  | .callback => True
  | .arg => g.callback = some R.callback
  | .clearReady => g.callback = some R.callback ∧ g.arg = R.p
  | .clearDone => g.callback = some R.callback ∧ g.arg = R.p ∧ g.readyBitmask = 0
  | .target =>
    g.callback = some R.callback ∧ g.arg = R.p ∧ g.readyBitmask = 0 ∧ g.doneBitmask = 0
  | .send =>
    g.callback = some R.callback ∧ g.arg = R.p ∧ g.readyBitmask = 0 ∧ g.doneBitmask = 0 ∧
      g.targetBitmask = R.mask

def StageOk (g : HokusaiVars γ δ) (c : CpuId) : BarrierStage → Prop
  | .enter => cpuBitmaskIsSet g.readyBitmask c = false
  | .waitReady =>
    cpuBitmaskIsSet g.readyBitmask c = true ∧ cpuBitmaskIsSet g.doneBitmask c = false
  | .waitReadyTarget ready =>
    cpuBitmaskIsSet g.readyBitmask c = true ∧ cpuBitmaskIsSet g.doneBitmask c = false ∧
      Within ready g.readyBitmask
  | .entered | .calling | .exit =>
    g.readyBitmask = R.mask ∧ cpuBitmaskIsSet g.doneBitmask c = false
  | .waitDone => cpuBitmaskIsSet g.doneBitmask c = true
  | .waitDoneTarget done => cpuBitmaskIsSet g.doneBitmask c = true ∧ Within done g.doneBitmask

def At (g : HokusaiVars γ δ) (c : CpuId) : HokusaiPc γ δ → Prop
  | .idle =>
    g.pending c = 1 ∧ c ≠ R.initiator ∧ cpuBitmaskIsSet g.readyBitmask c = false ∨
      g.pending c = 0 ∧ (cpuBitmaskIsSet R.mask c = false ∨ g.doneBitmask = R.mask)
  | .setup .. => False
  | .testing =>
    g.pending c = 0 ∧ c ≠ R.initiator ∧ cpuBitmaskIsSet g.readyBitmask c = false
  | .loading =>
    g.pending c = 0 ∧ c ≠ R.initiator ∧ cpuBitmaskIsSet g.readyBitmask c = false ∧
      cpuBitmaskIsSet R.mask c = true
  | .loadingArg callback =>
    g.pending c = 0 ∧ c ≠ R.initiator ∧ cpuBitmaskIsSet g.readyBitmask c = false ∧
      cpuBitmaskIsSet R.mask c = true ∧ callback = some R.callback
  | .inside initiator callback p stage =>
    g.pending c = 0 ∧ cpuBitmaskIsSet R.mask c = true ∧ (initiator = true ↔ c = R.initiator) ∧
      (callback, p) = R.own c ∧ R.StageOk g c stage
  | .finish _ => g.pending c = 0 ∧ c = R.initiator ∧ g.doneBitmask = R.mask

end Round

/-- No processor is in a round, and no interrupt is pending. -/
structure HokusaiQuiet (s : HokusaiMachine γ δ) : Prop where
  lock : s.g.lock = none
  idle : ∀ c, s.pc c = .idle
  pending : ∀ c, s.g.pending c = 0

structure Preparing (R : Round γ δ) (s : HokusaiMachine γ δ) (stage : SetupStage) : Prop where
  lock : s.g.lock = some R.initiator
  pc : s.pc R.initiator = .setup stage R.mask R.callback R.p R.justwait
  idle : ∀ c, c ≠ R.initiator → s.pc c = .idle
  pending : ∀ c, s.g.pending c = 0
  prepared : R.Prepared s.g stage

/-- **The round goes on**: the target mask is that of the round; only its processors are ready or
done, and done only if all are ready; the callback is stored until all are done; the initiator has
the lock until it returns; and every processor is where its bits say. -/
structure Going (R : Round γ δ) (s : HokusaiMachine γ δ) : Prop where
  target : s.g.targetBitmask = R.mask
  ready : Within s.g.readyBitmask R.mask
  done : Within s.g.doneBitmask R.mask
  all_ready : ∀ c, cpuBitmaskIsSet s.g.doneBitmask c = true → s.g.readyBitmask = R.mask
  stored : s.g.doneBitmask ≠ R.mask → s.g.callback = some R.callback ∧ s.g.arg = R.p
  lock : s.g.lock = some R.initiator ∧ s.pc R.initiator ≠ .idle ∨
    s.g.lock = none ∧ s.pc R.initiator = .idle ∧ s.g.doneBitmask = R.mask
  place : ∀ c, R.At s.g c (s.pc c)

section Steps

variable {R : Round γ δ} {s s' : HokusaiMachine γ δ} {e : HokusaiEvent γ δ} {c : CpuId}

theorem Round.initiator_mem (R : Round γ δ) : cpuBitmaskIsSet R.mask R.initiator = true := by
  simp [mask]

theorem Going.not_done (h : Going R s) (hmem : cpuBitmaskIsSet R.mask c = true)
    (hr : cpuBitmaskIsSet s.g.readyBitmask c = false) : s.g.doneBitmask ≠ R.mask := by
  intro hd
  have ha := h.all_ready c (by rw [hd, hmem])
  rw [ha, hmem] at hr
  cases hr

theorem Round.At.mono {g g' : HokusaiVars γ δ} (h : R.At g c pc) (hpn : g'.pending c = g.pending c)
    (hr : cpuBitmaskIsSet g'.readyBitmask c = cpuBitmaskIsSet g.readyBitmask c)
    (hd : cpuBitmaskIsSet g'.doneBitmask c = cpuBitmaskIsSet g.doneBitmask c)
    (hrd : Within g.readyBitmask g'.readyBitmask) (hrd' : Within g'.readyBitmask R.mask)
    (hdn : Within g.doneBitmask g'.doneBitmask) (hdn' : Within g'.doneBitmask R.mask) :
    R.At g' c pc := by
  have hal : g.readyBitmask = R.mask → g'.readyBitmask = R.mask := fun heq =>
    hrd'.antisymm (heq ▸ hrd)
  have ha : g.doneBitmask = R.mask → g'.doneBitmask = R.mask := fun heq =>
    hdn'.antisymm (heq ▸ hdn)
  have hw : ∀ {a b d : UInt64}, Within a b → Within b d → Within a d :=
    fun hab hb c hc => hb c (hab c hc)
  cases pc with
  | idle =>
    simp only [At, hpn, hr]
    exact h.imp_right (And.imp_right (Or.imp_right ha))
  | setup => exact h
  | testing | loading | loadingArg => simpa only [At, hpn, hr] using h
  | inside initiator callback p stage =>
    obtain ⟨hp, hmem, hin, ho, hs⟩ := h
    refine ⟨hpn.trans hp, hmem, hin, ho, ?_⟩
    cases stage with
    | enter => exact hr.trans hs
    | waitReady => exact ⟨hr.trans hs.1, hd.trans hs.2⟩
    | waitReadyTarget =>
      exact ⟨hr.trans hs.1, hd.trans hs.2.1, hw hs.2.2 hrd⟩
    | entered | calling | exit => exact ⟨hal hs.1, hd.trans hs.2⟩
    | waitDone => exact hd.trans hs
    | waitDoneTarget => exact ⟨hd.trans hs.1, hw hs.2 hdn⟩
  | finish => exact ⟨hpn.trans h.1, h.2.1, ha h.2.2⟩

section

variable (h : Going R s)
include h

theorem Going.lock_update (hin : s.pc c ≠ .idle) (hs : c = R.initiator → pc ≠ .idle) :
    s.g.lock = some R.initiator ∧ update s.pc c pc R.initiator ≠ .idle ∨
      s.g.lock = none ∧ update s.pc c pc R.initiator = .idle ∧ s.g.doneBitmask = R.mask := by
  by_cases hc : c = R.initiator
  · refine h.lock.imp (fun ⟨hh, _⟩ => ⟨hh, ?_⟩) fun ⟨_, hpc, _⟩ => absurd (hc ▸ hpc) hin
    rw [← hc, update_self]
    exact hs hc
  · simpa [update_of_ne (symm hc)] using h.lock

theorem Going.move (hin : s.pc c ≠ .idle) (hs : c = R.initiator → pc ≠ .idle) (ha : R.At s.g c pc) :
    Going R ⟨s.g, update s.pc c pc⟩ where
  target := h.target
  ready := h.ready
  done := h.done
  all_ready := h.all_ready
  stored := h.stored
  lock := h.lock_update hin hs
  place c' := by
    by_cases hc : c' = c
    · subst hc
      simpa using ha
    · simpa [hc] using h.place c'

theorem Going.interrupt (hid : s.pc c = .idle) (hp : s.g.pending c ≠ 0) :
    Going R (s.interrupted c) := by
  have ha := h.place c
  rw [hid] at ha
  obtain ⟨ho, hne, hr⟩ : s.g.pending c = 1 ∧ c ≠ R.initiator ∧
      cpuBitmaskIsSet s.g.readyBitmask c = false := by
    rcases ha with ha | ha
    · exact ha
    · exact absurd ha.1 hp
  rw [interrupted]
  refine ⟨h.target, h.ready, h.done, h.all_ready, h.stored, ?_, fun c' => ?_⟩
  · simpa [update_of_ne hne.symm] using h.lock
  · by_cases hc : c' = c
    · subst hc
      simp [Round.At, ho, hne, hr]
    · simp only [update_of_ne hc]
      exact (h.place c').mono (update_of_ne hc ..) rfl rfl (fun _ => id) h.ready
        (fun _ => id) h.done

theorem Going.enter (hpc : s.pc c = .inside initiator callback p .enter) :
    Going R ⟨{ s.g with readyBitmask := cpuBitmaskSet s.g.readyBitmask c },
      update s.pc c (.inside initiator callback p .waitReady)⟩ := by
  have ha := h.place c
  rw [hpc] at ha
  obtain ⟨hp, hmem, hin, ho, hr⟩ := ha
  have hn : ∀ c', cpuBitmaskIsSet s.g.doneBitmask c' = false := by
    -- nobody is done before all are ready
    intro c'
    rw [Bool.eq_false_iff]
    intro hd
    rw [Round.StageOk, h.all_ready c' hd, hmem] at hr
    cases hr
  have hw : Within (cpuBitmaskSet s.g.readyBitmask c) R.mask := by
    intro c' hc'
    rw [cpuBitmaskIsSet_set, Bool.or_eq_true, decide_eq_true_eq] at hc'
    rcases hc' with rfl | hc'
    · exact hmem
    · exact h.ready c' hc'
  refine ⟨h.target, hw, h.done, fun c' hc' => ?_, h.stored, ?_, fun c' => ?_⟩
  · rw [hn c'] at hc'
    cases hc'
  · exact h.lock_update (by rw [hpc]; nofun) nofun
  · by_cases hc : c' = c
    · subst hc
      simp only [update_self]
      exact ⟨hp, hmem, hin, ho, by simp, hn c'⟩
    · simp only [update_of_ne hc]
      exact (h.place c').mono rfl (by simp [hc]) rfl within_set hw (fun _ => id) h.done

theorem Going.exit (hpc : s.pc c = .inside initiator callback p .exit) :
    Going R ⟨{ s.g with doneBitmask := cpuBitmaskSet s.g.doneBitmask c },
      update s.pc c (.inside initiator callback p .waitDone)⟩ := by
  have ha := h.place c
  rw [hpc] at ha
  obtain ⟨hp, hmem, hit, ho, hr, hd⟩ := ha
  have hw : Within (cpuBitmaskSet s.g.doneBitmask c) R.mask := by
    intro c' hc'
    rw [cpuBitmaskIsSet_set, Bool.or_eq_true, decide_eq_true_eq] at hc'
    rcases hc' with rfl | hc'
    · exact hmem
    · exact h.done c' hc'
  have hb : s.g.doneBitmask ≠ R.mask := by
    intro heq
    rw [heq, hmem] at hd
    cases hd
  refine ⟨h.target, h.ready, hw, fun _ _ => hr, fun _ => h.stored hb, ?_, fun c' => ?_⟩
  · have hin : s.pc c ≠ .idle := by
      rw [hpc]
      nofun
    have hl := h.lock_update hin fun _ =>
      (nofun : HokusaiPc.inside initiator callback p .waitDone ≠ .idle)
    exact hl.imp_right fun ⟨_, _, heq⟩ => absurd heq hb
  · by_cases hc : c' = c
    · subst hc
      simp only [update_self]
      exact ⟨hp, hmem, hit, ho, by simp [Round.StageOk]⟩
    · simp only [update_of_ne hc]
      exact (h.place c').mono rfl rfl (by simp [hc]) (fun _ => id) h.ready within_set hw

theorem Going.finish {stage : FinishStage} (hpc : s.pc c = .finish stage) :
    Going R ⟨(finishAdvance s.g stage).1, update s.pc c (finishAdvance s.g stage).2⟩ := by
  have ha := h.place c
  rw [hpc] at ha
  obtain ⟨hpn, rfl, hdn⟩ := ha
  have hl : s.g.lock = some R.initiator := by
    rcases h.lock with hl | ⟨-, hid, -⟩
    · exact hl.1
    · rw [hpc] at hid
      cases hid
  have hpl : ∀ (g : HokusaiVars γ δ) (pc : HokusaiPc γ δ), g.pending = s.g.pending →
      g.readyBitmask = s.g.readyBitmask → g.doneBitmask = s.g.doneBitmask →
      R.At g R.initiator pc → ∀ c', R.At g c' (update s.pc R.initiator pc c') := by
    intro g pc hp hr hd ha c'
    by_cases hc : c' = R.initiator
    · rw [hc, update_self]
      exact ha
    · rw [update_of_ne hc]
      refine (h.place c').mono (by rw [hp]) (by rw [hr]) (by rw [hd]) ?_ ?_ ?_ ?_
      · exact fun _ hb => hr ▸ hb
      · exact hr ▸ h.ready
      · exact fun _ hb => hd ▸ hb
      · exact hd ▸ h.done
  cases stage with
  | callback | arg =>
    exact ⟨h.target, h.ready, h.done, h.all_ready, fun hne => absurd hdn hne,
      .inl ⟨hl, by simp [finishAdvance]⟩, hpl _ _ rfl rfl rfl ⟨hpn, rfl, hdn⟩⟩
  | unlock =>
    exact ⟨h.target, h.ready, h.done, h.all_ready, fun hne => absurd hdn hne,
      .inr ⟨rfl, update_self .., hdn⟩,
      hpl _ _ rfl rfl rfl (.inr ⟨hpn, .inr hdn⟩)⟩

theorem Going.barrier {stage : BarrierStage} (hpc : s.pc c = .inside initiator callback p stage) :
    Going R ⟨(barrierAdvance c s.g initiator callback p stage).1,
      update s.pc c (barrierAdvance c s.g initiator callback p stage).2⟩ := by
  have hin : s.pc c ≠ .idle := by
    rw [hpc]
    nofun
  have ha := h.place c
  rw [hpc] at ha
  obtain ⟨hp, hmem, hit, ho, hs⟩ := ha
  cases stage with
  | enter => exact h.enter hpc
  | waitReady =>
    exact h.move hin nofun ⟨hp, hmem, hit, ho, hs.1, hs.2, fun _ => id⟩
  | waitReadyTarget ready =>
    refine h.move hin nofun ⟨hp, hmem, hit, ho, ?_⟩
    split
    · -- the mask that was read has all processors, and bits are only added
      rename_i heq
      refine ⟨h.ready.antisymm ?_, hs.2.1⟩
      rw [← h.target, ← heq]
      exact hs.2.2
    · exact ⟨hs.1, hs.2.1⟩
  | entered =>
    refine h.move hin nofun ⟨hp, hmem, hit, ho, ?_⟩
    split <;> exact hs
  | calling => exact h.move hin nofun ⟨hp, hmem, hit, ho, hs⟩
  | exit => exact h.exit hpc
  | waitDone => exact h.move hin nofun ⟨hp, hmem, hit, ho, hs, fun _ => id⟩
  | waitDoneTarget done =>
    refine h.move hin ?_ ?_
    · intro hc
      rw [barrierAdvance, if_pos (hit.mpr hc)]
      split <;> nofun
    rw [barrierAdvance]
    split
    · rename_i heq
      have hd : s.g.doneBitmask = R.mask := by
        refine h.done.antisymm ?_
        rw [← h.target, ← heq]
        exact hs.2
      split
      · exact ⟨hp, hit.mp ‹_›, hd⟩
      · exact .inr ⟨hp, .inr hd⟩
    · exact ⟨hp, hmem, hit, ho, hs.1⟩

theorem Going.run (hin : s.pc c ≠ .idle) : Going R (s.next c) := by
  have hat := h.place c
  rw [next]
  cases hpc : s.pc c with
  | idle => exact absurd hpc hin
  | setup =>
    rw [hpc] at hat
    exact hat.elim
  | testing =>
    rw [hpc] at hat
    refine h.move hin (fun hc => absurd hc hat.2.1) ?_
    rw [hokusaiAdvance, h.target]
    split
    · exact ⟨hat.1, hat.2.1, hat.2.2, ‹_›⟩
    · exact .inr ⟨hat.1, .inl (Bool.eq_false_iff.mpr ‹_›)⟩
  | loading =>
    rw [hpc] at hat
    obtain ⟨hp, hne, hr, hmem⟩ := hat
    have hs := h.stored (h.not_done hmem hr)
    exact h.move hin nofun ⟨hp, hne, hr, hmem, hs.1⟩
  | loadingArg callback =>
    rw [hpc] at hat
    obtain ⟨hp, hne, hr, hmem, hcl⟩ := hat
    have hs := h.stored (h.not_done hmem hr)
    refine h.move hin nofun ⟨hp, hmem, by simp [hne], ?_, hr⟩
    rw [Round.own, if_neg fun ha => hne ha.1, hcl, hs.2]
  | inside => exact h.barrier hpc
  | finish => exact h.finish hpc

end

theorem HokusaiQuiet.acquired (h : HokusaiQuiet s) (R : Round γ δ) :
    Preparing R (s.acquired R.initiator R.target R.callback R.p) .callback where
  lock := rfl
  pc := update_self ..
  idle c hc := (update_of_ne hc ..).trans (h.idle c)
  pending := h.pending
  prepared := trivial

theorem Preparing.send (h : Preparing R s .send) : Going R (s.next R.initiator) := by
  obtain ⟨hcl, ha, hr, hd, ht⟩ := h.prepared
  rw [next, h.pc, hokusaiAdvance, setupAdvance]
  refine ⟨ht, fun c hc => ?_, fun c hc => ?_, fun c hc => ?_, fun _ => ⟨hcl, ha⟩,
    .inl ⟨h.lock, ?_⟩, fun c => ?_⟩
  · simp [hr] at hc
  · simp [hd] at hc
  · simp [hd] at hc
  · simp only [update_self]
    split <;> nofun
  · by_cases hc : c = R.initiator
    · subst hc
      simp only [update_self]
      split
      · refine ⟨?_, R.initiator_mem, by simp, ?_, ?_⟩
        · simp [h.pending]
        · rw [Round.own, if_pos ⟨rfl, ‹_›⟩]
        · simp [Round.StageOk, hr]
      · refine ⟨?_, R.initiator_mem, by simp, ?_, ?_⟩
        · simp [h.pending]
        · rw [Round.own, if_neg fun hand => ‹¬ _› hand.2]
        · simp [Round.StageOk, hr]
    · simp only [update_of_ne hc, h.idle c hc]
      exact .inl ⟨by simp [hc, h.pending], hc, by simp [hr]⟩

def SetupStage.next : SetupStage → SetupStage
  | .callback => .arg
  | .arg => .clearReady
  | .clearReady => .clearDone
  | .clearDone => .target
  | .target => .send
  | .send => .send

theorem Preparing.advance {stage : SetupStage} (h : Preparing R s stage) (hs : stage ≠ .send) :
    Preparing R (s.next R.initiator) stage.next := by
  have hp := h.prepared
  rw [next, h.pc]
  have hid : ∀ (pc : HokusaiPc γ δ) (c : CpuId), c ≠ R.initiator →
      update s.pc R.initiator pc c = .idle := fun pc c hc =>
    (update_of_ne hc ..).trans (h.idle c hc)
  cases stage with
  | callback => exact ⟨h.lock, update_self .., hid _, h.pending, rfl⟩
  | arg => exact ⟨h.lock, update_self .., hid _, h.pending, hp, rfl⟩
  | clearReady =>
    exact ⟨h.lock, update_self .., hid _, h.pending, hp.1, hp.2, rfl⟩
  | clearDone =>
    exact ⟨h.lock, update_self .., hid _, h.pending, hp.1, hp.2.1, hp.2.2, rfl⟩
  | target =>
    exact ⟨h.lock, update_self .., hid _, h.pending, hp.1, hp.2.1, hp.2.2.1, hp.2.2.2, rfl⟩
  | send => exact absurd rfl hs

def InRound (R : Round γ δ) (s : HokusaiMachine γ δ) : Prop :=
  (∃ stage, Preparing R s stage) ∨ Going R s

def HokusaiEvent.Continues : HokusaiEvent γ δ → Prop
  | .acquire .. => False
  | _ => True

theorem InRound.step (h : InRound R s) (hs : HokusaiStep s e s') (he : e.Continues) :
    InRound R s' := by
  rcases h with ⟨stage, h⟩ | h
  · cases hs with
    | acquire => exact he.elim
    | interrupt _ hp => exact absurd (h.pending _) hp
    | @run cpu hin =>
      -- only the initiator is in the round
      obtain rfl : cpu = R.initiator := by
        by_contra hne
        exact hin (h.idle cpu hne)
      by_cases hst : stage = .send
      · subst hst
        exact .inr h.send
      · exact .inl ⟨_, h.advance hst⟩
  · cases hs with
    | acquire => exact he.elim
    | interrupt hid hp => exact .inr (h.interrupt hid hp)
    | run hin => exact .inr (h.run hin)

end Steps

/-! ## Running processors -/

def HokusaiMachine.boot : HokusaiMachine γ δ :=
  ⟨⟨0, 0, 0, none, none, none, fun _ => 0⟩, fun _ => .idle⟩

theorem hokusaiQuiet_boot : HokusaiQuiet (boot : HokusaiMachine γ δ) :=
  ⟨rfl, fun _ => rfl, fun _ => rfl⟩

def HokusaiPc.isIdle : HokusaiPc γ δ → Bool
  | .idle => true
  | _ => false

def HokusaiMachine.move (s : HokusaiMachine γ δ) (c : CpuId) : HokusaiMachine γ δ :=
  if (s.pc c).isIdle then s.interrupted c else s.next c

def HokusaiMachine.go (s : HokusaiMachine γ δ) : List CpuId → HokusaiMachine γ δ
  | [] => s
  | c :: cs => (s.move c).go cs

/-- Each processor of the list is in a round when its turn comes, or an interrupt is pending. -/
def HokusaiMachine.canGo (s : HokusaiMachine γ δ) : List CpuId → Bool
  | [] => true
  | c :: cs => (!(s.pc c).isIdle || s.g.pending c != 0) && (s.move c).canGo cs

theorem HokusaiPc.isIdle_iff {pc : HokusaiPc γ δ} : pc.isIdle = true ↔ pc = .idle := by
  cases pc <;> simp [isIdle]

theorem HokusaiMachine.exists_move_step {s : HokusaiMachine γ δ} {c : CpuId}
    (hc : (!(s.pc c).isIdle || s.g.pending c != 0) = true) :
    ∃ e, HokusaiStep s e (s.move c) ∧ e.Continues := by
  by_cases hid : s.pc c = .idle
  · refine ⟨.interrupt c, ?_, trivial⟩
    rw [move, if_pos (HokusaiPc.isIdle_iff.mpr hid)]
    refine .interrupt hid fun hz => ?_
    rw [hid, hz] at hc
    cases hc
  · refine ⟨.run c, ?_, trivial⟩
    rw [move, if_neg (HokusaiPc.isIdle_iff.not.mpr hid)]
    exact .run hid

theorem HokusaiMachine.go_run {s₀ s : HokusaiMachine γ δ}
    {h : List (HokusaiMachine γ δ × HokusaiEvent γ δ)} (hrun : Run HokusaiStep s₀ h s)
    (cs : List CpuId) (hc : s.canGo cs = true) :
    ∃ h', Run HokusaiStep s₀ (h ++ h') (s.go cs) ∧ ∀ p ∈ h', p.2.Continues := by
  induction cs generalizing s h with
  | nil => exact ⟨[], by simpa [go] using hrun, nofun⟩
  | cons c cs ih =>
    rw [canGo, Bool.and_eq_true] at hc
    obtain ⟨e, hst, he⟩ := exists_move_step hc.1
    obtain ⟨h', hrun', ha⟩ := ih (hrun.snoc hst) hc.2
    refine ⟨(s, e) :: h', by simpa [go] using hrun', fun p hp => ?_⟩
    rcases List.mem_cons.mp hp with rfl | hp
    · exact he
    · exact ha p hp

theorem HokusaiMachine.go_pc {s : HokusaiMachine γ δ} {cs : List CpuId} {c : CpuId}
    (hc : c ∉ cs) : (s.go cs).pc c = s.pc c := by
  induction cs generalizing s with
  | nil => rfl
  | cons c' cs ih =>
    rw [List.mem_cons, not_or] at hc
    rw [go, ih hc.2, move]
    split
    · exact interrupted_pc_of_ne hc.1
    · exact next_pc_of_ne hc.1

end Glatt
