import Glatt.Core.HokusaiRound

/-!
# Reuse of the Hokusai masks

The initiator of a round returns as soon as it has read that all are done. Another processor may
then still be in the wait loop of `mp_hokusai_exit`, and the next round resets the masks that it
waits on.

## Main definitions

* `Settled`: no processor waits on a mask, and no interrupt is pending

## Main results

* `hokusai_reset_safe`: settled rounds reset the masks only when no processor waits on them
* `masks_reset_under_waiter`: two rounds in a row strand a processor
-/

namespace Glatt

open Transition Function List HokusaiMachine

variable {γ δ : Type}

section Steps

variable {R : Round γ δ} {s s' : HokusaiMachine γ δ} {e : HokusaiEvent γ δ} {c : CpuId}

/-- The next step is a store of `mp_hokusai_clear` or that of a new target mask. -/
def HokusaiPc.resets : HokusaiPc γ δ → Bool
  | .setup .clearReady .. => true
  | .setup .clearDone .. => true
  | .setup .target .. => true
  | _ => false

/-- A call that gets the lock finds that all interrupts sent before have been taken and have tested
the target mask, and that no processor is still in the wait loop of `mp_hokusai_exit`. -/
def Settled (s : HokusaiMachine γ δ) : HokusaiEvent γ δ → Prop
  | .acquire .. => ∀ c, s.g.pending c = 0 ∧ s.pc c ≠ .testing ∧ (s.pc c).waitsDone = false
  | _ => True

theorem settled_of_continues (he : e.Continues) : Settled s e := by
  cases e with
  | acquire => exact he.elim
  | interrupt | run => trivial

theorem Going.quiet (h : Going R s) (hl : s.g.lock = none)
    (hst : ∀ c, s.g.pending c = 0 ∧ s.pc c ≠ .testing ∧ (s.pc c).waitsDone = false) :
    HokusaiQuiet s := by
  obtain ⟨hid, hd⟩ : s.pc R.initiator = .idle ∧ s.g.doneBitmask = R.mask := by
    rcases h.lock with ⟨hh, -⟩ | ⟨-, hid, hd⟩
    · rw [hl] at hh
      cases hh
    · exact ⟨hid, hd⟩
  refine ⟨hl, fun c => ?_, fun c => (hst c).1⟩
  obtain ⟨-, ht, hw⟩ := hst c
  have ha := h.place c
  cases hpc : s.pc c with
  | idle => rfl
  | setup =>
    rw [hpc] at ha
    exact ha.elim
  | testing => exact absurd hpc ht
  | loading =>
    rw [hpc] at ha
    exact absurd hd (h.not_done ha.2.2.2 ha.2.2.1)
  | loadingArg =>
    rw [hpc] at ha
    exact absurd hd (h.not_done ha.2.2.2.1 ha.2.2.1)
  | inside initiator callback p stage =>
    rw [hpc] at ha hw
    obtain ⟨-, hmem, -, -, hs⟩ := ha
    have hb : cpuBitmaskIsSet s.g.doneBitmask c = true := by rw [hd, hmem]
    -- the bit of the processor is set only in the wait loop
    cases stage with
    | enter => exact absurd hd (h.not_done hmem hs)
    | waitReady => exact absurd hb (by simp [hs.2])
    | waitReadyTarget => exact absurd hb (by simp [hs.2.1])
    | entered | calling | exit => exact absurd hb (by simp [hs.2])
    | waitDone | waitDoneTarget => cases hw
  | finish =>
    rw [hpc] at ha
    rw [ha.2.1, hid] at hpc
    cases hpc

def InRounds (s : HokusaiMachine γ δ) : Prop := HokusaiQuiet s ∨ ∃ R, InRound R s

theorem InRounds.step (h : InRounds s) (hst : Settled s e) (hs : HokusaiStep s e s') :
    InRounds s' := by
  by_cases he : e.Continues
  · rcases h with h | ⟨R, h⟩
    · cases hs with
      | acquire => exact he.elim
      | interrupt _ hp => exact absurd (h.pending _) hp
      | run hin => exact absurd (h.idle _) hin
    · exact .inr ⟨R, h.step hs he⟩
  · cases hs with
    | @acquire cpu target callback p _ hl =>
      have hq : HokusaiQuiet s := by
        rcases h with h | ⟨R, ⟨_, h⟩ | h⟩
        · exact h
        · rw [h.lock] at hl
          cases hl
        · exact h.quiet hl hst
      exact .inr ⟨⟨cpu, target, callback, p⟩, .inl ⟨_, hq.acquired ⟨cpu, target, callback, p⟩⟩⟩
    | interrupt | run => exact absurd trivial he

theorem InRounds.not_waits (h : InRounds s) (hr : (s.pc c).resets = true)
    (c' : CpuId) : (s.pc c').waits = false := by
  rcases h with h | ⟨R, ⟨stage, h⟩ | h⟩
  · rw [h.idle]
    rfl
  · by_cases hc' : c' = R.initiator
    · rw [hc', h.pc]
      rfl
    · rw [h.idle c' hc']
      rfl
  · have ha := h.place c
    cases hpc : s.pc c with
    | setup =>
      rw [hpc] at ha
      exact ha.elim
    | _ =>
      rw [hpc] at hr
      cases hr

variable {s₀ : HokusaiMachine γ δ} {h : List (HokusaiMachine γ δ × HokusaiEvent γ δ)}

/-- **Masks are not reset under a waiting processor.** In a run from a quiet state in which every
round begins settled, `mp_hokusai_clear` and the store of a new target mask are executed only when
no processor is in the wait loop of `mp_hokusai_enter` or `mp_hokusai_exit`. -/
theorem hokusai_reset_safe (hquiet : HokusaiQuiet s₀) (hrun : Run HokusaiStep s₀ h s)
    (hsettled : ∀ p ∈ h, Settled p.1 p.2) {s₁ : HokusaiMachine γ δ} (hmem : (s₁, .run c) ∈ h)
    (hresets : (s₁.pc c).resets = true) (c' : CpuId) : (s₁.pc c').waits = false := by
  obtain ⟨h₁, h₂, -, rfl, hrun₁, -⟩ := hrun.step_of_mem hmem
  have hr : InRounds s₁ :=
    Run.invariant_of_forall (.inl hquiet) (fun _ _ _ hin hset hs => hin.step hset hs) hrun₁
      fun p hp => hsettled p (mem_append_left _ hp)
  exact hr.not_waits hresets c'

end Steps

/-! ## Two rounds in a row -/

/-- The first processor has returned from a round with the second one, which is still in
`mp_hokusai_exit`. -/
def HokusaiMachine.returned : HokusaiMachine Unit Unit :=
  (boot.acquired 0 3 () none).go (replicate 7 0 ++ replicate 10 1 ++ replicate 10 0)

theorem returned_run : ∃ h, Run HokusaiStep boot h returned ∧ ∀ p ∈ h, Settled p.1 p.2 := by
  have h₁ : Run HokusaiStep (boot : HokusaiMachine Unit Unit) _ _ :=
    Run.nil.snoc (@HokusaiStep.acquire _ _ _ 0 3 () none rfl rfl)
  -- the first processor sets its bit, the second one waits in its exit, and the first one leaves
  obtain ⟨h₂, hrun₂, hc₂⟩ := go_run h₁ (replicate 7 0 ++ replicate 10 1 ++ replicate 10 0) rfl
  refine ⟨_, hrun₂, fun p hp => ?_⟩
  rcases mem_append.mp hp with hp | hp
  · obtain rfl := mem_singleton.mp hp
    exact fun _ => ⟨rfl, nofun, rfl⟩
  · exact settled_of_continues (hc₂ p hp)

/-- The second processor leaves as well, and the others take their interrupts, which are not for
them. -/
def HokusaiMachine.settled : HokusaiMachine Unit Unit :=
  returned.go ([1, 1] ++ ((finRange 64).drop 2).flatMap fun c => [c, c])

/-- The second round begins when the second processor has left the first one. -/
theorem hokusai_reset_safe_second :
    ∃ (h : List (HokusaiMachine Unit Unit × HokusaiEvent Unit Unit))
      (s s₁ : HokusaiMachine Unit Unit), Run HokusaiStep boot h s ∧ (∀ p ∈ h, Settled p.1 p.2) ∧
        (settled, .acquire 0 3 () none) ∈ h ∧ (s₁, .run 0) ∈ h ∧
        (s₁.pc 0).resets = true ∧ (s₁.pc 1).waits = false := by
  obtain ⟨h₁, hrun₁, hs₁⟩ := returned_run
  obtain ⟨h₂, hrun₂, hc₂⟩ : ∃ h₂, Run HokusaiStep boot (h₁ ++ h₂) settled ∧
      ∀ p ∈ h₂, p.2.Continues := go_run hrun₁ _ (by decide +kernel)
  have hq : ∀ c, settled.g.pending c = 0 ∧ (settled.pc c).isIdle = true := by decide +kernel
  have hset : Settled settled (.acquire 0 3 () none) := fun c => by
    rw [HokusaiPc.isIdle_iff.mp (hq c).2]
    exact ⟨(hq c).1, nofun, rfl⟩
  have hlock : settled.g.lock = none := by decide +kernel
  have h₃ := hrun₂.snoc (@HokusaiStep.acquire _ _ settled 0 3 () none
    (HokusaiPc.isIdle_iff.mp (hq 0).2) hlock)
  let s₁ : HokusaiMachine Unit Unit := (settled.acquired 0 3 () none).go [0, 0]
  obtain ⟨h₄, hrun₄, hc₄⟩ : ∃ h₄, Run HokusaiStep boot (h₁ ++ h₂ ++ _ ++ h₄) s₁ ∧
      ∀ p ∈ h₄, p.2.Continues := go_run h₃ [0, 0] (by decide +kernel)
  have hres : (s₁.pc 0).resets = true := by decide +kernel
  have hrun := hrun₄.snoc (@HokusaiStep.run _ _ s₁ 0 fun hid => by
    rw [hid] at hres
    cases hres)
  have hs : ∀ p ∈ h₁ ++ h₂ ++ [(settled, .acquire 0 3 () none)] ++ h₄ ++ [(s₁, .run 0)],
      Settled p.1 p.2 := by
    intro p hp
    simp only [mem_append, mem_singleton] at hp
    rcases hp with (((hp | hp) | hp) | hp) | hp
    · exact hs₁ p hp
    · exact settled_of_continues (hc₂ p hp)
    · rw [hp]
      dsimp only
      exact hset
    · exact settled_of_continues (hc₄ p hp)
    · rw [hp]
      exact True.intro
  have hmem : (s₁, .run 0) ∈ h₁ ++ h₂ ++ [(settled, .acquire 0 3 () none)] ++ h₄ ++
      [(s₁, .run 0)] := mem_append_right _ mem_cons_self
  refine ⟨_, _, s₁, hrun, hs, ?_, hmem, hres,
    hokusai_reset_safe hokusaiQuiet_boot hrun hs hmem hres 1⟩
  simp

/-- The first processor waits in `mp_hokusai_enter` for the second one, which is still in
`mp_hokusai_exit` and waits for the first one. -/
structure Stranded (s : HokusaiMachine Unit Unit) : Prop where
  lock : s.g.lock = some 0
  ready : s.g.readyBitmask = 1
  done : s.g.doneBitmask = 0
  target : s.g.targetBitmask = 3
  first : ∃ i f p, s.pc 0 = .inside i f p .waitReady ∨ s.pc 0 = .inside i f p (.waitReadyTarget 1)
  second : ∃ i f p, s.pc 1 = .inside i f p .waitDone ∨ s.pc 1 = .inside i f p (.waitDoneTarget 0)
  others : ∀ c, c ≠ 0 → c ≠ 1 → s.pc c = .idle ∨ s.pc c = .testing

theorem Stranded.waits {s : HokusaiMachine Unit Unit} (h : Stranded s) :
    (s.pc 0).waits = true ∧ (s.pc 1).waits = true := by
  obtain ⟨i, f, p, hpc | hpc⟩ := h.first
  all_goals
    obtain ⟨i', f', p', hpc' | hpc'⟩ := h.second
    all_goals
      rw [hpc, hpc']
      exact ⟨rfl, rfl⟩

theorem Stranded.step {s s' : HokusaiMachine Unit Unit} {e : HokusaiEvent Unit Unit}
    (h : Stranded s) (hs : HokusaiStep s e s') : Stranded s' := by
  cases hs with
  | acquire _ hl =>
    rw [h.lock] at hl
    cases hl
  | @interrupt cpu hid _ =>
    obtain ⟨hne, hne'⟩ : cpu ≠ 0 ∧ cpu ≠ 1 := by
      constructor
      · rintro rfl
        have hw := h.waits.1
        rw [hid] at hw
        cases hw
      · rintro rfl
        have hw := h.waits.2
        rw [hid] at hw
        cases hw
    rw [interrupted]
    refine ⟨h.lock, h.ready, h.done, h.target, ?_, ?_, fun c hc hc' => ?_⟩
    · simpa [update_of_ne hne.symm] using h.first
    · simpa [update_of_ne hne'.symm] using h.second
    · by_cases heq : c = cpu
      · simp [heq]
      · simpa [update_of_ne heq] using h.others c hc hc'
  | @run cpu hin =>
    by_cases h0 : cpu = 0
    · subst h0
      obtain ⟨i, f, p, hpc⟩ := h.first
      have hn : ∃ stage, s.next 0 = ⟨s.g, update s.pc 0 (.inside i f p stage)⟩ ∧
          (stage = .waitReady ∨ stage = .waitReadyTarget 1) := by
        rcases hpc with hpc | hpc
        · refine ⟨.waitReadyTarget 1, ?_, .inr rfl⟩
          rw [HokusaiMachine.next, hpc, hokusaiAdvance, barrierAdvance, h.ready]
        · refine ⟨.waitReady, ?_, .inl rfl⟩
          rw [HokusaiMachine.next, hpc, hokusaiAdvance, barrierAdvance, h.target]
          rfl
      obtain ⟨stage, hn, hst⟩ := hn
      rw [hn]
      refine ⟨h.lock, h.ready, h.done, h.target, ⟨i, f, p, ?_⟩, h.second, fun c hc hc' => ?_⟩
      · rcases hst with rfl | rfl <;> simp
      · simpa [update_of_ne hc] using h.others c hc hc'
    by_cases h1 : cpu = 1
    · subst h1
      obtain ⟨i, f, p, hpc⟩ := h.second
      have hn : ∃ stage, s.next 1 = ⟨s.g, update s.pc 1 (.inside i f p stage)⟩ ∧
          (stage = .waitDone ∨ stage = .waitDoneTarget 0) := by
        rcases hpc with hpc | hpc
        · refine ⟨.waitDoneTarget 0, ?_, .inr rfl⟩
          rw [HokusaiMachine.next, hpc, hokusaiAdvance, barrierAdvance, h.done]
        · refine ⟨.waitDone, ?_, .inl rfl⟩
          rw [HokusaiMachine.next, hpc, hokusaiAdvance, barrierAdvance, h.target]
          rfl
      obtain ⟨stage, hn, hst⟩ := hn
      rw [hn]
      refine ⟨h.lock, h.ready, h.done, h.target, h.first, ⟨i, f, p, ?_⟩, fun c hc hc' => ?_⟩
      · rcases hst with rfl | rfl <;> simp
      · simpa [update_of_ne hc'] using h.others c hc hc'
    · -- another processor finds that it is not in the target mask
      have hpc : s.pc cpu = .testing := (h.others cpu h0 h1).resolve_left hin
      have hb : ∀ c : CpuId, c ≠ 0 → c ≠ 1 → cpuBitmaskIsSet 3 c = false := by decide
      have hn : s.next cpu = ⟨s.g, update s.pc cpu .idle⟩ := by
        rw [HokusaiMachine.next, hpc, hokusaiAdvance, h.target, hb cpu h0 h1]
        rfl
      rw [hn]
      refine ⟨h.lock, h.ready, h.done, h.target, ?_, ?_, fun c hc hc' => ?_⟩
      · simpa [update_of_ne (symm h0)] using h.first
      · simpa [update_of_ne (symm h1)] using h.second
      · by_cases heq : c = cpu
        · simp [heq]
        · simpa [update_of_ne heq] using h.others c hc hc'

/-- The first processor has begun a second round, and the second one is still in the first. -/
def HokusaiMachine.reused : HokusaiMachine Unit Unit :=
  (returned.acquired 0 3 () none).go [0, 0]

theorem stranded_reused : Stranded ((reused.next 0).go [0, 0, 0, 0]) where
  lock := rfl
  ready := rfl
  done := rfl
  target := rfl
  first := ⟨_, _, _, .inl rfl⟩
  second := ⟨_, _, _, .inl rfl⟩
  others c h0 h1 := by
    left
    rw [go_pc (by simp [h0]), next_pc_of_ne h0, reused, go_pc (by simp [h0]), acquired_pc_of_ne h0,
      returned, go_pc (by simp [h0, h1]), acquired_pc_of_ne h0]
    rfl

/-- **Two rounds in a row strand a processor.** The first processor returns from a round with the
second one when that has set its bit in `mp_hokusai_exit`, and begins another. It resets the masks
while the second one still waits, and then both wait for each other forever. -/
theorem masks_reset_under_waiter :
    ∃ (h : List (HokusaiMachine Unit Unit × HokusaiEvent Unit Unit))
      (s s₁ : HokusaiMachine Unit Unit),
      Run HokusaiStep boot h s ∧ (s₁, .run 0) ∈ h ∧ (s₁.pc 0).resets = true ∧
        (s₁.pc 1).waits = true ∧
        ∀ h' s', Run HokusaiStep s h' s' → (s'.pc 0).waits = true ∧ (s'.pc 1).waits = true := by
  obtain ⟨h₄, hrun₄, -⟩ := returned_run
  have h₅ := hrun₄.snoc (@HokusaiStep.acquire _ _ _ 0 3 () none rfl rfl)
  obtain ⟨h₆, hrun₆, -⟩ := go_run h₅ [0, 0] rfl
  have h₇ := hrun₆.snoc (@HokusaiStep.run _ _ _ 0 nofun)
  obtain ⟨h₈, hrun₈, -⟩ := go_run h₇ [0, 0, 0, 0] rfl
  refine ⟨_, _, reused, hrun₈, ?_, rfl, rfl, fun h' s' hrun' => ?_⟩
  · exact mem_append_left _ (mem_append_right _ mem_cons_self)
  · have hst : Stranded s' :=
      hrun'.invariant stranded_reused fun _ _ _ _ _ hst hs =>
        hst.step hs
    exact hst.waits

end Glatt
