import Glatt.Core.Scheduler

/-!
# Sleep queues and condition variables

A thread that sleeps is linked at the end of a sleep queue and unlinks itself after it has been
woken, so that until then it is still at its place. A signal makes the first thread of the queue
runnable, whether that is asleep or has been made runnable by an earlier signal.

## Main definitions

* `sleepqEnter`, `sleepqSignalOne`, `sleepqSignal`: the functions
* `CondVar`, `CvStep`: threads that use a condition variable
* `Timely`: signals that find the first thread of the queue asleep

## Main results

* `cv_signals_reach`: timely signals reach as many of the sleeping threads as they can
* `second_signal_lost`: two signals in a row wake only one thread
* `cv_broadcast_reaches`: no wake-up by a broadcast is lost
-/

namespace Glatt

open Imperative Transition List

variable {κ θ : Type} [DecidableEq θ]

/-! ## The functions -/

def sleepqEnter (td : θ) (entries : List θ) (s : SchedulerState κ θ) :
    Outcome (List θ × SchedulerState κ θ) := do
  let s ← schedulerThreadSleeping td s
  pure (entries ++ [td], s)

def sleepqLeave (td : θ) (entries : List θ) : Outcome (List θ) := threadqRemove entries td

def sleepqSignalEntry (s : SchedulerState κ θ) (td : θ) : SchedulerState κ θ :=
  schedulerThreadRunnable td s

def sleepqSignal (entries : List θ) (s : SchedulerState κ θ) : SchedulerState κ θ :=
  entries.foldl sleepqSignalEntry s

def sleepqSignalOne (entries : List θ) (s : SchedulerState κ θ) : SchedulerState κ θ :=
  match entries with
  | [] => s
  | td :: _ => sleepqSignalEntry s td

section Runnable

variable {s s' : SchedulerState κ θ} {td t : θ} {entries : List θ}

@[simp] theorem runnable_sleepqSignalEntry :
    ((sleepqSignalEntry s td).entry t).runnable =
      if t = td then true else (s.entry t).runnable := by
  rw [sleepqSignalEntry, schedulerThreadRunnable, modify_entry]
  split <;> rfl

theorem runnable_sleepqSignal :
    ((sleepqSignal entries s).entry t).runnable =
      if t ∈ entries then true else (s.entry t).runnable := by
  induction entries generalizing s with
  | nil => rfl
  | cons td entries ih =>
    rw [sleepqSignal, foldl_cons, ← sleepqSignal, ih]
    by_cases ht : t = td <;> simp [ht]

theorem sleepqEnter_spec : Yields (sleepqEnter td entries s) fun p => p.1 = entries ++ [td] ∧
      ∀ t, (p.2.entry t).runnable = if t = td then false else (s.entry t).runnable := by
  rw [sleepqEnter, schedulerThreadSleeping]
  split
  · exact yields_error
  · refine .ret ⟨rfl, fun t => ?_⟩
    rw [modify_entry]
    split <;> rfl

end Runnable

/-! ## A condition variable in operation -/

/-- The queue of a condition variable, and the scheduler. -/
structure CondVar (κ θ : Type) where
  cvSleepq : List θ
  sched : SchedulerState κ θ

/-- What a step does. -/
inductive CvEvent (θ : Type)
  | wait (td : θ)
  | resume (td : θ)
  | signal
  | broadcast
  | other
  deriving DecidableEq

/-- **One step** under the lock of the condition variable: a thread begins `cv_wait`; one that has
been made runnable ends it; a signal or a broadcast; or a step elsewhere, which wakes no thread of
the queue and makes none of them sleep. -/
inductive CvStep : CondVar κ θ → CvEvent θ → CondVar κ θ → Prop
  | wait {s td cvSleepq sched} : td ∉ s.cvSleepq →
      sleepqEnter td s.cvSleepq s.sched = .ok (cvSleepq, sched) →
      CvStep s (.wait td) ⟨cvSleepq, sched⟩
  | resume {s td cvSleepq} : (s.sched.entry td).runnable = true →
      sleepqLeave td s.cvSleepq = .ok cvSleepq →
      CvStep s (.resume td) { s with cvSleepq }
  | signal {s} : CvStep s .signal { s with sched := sleepqSignalOne s.cvSleepq s.sched }
  | broadcast {s} : CvStep s .broadcast { s with sched := sleepqSignal s.cvSleepq s.sched }
  | other {s sched} :
      (∀ t ∈ s.cvSleepq, (sched.entry t).runnable = (s.sched.entry t).runnable) →
      CvStep s .other { s with sched }

def CondVar.asleep (s : CondVar κ θ) : List θ :=
  s.cvSleepq.filter fun t => !(s.sched.entry t).runnable

def CvEvent.wakes (s : CondVar κ θ) : CvEvent θ → List θ
  | signal => s.cvSleepq.take 1
  | broadcast => s.cvSleepq
  | _ => []

def signals (h : List (CondVar κ θ × CvEvent θ)) : ℕ := h.countP fun p => p.2 = .signal

def woken (h : List (CondVar κ θ × CvEvent θ)) : List θ := h.flatMap fun p => p.2.wakes p.1

/-- A signal finds the first thread of the queue asleep, if there is one. -/
def Timely (s : CondVar κ θ) (e : CvEvent θ) : Prop :=
  e = .signal → ∀ td ∈ s.cvSleepq.head?, (s.sched.entry td).runnable = false

/-! ## Signals and sleeping threads -/

section Signals

variable {s s' s₀ : CondVar κ θ} {e : CvEvent θ} {h : List (CondVar κ θ × CvEvent θ)}

theorem CvStep.nodup (hs : CvStep s e s') (hn : s.cvSleepq.Nodup) : s'.cvSleepq.Nodup := by
  cases hs with
  | @wait td _ _ hnew hc =>
    obtain ⟨rfl, -⟩ := sleepqEnter_spec _ hc
    exact concat_eq_append ▸ List.Nodup.concat hnew hn
  | resume _ hc =>
    rw [sleepqLeave, threadqRemove] at hc
    split at hc
    · cases hc
      exact hn.erase _
    · cases hc
  | signal | broadcast | other => exact hn

omit [DecidableEq θ] in
theorem asleep_congr {sched : SchedulerState κ θ}
    (hs : ∀ t ∈ s.cvSleepq, (sched.entry t).runnable = (s.sched.entry t).runnable) :
    ({ s with sched } : CondVar κ θ).asleep = s.asleep := by
  refine filter_congr fun t ht => ?_
  rw [hs t ht]

theorem asleep_wait {td : θ} {cvSleepq : List θ} {sched : SchedulerState κ θ}
    (hn : td ∉ s.cvSleepq) (hc : sleepqEnter td s.cvSleepq s.sched = .ok (cvSleepq, sched)) :
    (⟨cvSleepq, sched⟩ : CondVar κ θ).asleep = s.asleep ++ [td] := by
  obtain ⟨rfl, hr⟩ := sleepqEnter_spec _ hc
  have htd : (sched.entry td).runnable = false := by simpa using hr td
  have hs : ∀ t ∈ s.cvSleepq, (sched.entry t).runnable = (s.sched.entry t).runnable := by
    intro t ht
    have hne : t ≠ td := fun heq => hn (heq ▸ ht)
    simpa [hne] using hr t
  have hold := asleep_congr hs
  rw [CondVar.asleep] at hold ⊢
  rw [filter_append, hold]
  simp [htd]

theorem asleep_resume {td : θ} {cvSleepq : List θ} (hrun : (s.sched.entry td).runnable = true)
    (hc : sleepqLeave td s.cvSleepq = .ok cvSleepq) :
    ({ s with cvSleepq } : CondVar κ θ).asleep = s.asleep := by
  rw [sleepqLeave, threadqRemove] at hc
  split at hc
  · cases hc
    simp only [CondVar.asleep, ← erase_filter]
    refine erase_of_not_mem fun hmem => ?_
    simp [hrun] at hmem
  · cases hc

theorem asleep_signal (hn : s.cvSleepq.Nodup) (htm : Timely s .signal) :
    ({ s with sched := sleepqSignalOne s.cvSleepq s.sched } : CondVar κ θ).asleep =
        s.asleep.drop 1 ∧
      s.asleep.take 1 = s.cvSleepq.take 1 := by
  obtain ⟨cvSleepq, sched⟩ := s
  cases cvSleepq with
  | nil => exact ⟨rfl, rfl⟩
  | cons td rest =>
    have htd : (sched.entry td).runnable = false := htm rfl td rfl
    have hr : ∀ t ∈ rest, t ≠ td := fun t ht heq =>
      (nodup_cons.mp hn).1 (heq ▸ ht)
    simp only [CondVar.asleep, sleepqSignalOne, runnable_sleepqSignalEntry, htd, Bool.not_false,
      filter_cons_of_pos, take_succ_cons, take_zero,
      and_true]
    rw [filter_cons_of_neg (by simp)]
    refine filter_congr fun t ht => ?_
    rw [if_neg (hr t ht)]

theorem asleep_broadcast :
    ({ s with sched := sleepqSignal s.cvSleepq s.sched } : CondVar κ θ).asleep = [] := by
  refine filter_eq_nil_iff.mpr fun t ht => ?_
  rw [runnable_sleepqSignal, if_pos ht]
  exact Bool.not_eq_true _ |>.mpr rfl

theorem CvStep.asleep (hs : CvStep s e s') (hn : s.cvSleepq.Nodup) (htm : Timely s e) :
    ∃ k later, s'.asleep = s.asleep.drop k ++ later ∧ (∀ t ∈ s.asleep.take k, t ∈ e.wakes s) ∧
      (if e = .signal then 1 else 0) ≤ k := by
  cases hs with
  | @wait td _ _ hnew hc => exact ⟨0, [td], asleep_wait hnew hc, by simp, by simp⟩
  | resume hrun hc => exact ⟨0, [], by simp [asleep_resume hrun hc], by simp, by simp⟩
  | signal =>
    obtain ⟨hd, htk⟩ := asleep_signal hn htm
    refine ⟨1, [], by rw [hd, append_nil], fun t ht => ?_, by simp⟩
    rwa [htk] at ht
  | broadcast =>
    refine ⟨s.asleep.length, [], by simp [asleep_broadcast], fun t ht => ?_, by simp⟩
    rw [take_length] at ht
    exact mem_of_mem_filter ht
  | other hsm => exact ⟨0, [], by simp [asleep_congr hsm], by simp, by simp⟩

/-- The threads `l` that were asleep have been made runnable from the first one on, as many at least
as there were signals, and those that are left come before the threads that began to wait later. -/
def Reached (l : List θ) (h : List (CondVar κ θ × CvEvent θ)) (s : CondVar κ θ) : Prop :=
  ∃ w later, s.asleep = l.drop w ++ later ∧ (∀ t ∈ l.take w, t ∈ woken h) ∧ signals h ≤ w

theorem Reached.step {l : List θ} (hr : Reached l h s) (hs : CvStep s e s')
    (hn : s.cvSleepq.Nodup) (htm : Timely s e) : Reached l (h ++ [(s, e)]) s' := by
  obtain ⟨w, later, ha, hw, hsg⟩ := hr
  obtain ⟨k, new, ha', hwk, hk⟩ := hs.asleep hn htm
  refine ⟨w + k, later.drop (k - (l.drop w).length) ++ new, ?_, fun t ht => ?_, ?_⟩
  · rw [ha', ha, drop_append, drop_drop, append_assoc]
  · rw [woken, flatMap_append, mem_append]
    rw [take_add, mem_append] at ht
    rcases ht with ht | ht
    · exact .inl (hw t ht)
    · have hmem : t ∈ s.asleep.take k := by
        rw [ha, take_append]
        exact mem_append_left _ ht
      exact .inr (by simpa using hwk t hmem)
  · rw [signals, countP_append, countP_singleton]
    rw [signals] at hsg
    simp only [decide_eq_true_eq]
    omega

/-- **Timely signals reach distinct waiters.** In a run in which every signal finds the first thread
of the queue asleep, `k` signals make at least `min k n` of the `n` threads runnable that were
asleep at its start, however threads resume and begin to wait in between. -/
theorem cv_signals_reach (hnodup : s₀.cvSleepq.Nodup) (hrun : Run CvStep s₀ h s)
    (htimely : ∀ p ∈ h, Timely p.1 p.2) :
    min (signals h) s₀.asleep.length ≤ {t ∈ s₀.asleep.toFinset | t ∈ woken h}.card := by
  obtain ⟨-, w, -, -, hw, hsg⟩ : s.cvSleepq.Nodup ∧ Reached s₀.asleep h s := by
    induction hrun with
    | nil => exact ⟨hnodup, 0, [], by simp, by simp, Nat.le_refl 0⟩
    | snoc _ hs ih =>
      obtain ⟨hl, hr⟩ := ih fun p hp => htimely p (mem_append_left _ hp)
      have hls := htimely _ (mem_append_right _ mem_cons_self)
      exact ⟨hs.nodup hl, hr.step hs hl hls⟩
  have ha : s₀.asleep.Nodup := hnodup.filter _
  calc min (signals h) s₀.asleep.length
      ≤ (s₀.asleep.take w).length := by
        rw [length_take]
        exact min_le_min_right _ hsg
    _ = (s₀.asleep.take w).toFinset.card :=
        (toFinset_card_of_nodup (ha.sublist (take_sublist w _))).symm
    _ ≤ {t ∈ s₀.asleep.toFinset | t ∈ woken h}.card := by
        refine Finset.card_le_card fun t ht => ?_
        rw [mem_toFinset] at ht
        simp only [Finset.mem_filter, mem_toFinset]
        exact ⟨mem_of_mem_take ht, hw t ht⟩

/-- Two threads wait, and one signal follows another one after the first thread has unlinked
itself. -/
theorem cv_signals_reach_two :
    ∃ (h : List (CondVar (Fin 1) (Fin 2) × CvEvent (Fin 2))) (s₀ s : CondVar (Fin 1) (Fin 2)),
      s₀.asleep = [0, 1] ∧ Run CvStep s₀ h s ∧ signals h = 2 ∧
        2 ≤ {t ∈ s₀.asleep.toFinset | t ∈ woken h}.card := by
  let s₀ : CondVar (Fin 1) (Fin 2) := ⟨[0, 1], fun _ => .default, [0, 1], [], fun _ => none⟩
  have h₁ : Run CvStep s₀ _ _ := Run.nil.snoc CvStep.signal
  have h₂ := h₁.snoc (@CvStep.resume _ _ _ _ 0 [1] rfl rfl)
  have h₃ := h₂.snoc CvStep.signal
  refine ⟨_, s₀, _, rfl, h₃, rfl, cv_signals_reach (by decide) h₃ ?_⟩
  intro p hp
  simp only [nil_append, cons_append, mem_cons, not_mem_nil, or_false] at hp
  rcases hp with rfl | rfl | rfl
  · rintro - td ⟨⟩
    rfl
  · nofun
  · rintro - td ⟨⟩
    rfl

/-- **The second of two signals in a row is lost**: two threads begin to wait, and the thread at the
head of the queue is made runnable twice. -/
theorem second_signal_lost :
    ∃ (h h' : List (CondVar (Fin 1) (Fin 2) × CvEvent (Fin 2))) (s₀ s : CondVar (Fin 1) (Fin 2)),
      Run CvStep ⟨[], ⟨fun _ => .default, [0, 1], [], fun _ => none⟩⟩ h' s₀ ∧
        s₀.asleep = [0, 1] ∧ Run CvStep s₀ h s ∧ signals h = 2 ∧
        {t ∈ s₀.asleep.toFinset | t ∈ woken h}.card = 1 ∧ s.asleep = [1] := by
  have h₁ : Run CvStep (⟨[], fun _ => .default, [0, 1], [], fun _ => none⟩ :
      CondVar (Fin 1) (Fin 2)) _ _ :=
    Run.nil.snoc (@CvStep.wait _ _ _ _ 0 _ _ (by simp) rfl)
  have h₂ := h₁.snoc (@CvStep.wait _ _ _ _ 1 _ _ (by decide) rfl)
  refine ⟨_, _, _, _, h₂, rfl, (Run.nil.snoc CvStep.signal).snoc CvStep.signal, rfl, ?_, rfl⟩
  decide

/-! ## Broadcasts -/

def CondVar.Woken (s : CondVar κ θ) (t : θ) : Prop :=
  t ∈ s.cvSleepq ∧ (s.sched.entry t).runnable = true

theorem CvStep.woken {t : θ} (hw : s.Woken t) (hs : CvStep s e s') (he : e ≠ .resume t) :
    s'.Woken t := by
  obtain ⟨hq, hr⟩ := hw
  cases hs with
  | @wait td _ _ hn hc =>
    obtain ⟨rfl, hrn⟩ := sleepqEnter_spec _ hc
    have hne : t ≠ td := fun heq => hn (heq ▸ hq)
    exact ⟨mem_append_left _ hq, (hrn t).trans ((if_neg hne).trans hr)⟩
  | @resume td _ _ hc =>
    rw [sleepqLeave, threadqRemove] at hc
    split_ifs at hc
    cases hc
    have hne : t ≠ td := fun heq => he (congrArg _ heq.symm)
    exact ⟨(mem_erase_of_ne hne).mpr hq, hr⟩
  | signal =>
    refine ⟨hq, ?_⟩
    cases hl : s.cvSleepq with
    | nil => exact hr
    | cons td l => exact runnable_sleepqSignalEntry.trans (by rw [hr, ite_self])
  | broadcast => exact ⟨hq, runnable_sleepqSignal.trans (if_pos hq)⟩
  | other hsm => exact ⟨hq, (hsm t hq).trans hr⟩

/-- **A broadcast reaches every thread of the queue.** Whatever happens after it, each of them is
runnable until it goes on itself. -/
theorem cv_broadcast_reaches {s₁ : CondVar κ θ} {t : θ} (ht : t ∈ s.cvSleepq)
    (hb : CvStep s .broadcast s₁) (hrun : Run CvStep s₁ h s')
    (hne : ∀ x ∈ h, x.2 ≠ .resume t) :
    t ∈ s'.cvSleepq ∧ (s'.sched.entry t).runnable = true := by
  have hw : s₁.Woken t := by
    cases hb
    exact ⟨ht, runnable_sleepqSignal.trans (if_pos ht)⟩
  exact Run.invariant_of_forall (I := (CondVar.Woken · t)) (C := fun _ e => e ≠ .resume t) hw
    (fun _ _ _ hw he hs => CvStep.woken hw hs he) hrun hne

/-- The second of two threads is still runnable after the first one has gone on. -/
theorem cv_broadcast_reaches_two : ∃ (s : CondVar (Fin 1) (Fin 2)) (h : List _),
    Run CvStep ⟨[0, 1], sleepqSignal [0, 1] ⟨fun _ => .default, [0, 1], [], fun _ => none⟩⟩ h s ∧
      s.cvSleepq = [1] ∧ (s.sched.entry 1).runnable = true := by
  have hr := Run.nil.snoc (@CvStep.resume (Fin 1) (Fin 2) _
    ⟨[0, 1], sleepqSignal [0, 1] ⟨fun _ => .default, [0, 1], [], fun _ => none⟩⟩ 0 [1] rfl rfl)
  exact ⟨_, _, hr, rfl, (cv_broadcast_reaches (s := ⟨[0, 1], _⟩) (by decide) CvStep.broadcast hr
    (forall_mem_singleton.mpr (by decide))).2⟩

end Signals

end Glatt
