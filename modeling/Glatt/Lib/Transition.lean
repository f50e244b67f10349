import Mathlib.Data.List.Forall2

/-!
# Runs of a transition system

A transition system is a step relation `step s a s'`. A run is recorded as its history, the state
before each step with the step's label, so that properties of whole histories can be stated and
proved along the run.

## Main definitions

* `Run step s₀ h s`: the history `h` leads from `s₀` to `s`

## Main results

* `Run.append`: runs can be put together
* `Run.invariant`: what holds initially and is kept by every step holds along every run
* `Run.invariant_of_forall`: the same for runs whose steps all meet a condition
* `Run.of_and`: a run of steps that all meet a condition
* `Run.related`: a relation that is kept by steps side by side holds after two runs
* `Run.split`, `Run.step_of_mem`: every recorded step was taken from a state reached by an earlier
  history
-/

namespace Transition

open List

variable {σ A : Type} {step : σ → A → σ → Prop} {s₀ s : σ} {h : List (σ × A)}

/-- The history `h` leads from `s₀` to `s`. -/
inductive Run (step : σ → A → σ → Prop) (s₀ : σ) : List (σ × A) → σ → Prop
  | nil : Run step s₀ [] s₀
  | snoc {h s a s'} : Run step s₀ h s → step s a s' → Run step s₀ (h ++ [(s, a)]) s'

/-- **Invariants**: a property of the history and the state that holds initially and is kept by
every step holds along every run. -/
@[elab_as_elim]
theorem Run.invariant {I : List (σ × A) → σ → Prop} (hin : I [] s₀)
    (hst : ∀ h s a s', Run step s₀ h s → I h s → step s a s' → I (h ++ [(s, a)]) s')
    (hr : Run step s₀ h s) : I h s := by
  induction hr with
  | nil => exact hin
  | snoc hr hs ih => exact hst _ _ _ _ hr ih hs

theorem Run.append {s' : σ} {h' : List (σ × A)} (hr : Run step s₀ h s) (hr' : Run step s h' s') :
    Run step s₀ (h ++ h') s' := by
  induction hr' with
  | nil => simpa using hr
  | snoc _ hs ih =>
    rw [← append_assoc]
    exact ih.snoc hs

/-- **Conditional invariants**: a property that every step keeps which meets a condition holds after
every run whose steps all meet it. -/
theorem Run.invariant_of_forall {I : σ → Prop} {C : σ → A → Prop} (hin : I s₀)
    (hst : ∀ s a s', I s → C s a → step s a s' → I s') (hr : Run step s₀ h s)
    (hC : ∀ e ∈ h, C e.1 e.2) : I s := by
  induction hr with
  | nil => exact hin
  | snoc hr hs ih =>
    have hb := ih fun e he => hC e (mem_append_left _ he)
    exact hst _ _ _ hb (hC _ (mem_append_right _ mem_cons_self)) hs

theorem Run.of_and {C : σ → A → Prop} (hr : Run (fun s a s' => step s a s' ∧ C s a) s₀ h s) :
    Run step s₀ h s ∧ ∀ e ∈ h, C e.1 e.2 := by
  induction hr with
  | nil => exact ⟨nil, forall_mem_nil _⟩
  | snoc hr hs ih =>
    exact ⟨ih.1.snoc hs.1, forall_mem_append.mpr ⟨ih.2, forall_mem_singleton.mpr hs.2⟩⟩

/-- **Runs side by side**: a relation that holds initially, and that steps with related labels keep,
holds after two runs with related labels. -/
theorem Run.related {R : σ → σ → Prop} {L : A → A → Prop} {t₀ t : σ} {k : List (σ × A)}
    (hin : R s₀ t₀)
    (hst : ∀ s t a b s' t', R s t → L a b → step s a s' → step t b t' → R s' t')
    (hr : Run step s₀ h s) (hk : Run step t₀ k t)
    (hL : List.Forall₂ (fun x y => L x.2 y.2) h k) : R s t := by
  induction hr generalizing k t with
  | nil =>
    cases hk with
    | nil => exact hin
    | snoc => simp at hL
  | snoc hr hs ih =>
    cases hk with
    | nil => simp at hL
    | snoc hk ht =>
      rw [← forall₂_reverse_iff] at hL
      simp only [reverse_append, reverse_singleton, singleton_append,
        forall₂_cons, forall₂_reverse_iff] at hL
      exact hst _ _ _ _ _ _ (ih hk hL.2) hL.1 hs ht

theorem Run.split {h₁ h₂ : List (σ × A)} {t : σ} {a : A}
    (hr : Run step s₀ (h₁ ++ (t, a) :: h₂) s) : Run step s₀ h₁ t ∧ ∃ t', step t a t' := by
  generalize hh : h₁ ++ (t, a) :: h₂ = h at hr
  induction hr generalizing h₂ with
  | nil => simp at hh
  | @snoc h s b s' hr hs ih =>
    rcases h₂.eq_nil_or_concat with rfl | ⟨h₃, x, rfl⟩
    · -- the last step
      obtain ⟨rfl, hl⟩ := append_inj' hh rfl
      obtain ⟨rfl, rfl⟩ := Prod.mk.inj (singleton_inj.mp hl)
      exact ⟨hr, s', hs⟩
    · rw [concat_eq_append, ← cons_append, ← append_assoc] at hh
      exact ih (append_inj' hh rfl).1

theorem Run.step_of_mem (hr : Run step s₀ h s) {t : σ} {a : A} (hm : (t, a) ∈ h) :
    ∃ h₁ h₂ t', h = h₁ ++ (t, a) :: h₂ ∧ Run step s₀ h₁ t ∧ step t a t' := by
  obtain ⟨h₁, h₂, rfl⟩ := append_of_mem hm
  obtain ⟨hr', t', ht⟩ := hr.split
  exact ⟨h₁, h₂, t', rfl, hr', ht⟩

end Transition
