import Mathlib.Data.Nat.Bitwise
import Mathlib.Data.Set.Card
import Mathlib.Data.UInt

/-!
# Outcomes of imperative code

A call either returns a value or halts: it panics, it faults on an invalid access, or one of its
loops does not end. Calls compose in the `Except` monad, their total correctness is `Ensures` and
their partial correctness `Yields`. `Guarded` is both at once: it says what a call that returns has
done, and under which condition it returns. An unbounded loop runs its body with a bound on the
number of iterations, a counting loop runs it for each number in turn.

## Main definitions

* `Outcome α`: the outcomes of a call returning `α`
* `Ensures x P`: the call returns, and its value satisfies `P`
* `Yields x P`: if the call returns, its value satisfies `P`
* `Guarded Q x P`: the call returns if `Q`, and if it returns, its value satisfies `P`
* `loop body n`: the iterations of `body` until it returns, at most `n` of them
* `forRange body n`: the rounds `0` to `n - 1` of `body`
* `Lockstep R x y`: the calls halt in the same way, or return values that `R` relates

## Main results

* `Ensures.bind`, `Yields.bind`, `Guarded.bind`: sequential composition
* `Ensures.loop`: a loop whose variant is below its bound returns
* `Ensures.foldlM`, `Guarded.forRange`: the rules for loops over a list and for counting loops
* `Lockstep.bind`, `Lockstep.forRange`: the rules for two runs side by side
-/

namespace Imperative

/-- The ways in which a call ends without returning. -/
inductive Halt
  | panic
  | fault
  | spin
  deriving DecidableEq, Repr

/-- The outcomes of a call that returns a value of type `α`. -/
abbrev Outcome (α : Type) := Except Halt α

variable {α β σ ρ : Type} {a : α}

/-- The call returns, and what it returns satisfies `P`. -/
def Ensures (x : Outcome α) (P : α → Prop) : Prop := ∃ a, x = .ok a ∧ P a

variable {P : α → Prop}

theorem ensures_ok : Ensures (.ok a) P ↔ P a :=
  ⟨fun ⟨_, h, hP⟩ => by cases h; exact hP, fun h => ⟨a, rfl, h⟩⟩

@[simp] theorem ensures_pure : Ensures (pure a) P ↔ P a := ensures_ok

theorem Ensures.ret (h : P a) : Ensures (pure a) P := ensures_pure.mpr h

@[simp] theorem not_ensures_error {e : Halt} : ¬ Ensures (.error e) P := by
  rintro ⟨_, h, _⟩
  cases h

variable {x : Outcome α} {P Q : α → Prop}

theorem Ensures.eq_ok (h : Ensures x (· = a)) : x = .ok a := by
  obtain ⟨_, hx, rfl⟩ := h
  exact hx

theorem Ensures.mono (h : Ensures x P) (hp : ∀ a, P a → Q a) : Ensures x Q := by
  obtain ⟨a, rfl, ha⟩ := h
  exact ⟨a, rfl, hp a ha⟩

variable {f : α → Outcome β}

/-- **Sequential composition**: what the first call ensures suffices for the second. -/
theorem Ensures.bind {Q : β → Prop} (h : Ensures x P) (hf : ∀ a, P a → Ensures (f a) Q) :
    Ensures (x >>= f) Q := by
  obtain ⟨a, rfl, ha⟩ := h
  exact hf a ha

@[simp] theorem ok_bind : (Except.ok a >>= f) = f a := rfl

theorem bind_eq_ok {b : β} : (x >>= f) = .ok b ↔ ∃ a, x = .ok a ∧ f a = .ok b := by
  constructor
  · intro h
    cases x with
    | error e => cases h
    | ok a => exact ⟨a, rfl, h⟩
  · rintro ⟨a, rfl, hb⟩
    exact hb

/-- If the call returns, what it returns satisfies `P`. -/
def Yields (x : Outcome α) (P : α → Prop) : Prop := ∀ a, x = .ok a → P a

@[simp] theorem yields_pure : Yields (pure a) P ↔ P a :=
  ⟨fun h => h a rfl, fun h _ ha => Except.ok.inj ha ▸ h⟩

theorem Yields.ret (h : P a) : Yields (pure a) P := yields_pure.mpr h

@[simp] theorem yields_error {e : Halt} : Yields (.error e) P := by
  intro _ h
  cases h

theorem Yields.mono (h : Yields x P) (hp : ∀ a, P a → Q a) : Yields x Q := fun a ha => hp a (h a ha)

theorem Yields.and (h : Yields x P) (h' : Yields x Q) :
    Yields x fun a => P a ∧ Q a := fun a ha => ⟨h a ha, h' a ha⟩

theorem Ensures.yields (h : Ensures x P) : Yields x P := by
  intro b hb
  obtain ⟨a, ha, hP⟩ := h
  rw [ha] at hb
  cases hb
  exact hP

theorem Ensures.and (h : Ensures x P) (h' : Yields x Q) : Ensures x fun a => P a ∧ Q a := by
  obtain ⟨a, rfl, ha⟩ := h
  exact ⟨a, rfl, ha, h' a rfl⟩

theorem Yields.bind {Q : β → Prop} (h : Yields x P) (hf : ∀ a, P a → Yields (f a) Q) :
    Yields (x >>= f) Q := by
  intro b hb
  obtain ⟨a, ha, hfa⟩ := bind_eq_ok.mp hb
  exact hf a (h a ha) b hfa

/-- What holds after the second call, whatever the first one returns. -/
theorem yields_bind_of_forall {Q : β → Prop} (hf : ∀ a, Yields (f a) Q) : Yields (x >>= f) Q :=
  Yields.bind (fun _ _ => trivial) fun a _ => hf a

/-- The call returns if `Q` holds, and if it returns, what it returns satisfies `P`. -/
structure Guarded (Q : Prop) (x : Outcome α) (P : α → Prop) : Prop where
  yields : Yields x P
  returns : Q → ∃ a, x = .ok a

section Guarded

variable {Q : Prop} {x : Outcome α} {P : α → Prop}

theorem Ensures.guarded (h : Ensures x P) : Guarded Q x P := by
  refine ⟨h.yields, fun _ => ?_⟩
  obtain ⟨a, ha, -⟩ := h
  exact ⟨a, ha⟩

theorem Yields.guarded (h : Yields x P) : Guarded False x P := ⟨h, False.elim⟩

theorem Guarded.ensures (h : Guarded Q x P) (hQ : Q) : Ensures x P := by
  obtain ⟨a, ha⟩ := h.returns hQ
  exact ⟨a, ha, h.yields a ha⟩

theorem guarded_pure (h : P a) : Guarded Q (pure a) P := (Ensures.ret h).guarded

/-- A call may halt where the condition does not hold. -/
theorem guarded_error {e : Halt} (h : ¬ Q) : Guarded Q (.error e) P :=
  ⟨yields_error, fun hQ => absurd hQ h⟩

theorem Guarded.mono {R : α → Prop} (h : Guarded Q x P) (hp : ∀ a, P a → R a) : Guarded Q x R :=
  ⟨h.yields.mono hp, h.returns⟩

theorem Guarded.and {R : α → Prop} (h : Guarded Q x P) (h' : Yields x R) :
    Guarded Q x fun a => P a ∧ R a := ⟨h.yields.and h', h.returns⟩

/-- **Sequential composition** under a condition. -/
theorem Guarded.bind {f : α → Outcome β} {R : β → Prop} (h : Guarded Q x P)
    (hf : ∀ a, P a → Guarded Q (f a) R) : Guarded Q (x >>= f) R := by
  refine ⟨h.yields.bind fun a ha => (hf a ha).yields, fun hQ => ?_⟩
  obtain ⟨a, rfl, ha⟩ := h.ensures hQ
  exact (hf a ha).returns hQ

end Guarded

/-- The iterations of `body` until it returns a value. A state is handed to the next iteration
with `.inl`, a value is returned with `.inr`; a loop that uses up its bound spins. -/
def loop (body : σ → Outcome (σ ⊕ ρ)) : ℕ → σ → Outcome ρ
  | 0, _ => .error .spin
  | n + 1, s => do
    match ← body s with
    | .inl s' => loop body n s'
    | .inr r => pure r

variable {I : ℕ → σ → Prop}

/-- **The loop rule**: an invariant whose variant decreases in every iteration makes a loop
return, if the variant starts below the bound. -/
theorem Ensures.loop {body : σ → Outcome (σ ⊕ ρ)} {P : ρ → Prop}
    (h : ∀ n s, I n s → Ensures (body s) (Sum.elim (fun s' => ∃ m < n, I m s') P)) :
    ∀ {fuel n : ℕ} {s : σ}, I n s → n < fuel → Ensures (loop body fuel s) P := by
  intro fuel
  induction fuel with
  | zero => intro n s _ hn; omega
  | succ fuel ih =>
    intro n s hI hn
    refine (h n s hI).bind fun r hr => ?_
    cases r with
    | inl s' =>
      obtain ⟨m, hm, hI'⟩ := hr
      exact ih hI' (by omega)
    | inr r => exact ensures_pure.mpr hr

/-- The partial loop rule: what every iteration keeps holds of the value a loop returns. -/
theorem loop_induction {body : σ → Outcome (σ ⊕ ρ)} {I : σ → Prop} {P : ρ → Prop}
    (hs : ∀ s s', I s → body s = .ok (.inl s') → I s')
    (hret : ∀ s r, I s → body s = .ok (.inr r) → P r) :
    ∀ {fuel : ℕ} {s : σ} {r : ρ}, I s → loop body fuel s = .ok r → P r := by
  intro fuel
  induction fuel with
  | zero => intro s r _ h; cases h
  | succ fuel ih =>
    intro s r hI h
    obtain ⟨v, hv, hr⟩ := bind_eq_ok.mp h
    cases v with
    | inl s' => exact ih (hs s s' hI hv) hr
    | inr r' =>
      cases hr
      exact hret s r hI hv

/-- **The rule for a loop over different elements**: what holds of those so far. -/
theorem Ensures.foldlM {f : σ → α → Outcome σ} {I : List α → σ → Prop} {xs : List α} {s : σ}
    (hn : xs.Nodup) (h₀ : I [] s)
    (h : ∀ ys x s, x ∉ ys → I ys s → Ensures (f s x) (I (ys ++ [x]))) :
    Ensures (xs.foldlM f s) (I xs) := by
  suffices hz : ∀ zs ys s, xs = ys ++ zs → I ys s → Ensures (zs.foldlM f s) (I xs) from
    hz xs [] s rfl h₀
  intro zs
  induction zs with
  | nil =>
    rintro ys s rfl hs
    exact .ret (by rwa [List.append_nil])
  | cons x zs ih =>
    rintro ys s rfl hs
    have hx : x ∉ ys := fun hx => (List.nodup_append.mp hn).2.2 x hx x List.mem_cons_self rfl
    exact (h ys x s hx hs).bind fun s' hs' => ih _ s' (by simp) hs'

/-- The rounds `0` to `n - 1` of a counting loop, one after the other. -/
def forRange (body : ℕ → σ → Outcome σ) : ℕ → σ → Outcome σ
  | 0, s => pure s
  | n + 1, s => do
    let s ← forRange body n s
    body n s

variable {body : ℕ → σ → Outcome σ}

/-- **The rule for counting loops**: what holds before the first round, and after each round if
before it, holds after the last; and if every round returns, so does the loop. -/
theorem Guarded.forRange {Q : Prop} {n : ℕ}
    (hst : ∀ i < n, ∀ s, I i s → Guarded Q (body i s) (I (i + 1))) {s : σ} (h : I 0 s) :
    Guarded Q (forRange body n s) (I n) := by
  induction n with
  | zero => exact guarded_pure h
  | succ n ih =>
    have hb := ih fun i hi => hst i (Nat.lt_succ_of_lt hi)
    exact hb.bind fun s' hs' => hst n n.lt_succ_self s' hs'

theorem Ensures.forRange {n : ℕ} (hst : ∀ i < n, ∀ s, I i s → Ensures (body i s) (I (i + 1)))
    {s : σ} (h : I 0 s) :
    Ensures (forRange body n s) (I n) :=
  (Guarded.forRange (fun i hi s hs => (hst i hi s hs).guarded) h).ensures trivial

theorem Yields.forRange {n : ℕ} (hst : ∀ i < n, ∀ s, I i s → Yields (body i s) (I (i + 1)))
    {s : σ} (h : I 0 s) :
    Yields (forRange body n s) (I n) :=
  (Guarded.forRange (fun i hi s hs => (hst i hi s hs).guarded) h).yields

/-- A loop whose first round halts. -/
theorem forRange_halt {e : Halt} {s : σ} (h : body 0 s = .error e) (n : ℕ) :
    forRange body (n + 1) s = .error e := by
  induction n with
  | zero => exact h
  | succ n ih => rw [forRange, ih]; rfl

/-! ## Two runs side by side -/

section Lockstep

variable {γ δ : Type}

/-- The calls halt in the same way, or return values that `R` relates. -/
inductive Lockstep (R : α → β → Prop) : Outcome α → Outcome β → Prop
  | ok {a b} : R a b → Lockstep R (.ok a) (.ok b)
  | halt (e) : Lockstep R (.error e) (.error e)

/-- Equal results, beside states that `R` relates. -/
def Paired (R : σ → σ → Prop) (x y : σ × ρ) : Prop := R x.1 y.1 ∧ y.2 = x.2

theorem lockstep_refl (x : Outcome α) : Lockstep (fun a b => b = a) x x := by
  cases x with
  | ok a => exact .ok rfl
  | error e => exact .halt e

variable {x : Outcome α} {y : Outcome β}

theorem Lockstep.mono {R Q : α → β → Prop} (h : Lockstep R x y) (hr : ∀ a b, R a b → Q a b) :
    Lockstep Q x y := by
  cases h with
  | ok h => exact .ok (hr _ _ h)
  | halt e => exact .halt e

variable {R : α → β → Prop} {Q : γ → δ → Prop}

/-- **Sequential composition** of two runs. -/
theorem Lockstep.bind {f : α → Outcome γ} {g : β → Outcome δ} (h : Lockstep R x y)
    (hf : ∀ a b, R a b → Lockstep Q (f a) (g b)) : Lockstep Q (x >>= f) (y >>= g) := by
  cases h with
  | ok h => exact hf _ _ h
  | halt e => exact .halt e

/-- Sequential composition behind calls with equal results. -/
theorem Lockstep.bind_paired {R : σ → σ → Prop} {x y : Outcome (σ × ρ)} {f : σ × ρ → Outcome γ}
    {g : σ × ρ → Outcome δ} (h : Lockstep (Paired R) x y)
    (hf : ∀ s s' r, R s s' → Lockstep Q (f (s, r)) (g (s', r))) :
    Lockstep Q (x >>= f) (y >>= g) := by
  refine h.bind ?_
  rintro ⟨s, r⟩ ⟨s', r'⟩ ⟨hs, hr⟩
  subst hr
  exact hf s s' _ hs

/-- Sequential composition behind the same call. -/
theorem Lockstep.bind_same {f : α → Outcome γ} {g : α → Outcome δ}
    (hf : ∀ a, Lockstep Q (f a) (g a)) :
    Lockstep Q (x >>= f) (x >>= g) := by
  refine (lockstep_refl x).bind ?_
  rintro a _ rfl
  exact hf _

theorem Lockstep.and_yields {P : α → Prop} (h : Lockstep R x y) (hP : Yields x P) :
    Lockstep (fun a b => R a b ∧ P a) x y := by
  cases h with
  | ok h => exact .ok ⟨h, hP _ rfl⟩
  | halt e => exact .halt e

theorem Lockstep.of_ok (h : Lockstep R x y) {a : α} {b : β} (hx : x = .ok a) (hy : y = .ok b) :
    R a b := by
  subst hx hy
  cases h with
  | ok h => exact h

/-- **The rule for counting loops**, with a relation for every round. -/
theorem Lockstep.forRange {body : ℕ → σ → Outcome σ} {I : ℕ → σ → σ → Prop} {n : ℕ}
    (hs : ∀ i < n, ∀ s s', I i s s' → Lockstep (I (i + 1)) (body i s) (body i s')) {s s' : σ}
    (h : I 0 s s') : Lockstep (I n) (forRange body n s) (forRange body n s') := by
  induction n with
  | zero => exact .ok h
  | succ n ih =>
    have hb := ih fun i hi => hs i (Nat.lt_succ_of_lt hi)
    exact hb.bind fun t t' ht => hs n n.lt_succ_self t t' ht

end Lockstep

end Imperative
