import Glatt.Lib.Outcome

/-!
# Calls with a record of what they do

A traced call has an outcome and the list of the events on the way to it, which it keeps when it
halts. It is safe if every event has a property and it halts only in some ways. Safety is a
condition on the parts of a call: each part has to be safe that is reached.

## Main definitions

* `Traced ε α`: the events of a call, and its outcome
* `emit`, `lift`, `halt`: an event, a call without events, and the end of a call
* `Safe P Q x`: the events of `x` satisfy `P`, and it halts only in ways that satisfy `Q`
* `forRange body n`: the rounds `0` to `n - 1` of `body`
* `loop body n`: the iterations of `body` until it returns, at most `n` of them

## Main results

* `safe_bind`: a sequence of calls is safe exactly if each call is that is reached
* `safe_forRange`: a counting loop is safe exactly if each round is that is reached
* `outcome_loop`, `safe_loop`: the outcome of a loop, and when it is safe
-/

namespace Imperative

open List

/-- The events of a call, and its outcome. -/
structure Traced (ε α : Type) where
  log : List ε
  outcome : Outcome α

namespace Traced

variable {ε α β : Type} {l : List ε} {n : ℕ}

instance : Monad (Traced ε) where
  pure a := ⟨[], .ok a⟩
  bind x f :=
    match x.outcome with
    | .ok a => ⟨x.log ++ (f a).log, (f a).outcome⟩
    | .error h => ⟨x.log, .error h⟩

/-- An event. -/
def emit (e : ε) : Traced ε Unit := ⟨[e], .ok ()⟩

/-- A call without events. -/
def lift (x : Outcome α) : Traced ε α := ⟨[], x⟩

/-- The end of a call that does not return. -/
def halt (h : Halt) : Traced ε α := ⟨[], .error h⟩

/-- The rounds `0` to `n - 1` of a counting loop, one after the other. -/
def forRange (body : ℕ → α → Traced ε α) : ℕ → α → Traced ε α
  | 0, a => pure a
  | n + 1, a => forRange body n a >>= body n

/-- The iterations of `body` until it returns a value, at most `n` of them. -/
def loop {σ ρ : Type} (body : σ → Traced ε (σ ⊕ ρ)) : ℕ → σ → Traced ε ρ
  | 0, _ => halt .spin
  | n + 1, s => do
    match ← body s with
    | .inl s' => loop body n s'
    | .inr r => pure r

/-- Every event satisfies `P`, and the call returns or halts in a way that satisfies `Q`. -/
structure Safe (P : ε → Prop) (Q : Halt → Prop) (x : Traced ε α) : Prop where
  log : ∀ e ∈ x.log, P e
  halts : ∀ h, x.outcome = .error h → Q h

variable {P : ε → Prop} {Q : Halt → Prop}

variable {a : α}

@[simp] theorem outcome_pure : (pure a : Traced ε α).outcome = .ok a := rfl

@[simp] theorem log_pure : (pure a : Traced ε α).log = [] := rfl

@[simp] theorem outcome_lift (x : Outcome α) : (lift x : Traced ε α).outcome = x := rfl

@[simp] theorem outcome_halt (h : Halt) : (halt h : Traced ε α).outcome = .error h := rfl

@[simp] theorem outcome_emit (e : ε) : (emit e).outcome = .ok () := rfl

variable {x : Traced ε α} {f : α → Traced ε β}

theorem outcome_bind {b : β} :
    (x >>= f).outcome = .ok b ↔ ∃ a, x.outcome = .ok a ∧ (f a).outcome = .ok b := by
  obtain ⟨-, outcome⟩ := x
  cases outcome with
  | ok a =>
    refine ⟨fun h => ⟨a, rfl, h⟩, ?_⟩
    rintro ⟨a', ha, hb⟩
    cases ha
    exact hb
  | error h =>
    constructor
    · intro hb
      cases hb
    · rintro ⟨_, ha, _⟩
      cases ha

theorem outcome_bind_eq : (x >>= f).outcome = x.outcome >>= fun a => (f a).outcome := by
  obtain ⟨-, outcome⟩ := x
  cases outcome with
  | ok a => rfl
  | error h => rfl

variable {σ ρ : Type}

theorem outcome_loop (body : σ → Traced ε (σ ⊕ ρ)) (s : σ) :
    (loop body n s).outcome = Imperative.loop (fun s => (body s).outcome) n s := by
  induction n generalizing s with
  | zero => rfl
  | succ n ih =>
    rw [loop, outcome_bind_eq]
    refine bind_congr fun r => ?_
    cases r with
    | inl s' => exact ih s'
    | inr r => rfl

theorem lift_ok_bind : (lift (.ok a) >>= f) = f a := rfl

theorem log_bind {a : α} (hx : x.outcome = .ok a) : (x >>= f).log = x.log ++ (f a).log := by
  obtain ⟨log, outcome⟩ := x
  cases hx
  rfl

theorem log_bind_halt {h : Halt} : (x >>= fun _ => (halt h : Traced ε β)).log = x.log := by
  obtain ⟨log, outcome⟩ := x
  cases outcome with
  | ok a => exact append_nil log
  | error e => rfl

@[simp] theorem safe_pure : Safe P Q (pure a : Traced ε α) := ⟨nofun, nofun⟩

@[simp] theorem safe_emit {e : ε} : Safe P Q (emit e) ↔ P e := by
  refine ⟨fun h => h.log e mem_cons_self, fun he => ⟨fun e' he' => ?_, fun _ hh => ?_⟩⟩
  · rw [mem_singleton.mp he']
    exact he
  · cases hh

@[simp] theorem safe_lift {x : Outcome α} :
    Safe P Q (lift x : Traced ε α) ↔ ∀ h, x = .error h → Q h :=
  ⟨fun h => h.halts, fun h => ⟨nofun, h⟩⟩

@[simp] theorem safe_halt {h : Halt} : Safe P Q (halt h : Traced ε α) ↔ Q h := by
  refine ⟨fun hs => hs.halts h rfl, fun hQ => ⟨nofun, fun h' hh => ?_⟩⟩
  cases hh
  exact hQ

/-- **A sequence of calls** is safe exactly if the first call is, and the second one is whenever the
first one returns. -/
theorem safe_bind : Safe P Q (x >>= f) ↔ Safe P Q x ∧ ∀ a, x.outcome = .ok a → Safe P Q (f a) := by
  obtain ⟨log, outcome⟩ := x
  cases outcome with
  | ok a =>
    constructor
    · intro h
      refine ⟨⟨fun e he => h.log e (mem_append_left _ he), nofun⟩, ?_⟩
      intro a' ha
      cases ha
      exact ⟨fun e he => h.log e (mem_append_right _ he), h.halts⟩
    · rintro ⟨hx, hf⟩
      have hfa := hf a rfl
      refine ⟨fun e he => ?_, hfa.halts⟩
      rcases mem_append.mp he with he | he
      · exact hx.log e he
      · exact hfa.log e he
  | error h =>
    constructor
    · intro hs
      refine ⟨⟨hs.log, fun h' hh => hs.halts h' ?_⟩, nofun⟩
      cases hh
      rfl
    · rintro ⟨hx, _⟩
      refine ⟨hx.log, fun h' hh => hx.halts h' ?_⟩
      cases hh
      rfl

/-- **A counting loop** is safe exactly if every round is that is reached. -/
theorem safe_forRange {body : ℕ → α → Traced ε α} {a : α} :
    Safe P Q (forRange body n a) ↔
      ∀ i < n, ∀ b, (forRange body i a).outcome = .ok b → Safe P Q (body i b) := by
  induction n with
  | zero => exact ⟨nofun, fun _ => safe_pure⟩
  | succ n ih =>
    rw [forRange, safe_bind, ih]
    constructor
    · rintro ⟨hb, hl⟩ i hi
      rcases Nat.lt_succ_iff_lt_or_eq.mp hi with hi | rfl
      · exact hb i hi
      · exact hl
    · intro h
      exact ⟨fun i hi => h i (Nat.lt_succ_of_lt hi), h n n.lt_succ_self⟩

variable {body : σ → Traced ε (σ ⊕ ρ)}

/-- A loop that goes on after an iteration. -/
theorem loop_next {s t : σ} (h : body s = ⟨l, .ok (.inl t)⟩) :
    loop body (n + 1) s = ⟨l ++ (loop body n t).log, (loop body n t).outcome⟩ := by
  rw [loop, h]
  rfl

theorem loop_done {s : σ} {r : ρ} (h : body s = ⟨l, .ok (.inr r)⟩) :
    loop body (n + 1) s = ⟨l, .ok r⟩ := by
  rw [loop, h]
  show (⟨l ++ [], _⟩ : Traced ε ρ) = _
  rw [append_nil]
  rfl

theorem loop_halt {s : σ} {e : Halt} (h : body s = ⟨l, .error e⟩) :
    loop body (n + 1) s = ⟨l, .error e⟩ := by
  rw [loop, h]
  rfl

theorem safe_append : Safe P Q ⟨l ++ x.log, x.outcome⟩ ↔ (∀ e ∈ l, P e) ∧ Safe P Q x := by
  constructor
  · intro h
    exact ⟨fun e he => h.log e (mem_append_left _ he),
      fun e he => h.log e (mem_append_right _ he), h.halts⟩
  · rintro ⟨hl, hx⟩
    refine ⟨fun e he => ?_, hx.halts⟩
    rcases mem_append.mp he with he | he
    · exact hl e he
    · exact hx.log e he

/-- **A loop** is safe if every iteration is that is reached, by what the iterations keep. -/
theorem safe_loop {I : σ → Prop} (hsp : Q .spin)
    (hb : ∀ s, I s → Safe P Q (body s) ∧ ∀ s', (body s).outcome = .ok (.inl s') → I s') :
    ∀ {n : ℕ} {s : σ}, I s → Safe P Q (loop body n s) := by
  intro n
  induction n with
  | zero => exact fun _ => safe_halt.mpr hsp
  | succ n ih =>
    intro s hs
    obtain ⟨hsf, hn⟩ := hb s hs
    refine safe_bind.mpr ⟨hsf, fun r hr => ?_⟩
    cases r with
    | inl s' => exact ih (hn s' hr)
    | inr r => exact safe_pure

/-- A loop is safe if every iteration is, from whatever state. -/
theorem safe_loop_of_forall (hs : Q .spin) (hb : ∀ s, Safe P Q (body s)) {s : σ} :
    Safe P Q (loop body n s) :=
  safe_loop hs (fun s _ => ⟨hb s, fun _ _ => trivial⟩) trivial

end Traced

end Imperative
