import Glatt.Lib.Outcome

/-!
# Error codes

The error codes of `core/error.h`. A kernel function that returns an `int` returns a value or one
of these codes.

## Main definitions

* `Errno`: the codes
-/

namespace Glatt

open Imperative

/-- The error codes; success is `ERROR_OK`. -/
inductive Errno
  | notFound
  | notPermitted
  | exhausted
  | notImplemented
  | again
  | invalid
  | unexpected
  | notFree
  | noRight
  | argCount
  | notAvailable
  | full
  | wrongKind
  deriving DecidableEq, Repr

variable {σ : Type} {x : Outcome (σ × Except Errno Unit)} {P : σ → Prop}

def orPanic (x : Outcome (σ × Except Errno Unit)) : Outcome σ := do
  match ← x with
  | (s, .ok ()) => pure s
  | (_, .error _) => .error .panic

theorem guarded_orPanic {Q : Prop}
    (h : Guarded Q x fun r => (r.2 = .ok () → P r.1) ∧ (Q → r.2 = .ok ())) :
    Guarded Q (orPanic x) P := by
  refine h.bind ?_
  rintro ⟨s, r⟩ ⟨hs, ho⟩
  cases r with
  | ok _ => exact guarded_pure (hs rfl)
  | error e =>
    refine guarded_error fun hQ => ?_
    cases ho hQ

theorem yields_orPanic (h : Yields x fun r => r.2 = .ok () → P r.1) : Yields (orPanic x) P :=
  (guarded_orPanic (h.mono fun _ hr => ⟨hr, False.elim⟩).guarded).yields

theorem ensures_orPanic (h : Ensures x fun r => r.2 = .ok () ∧ P r.1) : Ensures (orPanic x) P :=
  (guarded_orPanic (h.mono fun _ hr => ⟨fun _ => hr.2, fun _ => hr.1⟩).guarded).ensures trivial

end Glatt
