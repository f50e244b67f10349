import Glatt.Ipc.PortTree

/-!
# Two calls for one reserved port

`ipc_port_allocate_reserved` looks its number up under the lock of the tree, gives the lock back,
prepares a structure, and takes the lock again to register it. Two calls for one number can both
pass the first part; the second registration then fails, which the call answers with a panic.

The calls run one part at a time, in any order. `pool_allocate` answers with a structure that is not
in use, or with none.

## Main definitions

* `ReservedMachine`, `ReservedStep`: two calls, and a part of one of them
* `ReservedMachine.Apart`: a part that is apart from the other call, and has memory

## Main results

* `reserved_once`: one call gets the port and the other one is refused, exactly where they are apart
* `reserved_panics`: where they are not, the kernel panics
-/

namespace Glatt

open Imperative Transition List

variable {π τ : Type} [DecidableEq π] [LinearOrder τ]

/-! ## The parts of a call -/

/-- Where a call is between its parts. -/
inductive ReservedPc (π : Type)
  | start
  | checked
  | allocated (x : π)
  | returned (r : Except Errno Unit)

def reservedStep (mem : Bool) (new : Option π) (task : τ) (port flags : UInt32) :
    ReservedPc π → PortTable π τ → Outcome (PortTable π τ × ReservedPc π)
  | .start, s =>
    if port = ipcPortUnknown ∨ ipcPortUnreservedStart ≤ port then
      pure (s, .returned (.error .invalid))
    else do
      match ← s.ipcPortLookup port with
      | some _ => pure (s, .returned (.error .notFree))
      | none => pure (s, .checked)
  | .checked, s => do
    let (s, x) ← s.ipcPortAlloc mem new task
    pure (s, .allocated x)
  | .allocated x, s => do
    match ← s.ipcPortRegister x port flags with
    | (_, .error _) => .error .panic
    | (s, .ok ()) => pure (s, .returned (.ok ()))
  | .returned r, s => pure (s, .returned r)

def reservedCall (mem : Bool) (new : Option π) (task : τ) (port flags : UInt32)
    (s : PortTable π τ) : Outcome (PortTable π τ × Except Errno Unit) :=
  loop (fun c : PortTable π τ × ReservedPc π =>
    match c.2 with
    | .returned r => pure (.inr (c.1, r))
    | pc => do
      let c ← reservedStep mem new task port flags pc c.1
      pure (.inl c)) 4 (s, .start)

theorem reservedCall_eq (mem : Bool) (new : Option π) (task : τ) (port flags : UInt32)
    (s : PortTable π τ) :
    reservedCall mem new task port flags s =
      s.ipcPortAllocateReserved mem new task port flags := by
  rw [reservedCall, loop, PortTable.ipcPortAllocateReserved]
  simp only [reservedStep]
  split
  · rfl
  cases s.ipcPortLookup port with
  | error e => rfl
  | ok old =>
    cases old with
    | some y => rfl
    | none =>
      simp only [loop, ok_bind, pure_bind]
      cases s.ipcPortAlloc mem new task with
      | error e => rfl
      | ok c =>
        simp only [ok_bind, pure_bind]
        cases c.1.ipcPortRegister c.2 port flags with
        | error e => rfl
        | ok c =>
          obtain ⟨t, r⟩ := c
          cases r with
          | error e => rfl
          | ok u => rfl

/-! ## Two calls -/

/-- The ports, where the two calls are, and how the kernel has halted, if it has. -/
structure ReservedMachine (π τ : Type) [LinearOrder τ] where
  table : PortTable π τ
  pc : Bool → ReservedPc π
  halted : Option Halt

/-- The call whose part comes next, and what the pools answer to it. -/
structure ReservedLabel (π : Type) where
  call : Bool
  mem : Bool
  new : Option π

namespace ReservedMachine

def start (table : PortTable π τ) : ReservedMachine π τ := ⟨table, fun _ => .start, none⟩

def Supplied (s : ReservedMachine π τ) (e : ReservedLabel π) : Prop :=
  ∀ x, e.new = some x → ¬ s.table.Registered x ∧ s.pc (!e.call) ≠ .allocated x

def Taken (s : ReservedMachine π τ) (port : UInt32) : Prop :=
  ∃ x, s.table.ipcPortLookup port = .ok (some x)

def Ended (s : ReservedMachine π τ) : Prop := s.halted ≠ none ∨ ∀ i, ∃ r, s.pc i = .returned r

/-- **One call has returned `0` and the other one `ERROR_NOT_FREE`.** -/
def OneWins (s : ReservedMachine π τ) : Prop :=
  s.halted = none ∧ ∃ i, s.pc i = .returned (.ok ()) ∧ s.pc (!i) = .returned (.error .notFree)

end ReservedMachine

/-- The call has looked the number up and has not registered its structure. -/
def ReservedPc.Between : ReservedPc π → Prop
  | .checked | .allocated _ => True
  | .start | .returned _ => False

/-- **A part that keeps the calls apart**: a call does not look the number up while the other one is
between its lookup and its registration, and a structure is there for it. -/
structure ReservedMachine.Apart (s : ReservedMachine π τ) (e : ReservedLabel π) : Prop where
  lookup : s.pc e.call = .start → ¬ (s.pc (!e.call)).Between
  memory : s.pc e.call = .checked → e.mem = true ∧ e.new ≠ none

section Steps

variable (port : UInt32) (flags : Bool → UInt32) (task : Bool → τ)

/-- **One part** of a call that has not returned, while the kernel has not halted. -/
inductive ReservedStep : ReservedMachine π τ → ReservedLabel π → ReservedMachine π τ → Prop
  | step {s : ReservedMachine π τ} {e t pc} : s.halted = none → (∀ r, s.pc e.call ≠ .returned r) →
      s.Supplied e → reservedStep e.mem e.new (task e.call) port (flags e.call) (s.pc e.call)
        s.table = .ok (t, pc) →
      ReservedStep s e ⟨t, Function.update s.pc e.call pc, none⟩
  | halt {s : ReservedMachine π τ} {e x} : s.halted = none → (∀ r, s.pc e.call ≠ .returned r) →
      s.Supplied e → reservedStep e.mem e.new (task e.call) port (flags e.call) (s.pc e.call)
        s.table = .error x →
      ReservedStep s e { s with halted := some x }

variable {port flags task} {s s' : ReservedMachine π τ} {e : ReservedLabel π}
  {h : List (ReservedMachine π τ × ReservedLabel π)}

/-- The ports form a search tree, and the prepared structures can be registered. -/
structure ReservedMachine.Sound (s : ReservedMachine π τ) : Prop where
  table : s.table.Sound
  pending : ∀ i x, s.pc i = .allocated x → s.table.Pending x
  apart : ∀ i x, s.pc i = .allocated x → s.pc (!i) ≠ .allocated x

/-- What a part of the call `i` can do. -/
inductive ReservedEffect (port : UInt32) (i : Bool) (memory : Prop)
    (s s' : ReservedMachine π τ) : Prop
  | pass : s.pc i = .start → ¬ s.Taken port → s'.pc = Function.update s.pc i .checked →
      ¬ s'.Taken port → s'.halted = none → ReservedEffect port i memory s s'
  | refuse : s.pc i = .start → s.Taken port →
      s'.pc = Function.update s.pc i (.returned (.error .notFree)) → s'.Taken port →
      s'.halted = none → ReservedEffect port i memory s s'
  | prepare {x : π} : s.pc i = .checked → memory → s'.pc = Function.update s.pc i (.allocated x) →
      (s'.Taken port ↔ s.Taken port) → s'.halted = none → ReservedEffect port i memory s s'
  | exhaust : s.pc i = .checked → ¬ memory → s'.pc = s.pc → s'.halted ≠ none →
      ReservedEffect port i memory s s'
  | register {x : π} : s.pc i = .allocated x → ¬ s.Taken port →
      s'.pc = Function.update s.pc i (.returned (.ok ())) → s'.Taken port → s'.halted = none →
      ReservedEffect port i memory s s'
  | panic {x : π} : s.pc i = .allocated x → s.Taken port → s'.pc = s.pc → s'.halted ≠ none →
      ReservedEffect port i memory s s'

omit [DecidableEq π] in
theorem ReservedMachine.Sound.not_taken_iff (hs : s.Sound) :
    ¬ s.Taken port ↔ s.table.ipcPortLookup port = .ok none := by
  obtain ⟨r, hr, -⟩ := hs.table.lookup port
  rw [Taken, hr]
  cases r with
  | none => simp
  | some x => simp

theorem update_not {α : Type} (f : Bool → α) (i : Bool) (a : α) :
    Function.update f i a (!i) = f (!i) := Function.update_of_ne i.not_ne_self _ _

omit [DecidableEq π] in
theorem ReservedMachine.Sound.update {i : Bool} {t : PortTable π τ} {pc : ReservedPc π}
    {halted : Option Halt} (ht : t.Sound) (ho : ∀ y, s.pc (!i) = .allocated y → t.Pending y)
    (hs : ∀ x, pc = .allocated x → t.Pending x ∧ s.pc (!i) ≠ .allocated x) :
    ReservedMachine.Sound ⟨t, Function.update s.pc i pc, halted⟩ := by
  have hc : ∀ j, j = i ∨ j = !i := fun j => (eq_or_ne j i).imp_right Bool.eq_not.mpr
  refine ⟨ht, fun j x hj => ?_, fun j x hj => ?_⟩
  · dsimp only at hj
    rcases hc j with rfl | rfl
    · rw [Function.update_self] at hj
      exact (hs x hj).1
    · rw [update_not] at hj
      exact ho x hj
  · dsimp only at hj ⊢
    rcases hc j with rfl | rfl
    · rw [Function.update_self] at hj
      rw [update_not]
      exact (hs x hj).2
    · rw [update_not] at hj
      rw [Bool.not_not, Function.update_self]
      exact fun hpc => (hs x hpc).2 hj

theorem ReservedMachine.Sound.effect (hs : s.Sound) (hpt : port ≠ ipcPortUnknown)
    (hrs : port < ipcPortUnreservedStart) (hst : ReservedStep port flags task s e s') :
    ReservedEffect port e.call (e.mem = true ∧ e.new ≠ none) s s' ∧ s'.Sound := by
  have hv : ¬ (port = ipcPortUnknown ∨ ipcPortUnreservedStart ≤ port) :=
    fun hp => hp.elim hpt (UInt32.not_le.mpr hrs)
  have ho : ∀ y, s.pc (!e.call) = .allocated y → s.table.Pending y := hs.pending _
  cases hst with
  | @step t pc hrun hcl hsp hpr =>
    cases hpc : s.pc e.call with
    | start =>
      rw [hpc, reservedStep, if_neg hv] at hpr
      obtain ⟨old, hold, hpr⟩ := bind_eq_ok.mp hpr
      cases old with
      | some y =>
        cases hpr
        exact ⟨.refuse hpc ⟨y, hold⟩ rfl ⟨y, hold⟩ rfl, .update hs.table ho (by simp)⟩
      | none =>
        cases hpr
        have hf := hs.not_taken_iff.mpr hold
        exact ⟨.pass hpc hf rfl hf rfl, .update hs.table ho (by simp)⟩
    | checked =>
      rw [hpc] at hpr
      obtain ⟨⟨t, x⟩, hal, hpr⟩ := bind_eq_ok.mp hpr
      cases hpr
      obtain ⟨hmem, hn, ha⟩ := (hs.table.alloc_guarded fun y hy => (hsp y hy).1).yields _ hal
      -- the new structure is in neither the tree nor the hands of the other call
      obtain ⟨hx, hne⟩ := hsp x hn
      have hs' : Sound ⟨t, Function.update s.pc e.call (.allocated x), none⟩ := by
        refine .update ha.sound (fun y hy => ha.pendingOf y (ho y hy)) fun y hy => ?_
        cases hy
        exact ⟨ha.pending, hne⟩
      refine ⟨.prepare hpc hmem rfl ?_ rfl, hs'⟩
      rw [Taken, Taken, ha.lookup hs.table hx]
    | allocated x =>
      rw [hpc] at hpr
      obtain ⟨⟨t, r⟩, hreg, hpr⟩ := bind_eq_ok.mp hpr
      rcases (hs.table.register (hs.pending _ x hpc)).yields _ hreg with
        ⟨-, hr⟩ | ⟨hf, hr, has⟩
      -- a failed registration is a panic, not a part that returns
      · cases hr
        cases hpr
      · subst hr
        cases hpr
        refine ⟨.register hpc (hs.not_taken_iff.mpr hf) rfl ⟨x, ?_⟩ rfl,
          .update has.sound (fun y hy => ?_) (by simp)⟩
        · rw [has.lookup hs.table (hs.pending _ x hpc), if_pos rfl]
        · refine has.pendingOf y ?_ (ho y hy)
          rintro rfl
          exact hs.apart _ y hpc hy
    | returned r => exact absurd hpc (hcl r)
  | @halt x hrun hcl hsp hpr =>
    have hs' : Sound { s with halted := some x } := ⟨hs.table, hs.pending, hs.apart⟩
    refine ⟨?_, hs'⟩
    cases hpc : s.pc e.call with
    | start =>
      -- the lookup of a search tree returns, whatever it finds
      obtain ⟨old, hold, -⟩ := hs.table.lookup port
      rw [hpc, reservedStep, if_neg hv, hold] at hpr
      cases old with
      | some y | none => cases hpr
    | checked =>
      refine .exhaust hpc (fun hmem => ?_) rfl (Option.some_ne_none x)
      obtain ⟨c, hc⟩ := (hs.table.alloc_guarded fun y hy => (hsp y hy).1).returns hmem
      rw [hpc, reservedStep, hc] at hpr
      cases hpr
    | allocated y =>
      obtain ⟨c, hc, ⟨ht, -⟩ | ⟨-, hr, -⟩⟩ := hs.table.register (hs.pending _ y hpc)
      · exact .panic hpc ht rfl (Option.some_ne_none x)
      · obtain ⟨t, r⟩ := c
        subst hr
        rw [hpc, reservedStep, hc] at hpr
        cases hpr
    | returned r => exact absurd hpc (hcl r)

/-! ## The race -/

/-- The calls have been apart so far: while the port is free, one of them has not looked it up; once
it is taken, one call has it and the other one has not looked it up or was refused. -/
def ReservedMachine.Fair (s : ReservedMachine π τ) (port : UInt32) : Prop := s.halted = none ∧ ∃ i,
    (¬ s.Taken port ∧ (s.pc i = .start ∨ (s.pc i).Between) ∧ s.pc (!i) = .start) ∨
    (s.Taken port ∧ s.pc i = .returned (.ok ()) ∧
      (s.pc (!i) = .start ∨ s.pc (!i) = .returned (.error .notFree)))

/-- The calls have not been apart: one of them is on its way to a registration that will fail, or
the kernel has halted. -/
def ReservedMachine.Spoiled (s : ReservedMachine π τ) (port : UInt32) : Prop :=
  ∃ i, (s.pc i).Between ∧ (s.halted ≠ none ∨ (¬ s.Taken port ∧ (s.pc (!i)).Between) ∨
    (s.Taken port ∧ s.pc (!i) = .returned (.ok ())))

section Race

variable {i : Bool} {memory : Prop}

section

omit [DecidableEq π]

theorem ReservedEffect.not_returned (he : ReservedEffect port i memory s s')
    (r : Except Errno Unit) : s.pc i ≠ .returned r := by
  intro hpc
  cases he with
  | pass h | refuse h | prepare h | exhaust h | register h | panic h =>
    rw [hpc] at h
    cases h

theorem ReservedMachine.Fair.cases (hf : s.Fair port) (hi : ∀ r, s.pc i ≠ .returned r) :
    (¬ s.Taken port ∧ s.pc i = .start ∧ (s.pc (!i) = .start ∨ (s.pc (!i)).Between)) ∨
    (¬ s.Taken port ∧ (s.pc i).Between ∧ s.pc (!i) = .start) ∨
    (s.Taken port ∧ s.pc i = .start ∧ s.pc (!i) = .returned (.ok ())) := by
  obtain ⟨-, j, hj⟩ := hf
  rcases eq_or_ne j i with rfl | hij
  · rcases hj with ⟨hfr, hs | hb, ho⟩ | ⟨-, hd, -⟩
    · exact .inl ⟨hfr, hs, .inl ho⟩
    · exact .inr (.inl ⟨hfr, hb, ho⟩)
    · exact absurd hd (hi _)
  · obtain rfl : j = !i := Bool.eq_not.mpr hij
    rw [Bool.not_not] at hj
    rcases hj with ⟨hfr, ho, hs⟩ | ⟨ht, hd, hs | hl⟩
    · exact .inl ⟨hfr, hs, ho⟩
    · exact .inr (.inr ⟨ht, hs, hd⟩)
    · exact absurd hl (hi _)

theorem ReservedMachine.Fair.effect (hf : s.Fair port) (he : ReservedEffect port i memory s s') :
    (s'.Fair port ∧ (s.pc i = .start → ¬ (s.pc (!i)).Between) ∧ (s.pc i = .checked → memory)) ∨
    (s'.Spoiled port ∧
      ¬ ((s.pc i = .start → ¬ (s.pc (!i)).Between) ∧ (s.pc i = .checked → memory))) := by
  have hcs := hf.cases he.not_returned
  cases he with
  | pass hpc hfr hpc' hfr' hrun =>
    have hsl : (s'.pc i).Between := by
      rw [hpc', Function.update_self]
      trivial
    rcases hcs with ⟨-, -, ho | ho⟩ | ⟨-, hb, -⟩ | ⟨htk, -, -⟩
    · refine .inl ⟨⟨hrun, i, .inl ⟨hfr', .inr hsl, ?_⟩⟩, fun _ => ?_, fun hc => ?_⟩
      · rw [hpc', update_not, ho]
      · rw [ho]
        exact id
      · rw [hpc] at hc
        cases hc
    -- both calls have found the port free
    · refine .inr ⟨⟨i, hsl, .inr (.inl ⟨hfr', ?_⟩)⟩, fun ha => ha.1 hpc ho⟩
      rwa [hpc', update_not]
    · rw [hpc] at hb
      cases hb
    · exact absurd htk hfr
  | refuse hpc htk hpc' htk' hrun =>
    rcases hcs with ⟨hfr, -, -⟩ | ⟨hfr, -, -⟩ | ⟨-, -, ho⟩
    · exact absurd htk hfr
    · exact absurd htk hfr
    · refine .inl ⟨⟨hrun, !i, .inr ⟨htk', ?_, .inr ?_⟩⟩, fun _ => ?_, fun hc => ?_⟩
      · rw [hpc', update_not, ho]
      · rw [hpc', Bool.not_not, Function.update_self]
      · rw [ho]
        exact id
      · rw [hpc] at hc
        cases hc
  | prepare hpc hmem hpc' htk hrun =>
    rcases hcs with ⟨-, hs, -⟩ | ⟨hfr, -, ho⟩ | ⟨-, hs, -⟩
    · rw [hpc] at hs
      cases hs
    · refine .inl ⟨⟨hrun, i, .inl ⟨fun ht => hfr (htk.mp ht), .inr ?_, ?_⟩⟩, fun _ => ?_,
        fun _ => hmem⟩
      · rw [hpc', Function.update_self]
        trivial
      · rw [hpc', update_not, ho]
      · rw [ho]
        exact id
    · rw [hpc] at hs
      cases hs
  | exhaust hpc hmem hpc' hh =>
    refine .inr ⟨⟨i, ?_, .inl hh⟩, fun ha => hmem (ha.2 hpc)⟩
    rw [hpc', hpc]
    trivial
  | register hpc hfr hpc' htk hrun =>
    rcases hcs with ⟨-, hs, -⟩ | ⟨-, -, ho⟩ | ⟨htk, -, -⟩
    · rw [hpc] at hs
      cases hs
    · refine .inl ⟨⟨hrun, i, .inr ⟨htk, ?_, .inl ?_⟩⟩, fun _ => ?_, fun hc => ?_⟩
      · rw [hpc', Function.update_self]
      · rw [hpc', update_not, ho]
      · rw [ho]
        exact id
      · rw [hpc] at hc
        cases hc
    · exact absurd htk hfr
  | panic hpc htk hpc' hh =>
    -- once the port is taken in a fair race, a call that has not returned is at its lookup
    rcases hcs with ⟨hfr, -, -⟩ | ⟨hfr, -, -⟩ | ⟨-, hs, -⟩
    · exact absurd htk hfr
    · exact absurd htk hfr
    · rw [hpc] at hs
      cases hs

theorem ReservedMachine.Spoiled.effect (hf : s.Spoiled port) (hrun : s.halted = none)
    (he : ReservedEffect port i memory s s') : s'.Spoiled port := by
  -- the call that moves is on its way itself, as one that has returned does not move
  obtain ⟨hi, hr⟩ : (s.pc i).Between ∧ ((¬ s.Taken port ∧ (s.pc !i).Between) ∨
      (s.Taken port ∧ s.pc (!i) = .returned (.ok ()))) := by
    obtain ⟨j, hj, hr⟩ := hf
    have hr := hr.resolve_left fun hh => hh hrun
    rcases eq_or_ne j i with rfl | hij
    · exact ⟨hj, hr⟩
    · obtain rfl : j = !i := Bool.eq_not.mpr hij
      rw [Bool.not_not] at hr
      rcases hr with ⟨hfr, ho⟩ | ⟨-, hd⟩
      · exact ⟨ho, .inl ⟨hfr, hj⟩⟩
      · exact absurd hd (he.not_returned _)
  cases he with
  | pass hpc | refuse hpc =>
    rw [hpc] at hi
    cases hi
  | prepare hpc hmem hpc' ht hh =>
    refine ⟨i, ?_, .inr ?_⟩
    · rw [hpc', Function.update_self]
      trivial
    · rwa [hpc', update_not, ht]
  | exhaust hpc hmem hpc' hh => exact ⟨i, hpc' ▸ hi, .inl hh⟩
  | register hpc hfr hpc' ht hh =>
    rcases hr with ⟨-, ho⟩ | ⟨ht, -⟩
    · refine ⟨!i, ?_, .inr (.inr ⟨ht, ?_⟩)⟩
      · rwa [hpc', update_not]
      · rw [hpc', Bool.not_not, Function.update_self]
    · exact absurd ht hfr
  | panic hpc ht hpc' hh => exact ⟨i, hpc' ▸ hi, .inl hh⟩

end

end Race

theorem ReservedMachine.race {t : PortTable π τ} (ht : t.Sound) (hp : port ≠ ipcPortUnknown)
    (hrs : port < ipcPortUnreservedStart) (hfr : t.ipcPortLookup port = .ok none)
    (hr : Run (ReservedStep port flags task) (.start t) h s) :
    s.Sound ∧ ((s.Fair port ∧ ∀ e ∈ h, e.1.Apart e.2) ∨
      (s.Spoiled port ∧ ¬ ∀ e ∈ h, e.1.Apart e.2)) := by
  have h₀ : (start t).Sound := ⟨ht, nofun, nofun⟩
  refine hr.invariant
    ⟨h₀, .inl ⟨⟨rfl, true, .inl ⟨h₀.not_taken_iff.mpr hfr, .inl rfl, rfl⟩⟩, nofun⟩⟩ ?_
  rintro h s e s' - ⟨hs, hrc⟩ hst
  have hrun : s.halted = none := by
    cases hst with
    | step hrun | halt hrun => exact hrun
  obtain ⟨he, hs'⟩ := hs.effect hp hrs hst
  refine ⟨hs', ?_⟩
  simp only [forall_mem_append, forall_mem_singleton]
  rcases hrc with ⟨hf, ha⟩ | ⟨hsp, ha⟩
  · rcases hf.effect he with ⟨hf', hl, hmem⟩ | ⟨hsp', hn⟩
    · exact .inl ⟨hf', ha, hl, hmem⟩
    · exact .inr ⟨hsp', fun hall => hn ⟨hall.2.lookup, hall.2.memory⟩⟩
  · exact .inr ⟨hsp.effect hrun he, fun hall => ha hall.1⟩

/-! ## What the calls return -/

/-- **One of two calls for a reserved port gets it and the other one is refused**, and the kernel
does not halt, exactly if neither looks the number up while the other is between its lookup and its
registration, and there is memory for the structures. -/
theorem reserved_once {t : PortTable π τ} (ht : t.Sound) (hport : port ≠ ipcPortUnknown)
    (hreserved : port < ipcPortUnreservedStart) (hfree : t.ipcPortLookup port = .ok none)
    (hr : Run (ReservedStep port flags task) (.start t) h s) (hend : s.Ended) :
    s.OneWins ↔ ∀ e ∈ h, e.1.Apart e.2 := by
  obtain ⟨-, ⟨hf, ha⟩ | ⟨⟨i, hi, -⟩, ha⟩⟩ := ReservedMachine.race ht hport hreserved hfree hr
  · refine iff_of_true ?_ ha
    obtain ⟨hrun, i, hi⟩ := hf
    have hend := hend.resolve_left fun hh => hh hrun
    refine ⟨hrun, i, ?_⟩
    obtain ⟨r, ho⟩ := hend !i
    rcases hi with ⟨-, -, hs⟩ | ⟨-, hd, hs | hl⟩
    · rw [ho] at hs
      cases hs
    · rw [ho] at hs
      cases hs
    · exact ⟨hd, hl⟩
  · refine iff_of_false ?_ ha
    rintro ⟨hrun, j, hj, hn⟩
    -- both calls have returned, but one of them is on its way
    rcases eq_or_ne i j with rfl | hij
    · rw [hj] at hi
      cases hi
    · obtain rfl : i = !j := Bool.eq_not.mpr hij
      rw [hn] at hi
      cases hi

end Steps

/-! ## Runs for the port of the name service -/

def noPorts : PortTable ℕ ℕ :=
  ⟨LinkedTree.empty, fun _ => 0, fun _ => ⟨0, [], .empty⟩, ipcPortUnreservedStart⟩

/-- A step of two calls for the port `1` by one task. -/
abbrev NsStep : ReservedMachine ℕ ℕ → ReservedLabel ℕ → ReservedMachine ℕ ℕ → Prop :=
  ReservedStep 1 (fun _ => 0) fun _ => 1

def ReservedPc.underWay : ReservedPc π → Bool
  | .returned _ => false
  | .start | .checked | .allocated _ => true

omit [DecidableEq π] in
theorem ReservedPc.not_returned {pc : ReservedPc π} (h : pc.underWay) (r : Except Errno Unit) :
    pc ≠ .returned r := by
  rintro rfl
  cases h

/-- One call after the other. -/
theorem reserved_once_serial : ∃ h s, Run NsStep (.start noPorts) h s ∧ s.Ended ∧
    (∀ e ∈ h, e.1.Apart e.2) ∧ s.OneWins := by
  obtain ⟨hs, hn⟩ := PortTable.sound_of_empty (s := noPorts) rfl
  have hr₁ := Run.nil.snoc (ReservedStep.step (s := .start noPorts) (e := ⟨false, true, none⟩) rfl
    (ReservedPc.not_returned (by decide)) nofun rfl : NsStep _ _ _)
  have hr₂ := hr₁.snoc (ReservedStep.step (e := ⟨false, true, some 7⟩) rfl
    (ReservedPc.not_returned (by decide)) (fun x hx => ⟨hn x, nofun⟩) rfl)
  have hr₃ := hr₂.snoc (ReservedStep.step (e := ⟨false, true, none⟩) rfl
    (ReservedPc.not_returned (by decide)) nofun rfl)
  have hr₄ := hr₃.snoc (ReservedStep.step (e := ⟨true, true, none⟩) rfl
    (ReservedPc.not_returned (by decide)) nofun rfl)
  obtain ⟨h, s, hr, hend, ha⟩ : ∃ h s, Run NsStep (.start noPorts) h s ∧ s.Ended ∧
      ∀ e ∈ h, e.1.Apart e.2 := by
    refine ⟨_, _, hr₄, .inr fun i => ?_, ?_⟩
    · cases i with
      | true | false => exact ⟨_, rfl⟩
    · simp only [nil_append, cons_append, forall_mem_cons]
      exact ⟨⟨fun _ => id, nofun⟩, ⟨fun _ => id, fun _ => ⟨rfl, Option.some_ne_none 7⟩⟩,
        ⟨fun _ => id, nofun⟩, ⟨fun _ => id, nofun⟩,
        forall_mem_nil _⟩
  exact ⟨h, s, hr, hend, ha, (reserved_once hs (by decide) (by decide) rfl hr hend).mpr ha⟩

/-- **Both calls find the port free**, and the registration of the second one fails: a panic. -/
theorem reserved_panics : ∃ h s, Run NsStep (.start noPorts) h s ∧
    noPorts.ipcPortLookup 1 = .ok none ∧ s.pc false = .returned (.ok ()) ∧
    s.halted = some .panic ∧ ¬ s.OneWins := by
  obtain ⟨-, hn⟩ := PortTable.sound_of_empty (s := noPorts) rfl
  have hr₁ := Run.nil.snoc (ReservedStep.step (s := .start noPorts) (e := ⟨false, true, none⟩) rfl
    (ReservedPc.not_returned (by decide)) nofun rfl : NsStep _ _ _)
  have hr₂ := hr₁.snoc (ReservedStep.step (e := ⟨true, true, none⟩) rfl
    (ReservedPc.not_returned (by decide)) nofun rfl)
  have hr₃ := hr₂.snoc (ReservedStep.step (e := ⟨false, true, some 7⟩) rfl
    (ReservedPc.not_returned (by decide)) (fun x hx => ⟨hn x, nofun⟩) rfl)
  have hr₄ := hr₃.snoc (ReservedStep.step (e := ⟨true, true, some 8⟩) rfl
    (ReservedPc.not_returned (by decide)) (fun x hx => by
      cases hx
      exact ⟨(PortTable.sound_of_empty rfl).2 8, nofun⟩) rfl)
  have hr₅ := hr₄.snoc (ReservedStep.step (e := ⟨false, true, none⟩) rfl
    (ReservedPc.not_returned (by decide)) nofun rfl)
  have hr₆ := hr₅.snoc (ReservedStep.halt (e := ⟨true, true, none⟩) rfl
    (ReservedPc.not_returned (by decide)) nofun rfl)
  exact ⟨_, _, hr₆, rfl, rfl, rfl, fun hw => by cases hw.1⟩

end Glatt
