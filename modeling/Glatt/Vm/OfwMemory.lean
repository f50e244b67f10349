import Glatt.Core.Error
import Glatt.Lib.Traced

/-!
# Memory that the firmware reports

`ofw_memory_init` of `io/ofw/ofw_memory.c`: the regions that the firmware has available are handed
to `page_insert_pages`, without the range in which the kernel is. Words have `w` bits, and pages
`2 ^ pageShift` bytes.

## Main definitions

* `ofwMemoryInit`: the function
* `Protects`: the kernel is not inserted, and all other memory is

## Main results

* `ofw_memory_protects_iff`: the kernel is protected unless a region encloses it
-/

namespace Glatt

open Imperative Traced List

section

variable (w pageShift skipbegin skipend : ℕ)

/-- One round of the loop: a region of memory, less what is skipped at its ends. -/
def ofwMemoryRange : ℕ × ℕ → Option (ℕ × ℕ)
  | (begin, length) =>
    let stop := (begin + length) % 2 ^ w
    let begin := if skipbegin ≤ begin ∧ begin < skipend then skipend else begin
    let stop := if skipbegin ≤ stop ∧ stop < skipend then skipbegin else stop
    if stop ≤ begin then none else some (begin, (stop - begin) / 2 ^ pageShift)

def ofwMemoryLoop : List (ℕ × ℕ) → Traced (ℕ × ℕ) (Except Errno Unit)
  | [] => pure (.ok ())
  | region :: available => do
    match ofwMemoryRange w pageShift skipbegin skipend region with
    | none => pure ()
    | some range => emit range
    ofwMemoryLoop available

/-- `ofw_memory_init`, on the package `/memory` and its properties `reg` and `available`, for which
there is room for 12 regions each. -/
def ofwMemoryInit (memory : Except Errno Unit) (reg available : Except Errno (List (ℕ × ℕ))) :
    Traced (ℕ × ℕ) (Except Errno Unit) :=
  match memory, reg with
  | .error e, _ => pure (.error e)
  | _, .error e => pure (.error e)
  | .ok (), .ok regions =>
    if 12 < regions.length then halt .panic
    else match available with
      | .error e => pure (.error e)
      | .ok available =>
        if 12 < available.length then halt .panic
        else ofwMemoryLoop w pageShift skipbegin skipend available

def Apart (a b : ℕ) : Prop := b ≤ skipbegin ∨ skipend ≤ a

/-- **The kernel is protected**: no range that is passed has an address of the kernel, every range
lies in a region, and memory of a region apart from the kernel is passed with its whole pages. -/
structure Protects (regions ranges : List (ℕ × ℕ)) : Prop where
  apart : ∀ r ∈ ranges, Apart skipbegin skipend r.1 (r.1 + r.2 * 2 ^ pageShift)
  inside : ∀ r ∈ ranges, ∃ m ∈ regions, m.1 ≤ r.1 ∧ r.1 + r.2 * 2 ^ pageShift ≤ m.1 + m.2
  passed : ∀ m ∈ regions, 0 < m.2 → Apart skipbegin skipend m.1 (m.1 + m.2) →
    (m.1, m.2 / 2 ^ pageShift) ∈ ranges

/-- The region begins before the kernel and does not end in it, and its whole pages reach it. -/
def Encloses (m : ℕ × ℕ) : Prop :=
  m.1 < skipbegin ∧ skipend ≤ m.1 + m.2 ∧ skipbegin < m.1 + m.2 / 2 ^ pageShift * 2 ^ pageShift

end

variable {w pageShift skipbegin skipend : ℕ} {regions : List (ℕ × ℕ)} {m : ℕ × ℕ}

theorem log_ofwMemoryLoop : (ofwMemoryLoop w pageShift skipbegin skipend regions).log =
    regions.filterMap (ofwMemoryRange w pageShift skipbegin skipend) := by
  induction regions with
  | nil => rfl
  | cons m regions ih =>
    rw [ofwMemoryLoop, filterMap_cons]
    cases ofwMemoryRange w pageShift skipbegin skipend m with
    | none => exact ih
    | some range => exact congrArg (range :: ·) ih

section

variable (hsk : skipbegin < skipend) (hm : m.1 + m.2 < 2 ^ w)
include hsk hm

variable (pageShift) in
theorem ofwMemoryRange_spec :
    (ofwMemoryRange w pageShift skipbegin skipend m).elim
      (¬ Encloses pageShift skipbegin skipend m) fun r =>
        (m.1 ≤ r.1 ∧ r.1 + r.2 * 2 ^ pageShift ≤ m.1 + m.2) ∧
        (Apart skipbegin skipend r.1 (r.1 + r.2 * 2 ^ pageShift) ↔
          ¬ Encloses pageShift skipbegin skipend m) := by
  have hb := Nat.div_mul_le_self (skipbegin - m.1) (2 ^ pageShift)
  have hbh := Nat.div_mul_le_self (m.1 + m.2 - skipend) (2 ^ pageShift)
  have hw := Nat.div_mul_le_self m.2 (2 ^ pageShift)
  simp only [ofwMemoryRange, Nat.mod_eq_of_lt hm, Encloses, Apart]
  -- which of the ends of the region are skipped, and whether anything is left of it
  split_ifs
  all_goals
    simp only [Option.elim, Nat.add_sub_cancel_left]
    omega

omit hsk in
theorem ofwMemoryRange_apart (hpos : 0 < m.2) (h : Apart skipbegin skipend m.1 (m.1 + m.2)) :
    ofwMemoryRange w pageShift skipbegin skipend m = some (m.1, m.2 / 2 ^ pageShift) := by
  rw [Apart] at h
  have hb : ¬ (skipbegin ≤ m.1 ∧ m.1 < skipend) := by omega
  have hs : (if skipbegin ≤ m.1 + m.2 ∧ m.1 + m.2 < skipend then skipbegin else m.1 + m.2) =
      m.1 + m.2 := by
    split_ifs <;> omega
  simp only [ofwMemoryRange, Nat.mod_eq_of_lt hm, hs]
  rw [if_neg hb, if_neg (by omega), Nat.add_sub_cancel_left]

end

theorem log_ofwMemoryInit {reg : List (ℕ × ℕ)} :
    (ofwMemoryInit w pageShift skipbegin skipend (.ok ()) (.ok reg) (.ok regions)).log =
      if 12 < reg.length ∨ 12 < regions.length then []
      else regions.filterMap (ofwMemoryRange w pageShift skipbegin skipend) := by
  rw [← log_ofwMemoryLoop]
  simp only [ofwMemoryInit]
  split_ifs <;> first | rfl | omega

/-- **The kernel is protected** exactly if no region encloses it; if there are too many regions
nothing is passed. -/
theorem ofw_memory_protects_iff (hsk : skipbegin < skipend)
    (hregions : ∀ m ∈ regions, m.1 + m.2 < 2 ^ w) {reg : List (ℕ × ℕ)} :
    Protects pageShift skipbegin skipend regions
        (ofwMemoryInit w pageShift skipbegin skipend (.ok ()) (.ok reg) (.ok regions)).log ↔
      if 12 < reg.length ∨ 12 < regions.length then
        ∀ m ∈ regions, 0 < m.2 → ¬ Apart skipbegin skipend m.1 (m.1 + m.2)
      else ∀ m ∈ regions, ¬ Encloses pageShift skipbegin skipend m := by
  rw [log_ofwMemoryInit]
  split_ifs
  · constructor
    · intro h m hm hpos ha
      cases h.passed m hm hpos ha
    · exact fun h => ⟨nofun, nofun, fun m hm hpos ha => absurd ha (h m hm hpos)⟩
  · have hs (m) (hm : m ∈ regions) := ofwMemoryRange_spec pageShift hsk (hregions m hm)
    constructor
    · intro h m hm
      specialize hs m hm
      cases hr : ofwMemoryRange w pageShift skipbegin skipend m with
      | none => rwa [hr] at hs
      | some r =>
        rw [hr] at hs
        exact hs.2.mp (h.apart r (mem_filterMap.mpr ⟨m, hm, hr⟩))
    · intro h
      have hrn : ∀ r ∈ regions.filterMap (ofwMemoryRange w pageShift skipbegin skipend),
          Apart skipbegin skipend r.1 (r.1 + r.2 * 2 ^ pageShift) ∧
            ∃ m ∈ regions, m.1 ≤ r.1 ∧ r.1 + r.2 * 2 ^ pageShift ≤ m.1 + m.2 := by
        intro r hr
        obtain ⟨m, hm, hr⟩ := mem_filterMap.mp hr
        specialize hs m hm
        rw [hr] at hs
        exact ⟨hs.2.mpr (h m hm), m, hm, hs.1⟩
      exact ⟨fun r hr => (hrn r hr).1, fun r hr => (hrn r hr).2, fun m hm hpos ha =>
        mem_filterMap.mpr ⟨m, hm, ofwMemoryRange_apart (hregions m hm) hpos ha⟩⟩

/-- Memory of 64 KiB whose first pages hold the kernel. -/
theorem ofw_memory_protects_iff_low :
    Protects 12 0 0x4000 [(0, 0x10000)]
      (ofwMemoryInit 32 12 0 0x4000 (.ok ()) (.ok []) (.ok [(0, 0x10000)])).log := by
  rw [ofw_memory_protects_iff (by decide) (by decide), if_neg (by decide)]
  simp [Encloses]

/-- **The kernel is handed to the allocator**, if it lies in the middle of memory. -/
theorem ofw_memory_passes_kernel :
    (ofwMemoryInit 32 12 0x4000 0x8000 (.ok ()) (.ok []) (.ok [(0, 0x10000)])).log = [(0, 0x10)] ∧
      ¬ Apart 0x4000 0x8000 0 (0 + 0x10 * 2 ^ 12) := by
  refine ⟨rfl, ?_⟩
  simp [Apart]

end Glatt
