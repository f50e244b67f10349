import Glatt.Vm.PageTree
import Glatt.Vm.Pmap

/-!
# Entries of page tables

What the page table functions do to the entries. `pm.pte v` is the entry for the address `v`, or 0
if there are no tables for it yet; for the addresses that a page table maps, the three indices
determine the page.

## Main definitions

* `Pmap.pte`: the entry for an address

## Main results

* `pte_setPte`: storing an entry changes this entry only
* `pte_setLevel0`, `pte_setLevel1`: new tables change no entry
* `tlbloPteToPa_entry`: the physical address can be read back from an entry
* `pmapMap_pte`, `pmapUnmap_pte`: mapping and unmapping set one entry
* `pmapMap_keeps`: what page tables keep, mapping keeps
-/

namespace Glatt

open Imperative Function

def Pmap.pte (pm : Pmap) (v : UInt64) : UInt64 := (pmapFind pm v).getD 0

def PageAligned (v : UInt64) : Prop := pageOffset v = 0

instance (v : UInt64) : Decidable (PageAligned v) := inferInstanceAs (Decidable (_ = _))

variable {v : UInt64}

theorem PageAligned.toNat (h : PageAligned v) : v.toNat % 8192 = 0 := by
  rw [← toNat_pageOffset, h]
  rfl

theorem PageAligned.floor (h : PageAligned v) : pageFloor v = v := by
  apply UInt64.toNat_inj.mp
  rw [toNat_pageFloor]
  have := h.toNat
  omega

theorem pageAligned_floor (v : UInt64) : PageAligned (pageFloor v) := by
  apply UInt64.toNat_inj.mp
  rw [toNat_pageOffset, toNat_pageFloor]
  exact Nat.mul_mod_left _ _

/-! ## The indices -/

theorem toNat_pmapIndexPte : (pmapIndexPte v).toNat = v.toNat / 2 ^ 13 % 1024 := by
  rw [pmapIndexPte, UInt64.toNat_mod, UInt64.toNat_shiftRight, Nat.shiftRight_eq_div_pow]
  rfl

theorem toNat_pmapIndex1 : (pmapIndex1 v).toNat = v.toNat / 2 ^ 23 % 1024 := by
  rw [pmapIndex1, UInt64.toNat_mod, UInt64.toNat_shiftRight, Nat.shiftRight_eq_div_pow]
  rfl

theorem toNat_pmapIndex0 : (pmapIndex0 v).toNat = v.toNat / 2 ^ 33 % 128 := by
  rw [pmapIndex0, UInt64.toNat_mod, UInt64.toNat_shiftRight, Nat.shiftRight_eq_div_pow]
  rfl

theorem index_floor (v : UInt64) : pmapIndexPte (pageFloor v) = pmapIndexPte v ∧
    pmapIndex1 (pageFloor v) = pmapIndex1 v ∧ pmapIndex0 (pageFloor v) = pmapIndex0 v := by
  simp only [← UInt64.toNat_inj, toNat_pmapIndexPte, toNat_pmapIndex1, toNat_pmapIndex0,
    toNat_pageFloor]
  omega

variable {pm : Pmap}

theorem Pmap.inside_iff :
    ¬ pm.Outside v ↔ pm.pmBase.toNat ≤ v.toNat ∧ v.toNat < pm.pmEnd.toNat := by
  rw [Outside, not_or, UInt64.not_lt, UInt64.not_le, UInt64.le_iff_toNat_le, UInt64.lt_iff_toNat_lt]

theorem eq_of_index_eq {v w : UInt64} (hv : ¬ pm.Outside v) (hw : ¬ pm.Outside w)
    (hva : PageAligned v) (hwa : PageAligned w) (h0 : pmapIndex0 v = pmapIndex0 w)
    (h1 : pmapIndex1 v = pmapIndex1 w) (hp : pmapIndexPte v = pmapIndexPte w) : v = w := by
  have h0 := congrArg UInt64.toNat h0
  have h1 := congrArg UInt64.toNat h1
  have hp := congrArg UInt64.toNat hp
  rw [toNat_pmapIndex0, toNat_pmapIndex0] at h0
  rw [toNat_pmapIndex1, toNat_pmapIndex1] at h1
  rw [toNat_pmapIndexPte, toNat_pmapIndexPte] at hp
  obtain ⟨hv1, hv2⟩ := Pmap.inside_iff.mp hv
  obtain ⟨hw1, hw2⟩ := Pmap.inside_iff.mp hw
  have hend := pm.bounded
  have hva := hva.toNat
  have hwa := hwa.toNat
  apply UInt64.toNat_inj.mp
  omega

/-! ## Storing -/

variable {w : UInt64}

@[simp] theorem setLevel0_outside (pml0 : PmapLev0) :
    (pm.setLevel0 v pml0).Outside w ↔ pm.Outside w := Iff.rfl

@[simp] theorem setLevel1_outside (pml1 : PmapLev1) :
    (pm.setLevel1 v pml1).Outside w ↔ pm.Outside w := by
  unfold Pmap.setLevel1
  split <;> rfl

@[simp] theorem setPte_outside (x : UInt64) : (pm.setPte v x).Outside w ↔ pm.Outside w := by
  unfold Pmap.setPte
  split
  · rfl
  · exact setLevel1_outside _

theorem pte_setLevel0 (h : pm.pmLevel0 (pmapIndex0 v) = none) (w : UInt64) :
    (pm.setLevel0 v fun _ => none).pte w = pm.pte w := by
  unfold Pmap.pte pmapFind
  simp only [setLevel0_outside]
  split
  · rfl
  · by_cases hw : pmapIndex0 w = pmapIndex0 v
    · simp [Pmap.setLevel0, hw, h]
    · simp [Pmap.setLevel0, hw]

theorem pte_setLevel1 {pml0 : PmapLev0} (h0 : pm.pmLevel0 (pmapIndex0 v) = some pml0)
    (h1 : pml0 (pmapIndex1 v) = none) (w : UInt64) :
    (pm.setLevel1 v fun _ => 0).pte w = pm.pte w := by
  unfold Pmap.pte pmapFind
  simp only [setLevel1_outside]
  split
  · rfl
  · by_cases hw : pmapIndex0 w = pmapIndex0 v
    · by_cases hw1 : pmapIndex1 w = pmapIndex1 v
      · simp [Pmap.setLevel1, Pmap.setLevel0, h0, hw, hw1, h1]
      · simp [Pmap.setLevel1, Pmap.setLevel0, h0, hw, hw1]
    · simp [Pmap.setLevel1, Pmap.setLevel0, h0, hw]

theorem exists_tables {v x : UInt64} (h : pmapFind pm v = some x) :
    ¬ pm.Outside v ∧ ∃ pml0 pml1, pm.pmLevel0 (pmapIndex0 v) = some pml0 ∧
      pml0 (pmapIndex1 v) = some pml1 ∧ pml1 (pmapIndexPte v) = x := by
  unfold pmapFind at h
  split at h
  · cases h
  · rename_i hin
    simp only [Option.bind_eq_bind, Option.bind_eq_some_iff] at h
    obtain ⟨pml0, h0, pml1, h1, hx⟩ := h
    exact ⟨hin, pml0, pml1, h0, h1, Option.some.inj hx⟩

theorem pte_setPte {v x : UInt64} (h : pmapFind pm v = some x) (hv : PageAligned v) {w : UInt64}
    (hwa : PageAligned w) (y : UInt64) :
    (pm.setPte v y).pte w = if w = v then y else pm.pte w := by
  obtain ⟨hin, pml0, pml1, h0, h1, -⟩ := exists_tables h
  have hs : pm.setPte v y = pm.setLevel0 v (update pml0 (pmapIndex1 v)
      (some (update pml1 (pmapIndexPte v) y))) := by
    simp [Pmap.setPte, Pmap.setLevel1, h0, h1]
  rw [hs]
  unfold Pmap.pte pmapFind
  simp only [setLevel0_outside]
  by_cases hw : pm.Outside w
  · have hne : w ≠ v := fun e => hin (e ▸ hw)
    rw [if_pos hw, if_neg hne, if_pos hw]
  · rw [if_neg hw, if_neg hw]
    by_cases hi0 : pmapIndex0 w = pmapIndex0 v
    · by_cases hi1 : pmapIndex1 w = pmapIndex1 v
      · by_cases hip : pmapIndexPte w = pmapIndexPte v
        · obtain rfl := eq_of_index_eq hw hin hwa hv hi0 hi1 hip
          simp [Pmap.setLevel0]
        · have hne : w ≠ v := fun e => hip (e ▸ rfl)
          simp [Pmap.setLevel0, hi0, hi1, hip, hne, h0, h1]
      · have hne : w ≠ v := fun e => hi1 (e ▸ rfl)
        simp [Pmap.setLevel0, hi0, hi1, hne, h0]
    · have hne : w ≠ v := fun e => hi0 (e ▸ rfl)
      simp [Pmap.setLevel0, hi0, hne]

/-! ## Physical addresses in entries -/

theorem toNat_tlbloPaToPfn {f : ℕ} (hf : f < frameEnd) :
    (tlbloPaToPfn (frameAddr f)).toNat = 128 * f := by
  rw [frameEnd] at hf
  have hm : tlbloPfnMask.toNat = (2 ^ 24 - 1) <<< 6 := by decide
  have hs : (frameAddr f).toNat >>> 12 <<< 6 = (2 * f) <<< 6 := by
    rw [toNat_frameAddr (by omega)]
    congr 1
    omega
  rw [tlbloPaToPfn, UInt64.toNat_and, UInt64.toNat_shiftLeft, UInt64.toNat_shiftRight, hm]
  simp only [UInt64.reduceToNat]
  rw [hs, Nat.mod_eq_of_lt (by rw [Nat.shiftLeft_eq]; omega), ← Nat.shiftLeft_and_distrib,
    Nat.and_two_pow_sub_one_eq_mod]
  omega

def mapFlags (global : Bool) : UInt64 := (pgV ||| if global then pgG else 0) ||| pgCCnc

variable {global : Bool}

theorem toNat_mapFlags : (mapFlags global).toNat = 26 + if global then 1 else 0 := by
  cases global <;> decide

theorem toNat_entry {f : ℕ} (hf : f < frameEnd) (global : Bool) :
    (tlbloPaToPfn (frameAddr f) ||| mapFlags global).toNat =
      128 * f + (26 + if global then 1 else 0) := by
  have hp := toNat_tlbloPaToPfn hf
  have hs : 128 * f = (2 * f) <<< 6 := by
    rw [Nat.shiftLeft_eq]
    omega
  rw [UInt64.toNat_or, hp, toNat_mapFlags, hs, ← Nat.shiftLeft_add_eq_or_of_lt]
  split <;> decide

theorem tlbloPteToPa_entry {f : ℕ} (hf : f < frameEnd) :
    tlbloPteToPa (tlbloPaToPfn (frameAddr f) ||| mapFlags global) = frameAddr f := by
  have he := toNat_entry hf global
  rw [frameEnd] at hf
  have hm : tlbloPfnMask.toNat >>> 6 = 2 ^ 24 - 1 := by decide
  have hs : (128 * f + (26 + if global then 1 else 0)) >>> 6 = 2 * f := by
    rw [Nat.shiftRight_eq_div_pow]
    split <;> omega
  apply UInt64.toNat_inj.mp
  rw [tlbloPteToPa, UInt64.toNat_shiftLeft, UInt64.toNat_shiftRight, UInt64.toNat_and, he]
  simp only [UInt64.reduceToNat, Nat.reduceMod]
  rw [Nat.shiftRight_and_distrib, hm, Nat.and_two_pow_sub_one_eq_mod, toNat_frameAddr (by omega)]
  omega

theorem pteValid_entry (pfn : UInt64) : pteValid (pfn ||| mapFlags global) := by
  have hb : (mapFlags global).toNat.testBit 1 = true := by
    cases global <;> decide
  apply UInt64.toNat_inj.mp
  rw [UInt64.toNat_and, UInt64.toNat_or, show pgV.toNat = 2 ^ 1 from rfl, Nat.and_two_pow,
    Nat.testBit_or, hb, Bool.or_true]
  rfl

theorem not_pteValid_zero : ¬ pteValid 0 := by decide

/-! ## What the functions do to the entries -/

variable {ν : Type} [DecidableEq ν] {kernelVm : ν} {vm : ν} {v page : UInt64} {s s' : MemState ν}

/-- No entry of any address space has changed. -/
structure PteSame (s s' : MemState ν) : Prop where
  pte : ∀ vm w, (s'.pmap vm).pte w = (s.pmap vm).pte w
  outside : ∀ vm w, (s'.pmap vm).Outside w ↔ (s.pmap vm).Outside w

/-- The entry for one address in one address space has been set, and no other has changed. -/
structure PteSet (s s' : MemState ν) (vm : ν) (v x : UInt64) : Prop where
  pte : ∀ vm' w, PageAligned w → (s'.pmap vm').pte w =
    if vm' = vm ∧ w = v then x else (s.pmap vm').pte w
  outside : ∀ vm' w, (s'.pmap vm').Outside w ↔ (s.pmap vm').Outside w

omit [DecidableEq ν] in
theorem pteSame_of_pmap (h : s'.pmap = s.pmap) : PteSame s s' :=
  ⟨fun vm w => by rw [h], fun vm w => by rw [h]⟩

omit [DecidableEq ν] in
theorem PteSame.trans {s'' : MemState ν} (h : PteSame s s') (h' : PteSame s' s'') :
    PteSame s s'' :=
  ⟨fun vm w => (h'.pte vm w).trans (h.pte vm w),
    fun vm w => (h'.outside vm w).trans (h.outside vm w)⟩

theorem PteSame.trans_set {s'' : MemState ν} {x : UInt64} (h : PteSame s s')
    (h' : PteSet s' s'' vm v x) : PteSet s s'' vm v x :=
  ⟨fun vm' w hw => by rw [h'.pte vm' w hw, h.pte vm' w],
    fun vm' w => (h'.outside vm' w).trans (h.outside vm' w)⟩

theorem PteSet.trans_same {s'' : MemState ν} {x : UInt64} (h : PteSet s s' vm v x)
    (h' : PteSame s' s'') : PteSet s s'' vm v x :=
  ⟨fun vm' w hw => by rw [h'.pte vm' w, h.pte vm' w hw],
    fun vm' w => (h'.outside vm' w).trans (h.outside vm' w)⟩

theorem pteSame_setPmap (hp : ∀ w, pm.pte w = (s.pmap vm).pte w)
    (ho : ∀ w, pm.Outside w ↔ (s.pmap vm).Outside w) : PteSame s (s.setPmap vm pm) := by
  constructor
  · intro vm' w
    by_cases h : vm' = vm
    · subst h
      simpa [MemState.setPmap] using hp w
    · simp [MemState.setPmap, h]
  · intro vm' w
    by_cases h : vm' = vm
    · subst h
      simpa [MemState.setPmap] using ho w
    · simp [MemState.setPmap, h]

theorem pteSet_setPte {x y : UInt64} (h : pmapFind (s.pmap vm) v = some x) (hv : PageAligned v) :
    PteSet s (s.setPmap vm ((s.pmap vm).setPte v y)) vm v y := by
  constructor
  · intro vm' w hw
    by_cases hvm : vm' = vm
    · subst hvm
      simpa [MemState.setPmap] using pte_setPte h hv hw y
    · simp [MemState.setPmap, hvm]
  · intro vm' w
    by_cases hvm : vm' = vm
    · subst hvm
      simp [MemState.setPmap]
    · simp [MemState.setPmap, hvm]

omit [DecidableEq ν] in
theorem pmapAllocLevel_pmap : Yields (pmapAllocLevel s) fun r => r.1.pmap = s.pmap := by
  rw [pmapAllocLevel]
  refine yields_bind_of_forall ?_
  rintro ⟨-, r⟩
  cases r with
  | error e | ok tmpaddr => exact .ret rfl

theorem pmapAllocLevel0_pte :
    Yields (pmapAllocLevel0 vm v s) fun r => PteSame s r.1 ∧
      (r.2 = .ok () → ((r.1.pmap vm).pmLevel0 (pmapIndex0 v)).isSome) := by
  unfold pmapAllocLevel0
  split
  · rename_i pml0 h
    exact .ret ⟨pteSame_of_pmap rfl, fun _ => by rw [h]; rfl⟩
  · rename_i h
    refine pmapAllocLevel_pmap.bind ?_
    rintro ⟨s₁, r⟩ hp
    cases r with
    | error e => exact .ret ⟨pteSame_of_pmap hp, nofun⟩
    | ok _ =>
      refine .ret ⟨(pteSame_of_pmap hp).trans (pteSame_setPmap ?_ ?_), fun _ => ?_⟩
      · rw [← hp] at h
        exact pte_setLevel0 h
      · exact fun w => setLevel0_outside _
      · simp [MemState.setPmap, Pmap.setLevel0]

theorem pmapAllocLevel1_pte (h0 : ((s.pmap vm).pmLevel0 (pmapIndex0 v)).isSome)
    (hin : ¬ (s.pmap vm).Outside v) :
    Yields (pmapAllocLevel1 vm v s) fun r => PteSame s r.1 ∧
      (r.2 = .ok () → (pmapFind (r.1.pmap vm) v).isSome) := by
  obtain ⟨pml0, h0⟩ := Option.isSome_iff_exists.mp h0
  unfold pmapAllocLevel1
  split
  · rename_i pml1 h
    refine .ret ⟨pteSame_of_pmap rfl, fun _ => ?_⟩
    rw [h0, Option.bind_some] at h
    simp [pmapFind, hin, h0, h]
  · rename_i h
    rw [h0] at h
    refine pmapAllocLevel_pmap.bind ?_
    rintro ⟨s₁, r⟩ hp
    dsimp only at hp
    cases r with
    | error e => exact .ret ⟨pteSame_of_pmap hp, nofun⟩
    | ok _ =>
      refine .ret ⟨(pteSame_of_pmap hp).trans (pteSame_setPmap ?_ ?_), fun _ => ?_⟩
      · rw [← hp] at h0
        exact pte_setLevel1 h0 h
      · exact fun w => setLevel1_outside _
      · rw [← hp] at h0 hin
        have hin' : ¬ ((s₁.pmap vm).setLevel1 v fun _ => 0).Outside v := by
          rwa [setLevel1_outside]
        simp only [MemState.setPmap, update_self, pmapFind, if_neg hin']
        simp [Pmap.setLevel1, h0, Pmap.setLevel0]

theorem pmapAllocPte_pte (hin : ¬ (s.pmap vm).Outside v) :
    Yields (pmapAllocPte vm v s) fun r => PteSame s r.1 ∧
      (r.2 = .ok () → (pmapFind (r.1.pmap vm) v).isSome) := by
  rw [pmapAllocPte]
  refine pmapAllocLevel0_pte.bind ?_
  rintro ⟨s₁, r⟩ ⟨hs, h0⟩
  cases r with
  | error e => exact .ret ⟨hs, nofun⟩
  | ok _ =>
    refine (pmapAllocLevel1_pte (h0 rfl) (mt (hs.outside vm v).mp hin)).mono ?_
    rintro r ⟨hs', hf⟩
    exact ⟨hs.trans hs', hf⟩

def entryFor (kernelVm vm : ν) (page : UInt64) : UInt64 :=
  tlbloPaToPfn (pageAddress page) ||| mapFlags (decide (vm = kernelVm))

theorem pteValid_entryFor : pteValid (entryFor kernelVm vm page) := pteValid_entry _

theorem pmapMap_pte (hv : PageAligned v) :
    Yields (pmapMap kernelVm vm v page s) fun r =>
      (r = (s, .error .notPermitted) ∧ (s.pmap vm).Outside v) ∨
      (r.2 = .ok () ∧ ¬ (s.pmap vm).Outside v ∧ PteSet s r.1 vm v (entryFor kernelVm vm page)) := by
  rw [pmapMap]
  split
  · rename_i ho
    exact .ret (.inl ⟨rfl, ho⟩)
  · rename_i hin
    refine (pmapAllocPte_pte hin).bind ?_
    rintro ⟨s₁, r⟩ ⟨hs, hf⟩
    cases r with
    | error e => exact yields_error
    | ok _ =>
      obtain ⟨x, hx⟩ := Option.isSome_iff_exists.mp (hf rfl)
      unfold pmapUpdate
      simp only [hv.floor, hx]
      split
      · exact yields_error
      · refine .ret (.inr ⟨rfl, hin, hs.trans_set ?_⟩)
        have := pteSet_setPte (y := entryFor kernelVm vm page) hx hv
        simpa [entryFor, mapFlags] using this

theorem pmapMap_keeps {I : MemState ν → Prop}
    (hl : ∀ s, I s → Yields (pmapAllocLevel s) fun r => I r.1)
    (hset : ∀ s pm, I s → I (s.setPmap vm pm)) (h : I s) :
    Yields (pmapMap kernelVm vm v page s) fun r => I r.1 := by
  have h0 : ∀ s, I s → Yields (pmapAllocLevel0 vm v s) fun r => I r.1 := by
    intro s hs
    unfold pmapAllocLevel0
    split
    · exact .ret hs
    · refine (hl s hs).bind ?_
      rintro ⟨s₁, r⟩ hs₁
      cases r with
      | error e => exact .ret hs₁
      | ok _ => exact .ret (hset s₁ _ hs₁)
  have h1 : ∀ s, I s → Yields (pmapAllocLevel1 vm v s) fun r => I r.1 := by
    intro s hs
    unfold pmapAllocLevel1
    split
    · exact .ret hs
    · refine (hl s hs).bind ?_
      rintro ⟨s₁, r⟩ hs₁
      cases r with
      | error e => exact .ret hs₁
      | ok _ => exact .ret (hset s₁ _ hs₁)
  rw [pmapMap]
  split
  · exact .ret h
  refine Yields.bind (P := fun r => I r.1) ?_ ?_
  · refine (h0 s h).bind ?_
    rintro ⟨s₁, r⟩ hs₁
    cases r with
    | error e => exact .ret hs₁
    | ok _ => exact h1 s₁ hs₁
  · rintro ⟨s₁, r⟩ hs₁
    cases r with
    | error e => exact yields_error
    | ok _ =>
      refine Yields.bind ?_ fun s₂ hs₂ => .ret hs₂
      unfold pmapUpdate
      dsimp only
      split
      · exact yields_error
      · split
        · exact yields_error
        · exact .ret (hset s₁ _ hs₁)

theorem pmapUnmap_pte (vm : ν) (s : MemState ν) (hv : PageAligned v) :
    (pmapUnmap vm v s = (s, .error .notFound) ∧ pmapFind (s.pmap vm) v = none) ∨
    (pmapUnmap vm v s = (s, .ok ()) ∧ (pmapFind (s.pmap vm) v).isSome ∧
      ¬ pteValid ((s.pmap vm).pte v)) ∨
    ((pmapUnmap vm v s).2 = .ok () ∧ pteValid ((s.pmap vm).pte v) ∧
      (pmapUnmap vm v s).1 = s.setPmap vm ((s.pmap vm).setPte v 0) ∧
      PteSet s (pmapUnmap vm v s).1 vm v 0) := by
  unfold pmapUnmap
  split
  · exact .inl ⟨rfl, ‹_›⟩
  · rename_i x hx
    have hp : (s.pmap vm).pte v = x := by rw [Pmap.pte, hx]; rfl
    split
    · exact .inr (.inr ⟨rfl, by rwa [hp], rfl, pteSet_setPte hx hv⟩)
    · exact .inr (.inl ⟨rfl, by rw [hx]; rfl, by rwa [hp]⟩)

theorem inside_floor (h : ¬ pm.Outside v) : ¬ pm.Outside (pageFloor v) := by
  rw [Pmap.inside_iff] at h ⊢
  rw [toNat_pageFloor]
  have := pm.aligned
  omega

theorem pmapFind_floor (h : ¬ pm.Outside v) : pmapFind pm (pageFloor v) = pmapFind pm v := by
  obtain ⟨hp, h1, h0⟩ := index_floor v
  simp only [pmapFind, if_neg h, if_neg (inside_floor h), hp, h1, h0]

theorem setPte_floor (x : UInt64) : pm.setPte (pageFloor v) x = pm.setPte v x := by
  obtain ⟨hp, h1, h0⟩ := index_floor v
  simp only [Pmap.setPte, Pmap.setLevel1, Pmap.setLevel0, hp, h1, h0]

theorem pmapUnmap_floor (h : ¬ (s.pmap vm).Outside v) :
    pmapUnmap vm (pageFloor v) s = pmapUnmap vm v s := by
  simp only [pmapUnmap, pmapFind_floor h, setPte_floor]

theorem pmapMap_floor (h : ¬ (s.pmap vm).Outside v) :
    pmapMap kernelVm vm (pageFloor v) page s = pmapMap kernelVm vm v page s := by
  obtain ⟨-, h1, h0⟩ := index_floor v
  have ha : pmapAllocPte vm (pageFloor v) s = pmapAllocPte vm v s := by
    simp only [pmapAllocPte, pmapAllocLevel0, pmapAllocLevel1, Pmap.setLevel0, Pmap.setLevel1, h1,
      h0]
  simp only [pmapMap, if_neg h, if_neg (inside_floor h), ha, pmapUpdate,
    (pageAligned_floor v).floor]

/-! ## Mapping pages -/

theorem pmapFind_inside {x : UInt64} (h : pmapFind pm v = some x) : ¬ pm.Outside v := by
  intro ho
  rw [pmapFind, if_pos ho] at h
  cases h

theorem pmapFind_empty (h : ∀ i, pm.pmLevel0 i = none) : pmapFind pm v = none := by
  rw [pmapFind]
  split
  · rfl
  · rw [h]
    rfl

theorem pmapFind_of_pteValid (h : pteValid (pm.pte v)) : pmapFind pm v = some (pm.pte v) := by
  rw [Pmap.pte] at h ⊢
  cases hf : pmapFind pm v with
  | none =>
    rw [hf] at h
    exact absurd h not_pteValid_zero
  | some x => rfl

theorem Pmap.not_direct (h : ¬ pm.Outside v) : ¬ pmapIsDirect v := by
  rw [inside_iff] at h
  rw [pmapIsDirect, ge_iff_le, UInt64.le_iff_toNat_le, UInt64.le_iff_toNat_le]
  have hv := pm.virtual
  rw [UInt64.le_iff_toNat_le, UInt64.lt_iff_toNat_lt] at hv
  omega

theorem pmapExtract_of_pteValid (hv : PageAligned v) (h : pteValid ((s.pmap vm).pte v)) :
    pmapExtract kernelVm vm v s = .ok (tlbloPteToPa ((s.pmap vm).pte v)) := by
  have hf := pmapFind_of_pteValid h
  have hin := pmapFind_inside hf
  simp only [pmapExtract, hv.floor, if_neg (Pmap.not_direct hin), if_neg hin, hf, if_pos h]

theorem pmapExtract_unmapped (hvm : vm ≠ kernelVm)
    (h : ¬ pteValid ((s.pmap vm).pte (pageFloor v))) :
    ∃ e, pmapExtract kernelVm vm v s = .error e := by
  rw [Pmap.pte] at h
  simp only [pmapExtract]
  split_ifs
  · exact ⟨_, rfl⟩
  · exact ⟨_, rfl⟩
  · cases hf : pmapFind (s.pmap vm) (pageFloor v) with
    | none => exact ⟨_, rfl⟩
    | some x =>
      rw [hf, Option.getD_some] at h
      simp only [if_neg h]
      exact ⟨_, rfl⟩

omit [DecidableEq ν] in
theorem onPages_pte (f : PageState → Outcome PageState) :
    Yields (s.onPages f) fun s' => PteSame s s' := by
  refine yields_bind_of_forall fun p => ?_
  exact .ret (pteSame_of_pmap rfl)

omit [DecidableEq ν] in
theorem onPages_guarded {Q : Prop} {f : PageState → Outcome PageState} {P : PageState → Prop}
    (h : Guarded Q (f s.pages) P) :
    Guarded Q (s.onPages f) fun s' =>
      P s'.pages ∧ s'.pmap = s.pmap ∧ s'.ptPages = s.ptPages :=
  h.bind fun _ hp => guarded_pure ⟨hp, rfl, rfl⟩

theorem pageMap_pte (hv : PageAligned v) :
    Yields (pageMap kernelVm vm v page s) fun r =>
      (r.2 = .ok () ∧ ¬ (s.pmap vm).Outside v ∧ PteSet s r.1 vm v (entryFor kernelVm vm page)) ∨
      ((∃ e, r.2 = .error e) ∧ PteSame s r.1) := by
  rw [pageMap]
  refine (onPages_pte _).bind fun s₁ hs₁ => ?_
  refine (pmapMap_pte hv).bind ?_
  rintro ⟨s₂, r⟩ (⟨hr, -⟩ | ⟨hr, hin, hset⟩)
  · cases hr
    refine (onPages_pte _).bind fun s₃ hs₃ => ?_
    exact .ret (.inr ⟨⟨_, rfl⟩, hs₁.trans hs₃⟩)
  · subst hr
    exact .ret (.inl ⟨rfl, mt (hs₁.outside vm v).mpr hin, hs₁.trans_set hset⟩)

theorem pageUnmap_pte (hv : PageAligned v) :
    Yields (pageUnmap vm v page s) fun r =>
      (r.2 = .ok () ∧ pteValid ((s.pmap vm).pte v) ∧ PteSet s r.1 vm v 0) ∨
      (r.2 = .ok () ∧ (pmapFind (s.pmap vm) v).isSome ∧ ¬ pteValid ((s.pmap vm).pte v) ∧
        PteSame s r.1) ∨
      ((∃ e, r.2 = .error e) ∧ pmapFind (s.pmap vm) v = none ∧ r.1 = s) := by
  rw [pageUnmap]
  rcases pmapUnmap_pte vm s hv with ⟨hu, hf⟩ | ⟨hu, hf, hn⟩ | ⟨hr, hval, -, hset⟩
  · rw [hu]
    exact .ret (.inr (.inr ⟨⟨_, rfl⟩, hf, rfl⟩))
  · rw [hu]
    refine (onPages_pte _).bind fun s₁ hs₁ => ?_
    exact .ret (.inr (.inl ⟨rfl, hf, hn, hs₁⟩))
  · rcases hu : pmapUnmap vm v s with ⟨s₁, r⟩
    rw [hu] at hr hset
    subst hr
    refine (onPages_pte _).bind fun s₂ hs₂ => ?_
    exact .ret (.inl ⟨rfl, hval, hset.trans_same hs₂⟩)

theorem pageUnmap_mapped {Q : Prop} {P : PageState → Prop} (hv : PageAligned v)
    (hvl : pteValid ((s.pmap vm).pte v)) (h : Guarded Q (pageRefDrop page s.pages) P) :
    Guarded Q (pageUnmap vm v page s) fun r =>
      r.2 = .ok () ∧ P r.1.pages ∧ r.1.ptPages = s.ptPages ∧ PteSet s r.1 vm v 0 := by
  rcases pmapUnmap_pte vm s hv with ⟨-, hn⟩ | ⟨-, -, hnot⟩ | ⟨hr, -, heq, hs⟩
  · rw [pmapFind_of_pteValid hvl] at hn
    cases hn
  · exact absurd hvl hnot
  · rw [pageUnmap]
    rcases hu : pmapUnmap vm v s with ⟨s₁, r⟩
    rw [hu] at hr heq hs
    subst hr heq
    refine (onPages_guarded (s := s.setPmap vm ((s.pmap vm).setPte v 0)) h).bind ?_
    rintro s₂ ⟨hp, hpm, ht⟩
    exact guarded_pure ⟨rfl, hp, ht, hs.trans_same (pteSame_of_pmap hpm)⟩

theorem pageAllocMap_pte (hv : PageAligned v) (flags : UInt32) :
    Yields (pageAllocMap kernelVm vm flags v s) fun r =>
      (∃ page, s.pages.pageFreeQueue.head? = some page ∧ r.2 = .ok () ∧
        ¬ (s.pmap vm).Outside v ∧ PteSet s r.1 vm v (entryFor kernelVm vm page)) ∨
      ((∃ e, r.2 = .error e) ∧ PteSame s r.1) := by
  rw [pageAllocMap]
  refine pageAlloc_head.bind ?_
  rintro ⟨p₁, r⟩ hr
  cases r with
  | error e => exact .ret (.inr ⟨⟨e, rfl⟩, pteSame_of_pmap rfl⟩)
  | ok page =>
    have ha : PteSame s { s with pages := p₁ } := pteSame_of_pmap rfl
    refine (pageMap_pte hv).bind ?_
    rintro ⟨s₂, r⟩ (⟨hr', hin, hset⟩ | ⟨⟨e, hr'⟩, hsm⟩)
    · subst hr'
      exact .ret (.inl ⟨page, hr page rfl, rfl, hin, ha.trans_set hset⟩)
    · subst hr'
      refine (onPages_pte _).bind fun s₃ hs₃ => ?_
      exact .ret (.inr ⟨⟨e, rfl⟩, (ha.trans hsm).trans hs₃⟩)

theorem pageAllocMap_floor_pte (flags : UInt32) :
    Yields (pageAllocMap kernelVm vm flags v s) fun r => r.2 = .ok () →
      ∃ page ∈ s.pages.pageFreeQueue,
        PteSet s r.1 vm (pageFloor v) (entryFor kernelVm vm page) := by
  by_cases hin : (s.pmap vm).Outside v
  · unfold pageAllocMap
    refine pageAlloc_head.bind ?_
    rintro ⟨-, r⟩ -
    cases r with
    | error e => exact .ret nofun
    | ok page =>
      -- the mapping is refused, and the page released
      simp only [pageMap, MemState.onPages, bind_assoc, pure_bind, pmapMap, if_pos hin]
      refine yields_bind_of_forall fun p₂ => ?_
      refine yields_bind_of_forall fun p₃ => ?_
      refine yields_bind_of_forall fun p₄ => ?_
      exact .ret nofun
  · have hf : pageAllocMap kernelVm vm flags (pageFloor v) s =
        pageAllocMap kernelVm vm flags v s := by
      simp only [pageAllocMap, pageMap, MemState.onPages, bind_assoc, pure_bind]
      congr 1
      funext ⟨pages, r⟩
      cases r with
      | error e => rfl
      | ok page =>
        simp only
        congr 1
        funext p₂
        rw [pmapMap_floor (s := { s with pages := p₂ }) hin]
    rw [← hf]
    refine (pageAllocMap_pte (pageAligned_floor v) flags).mono ?_
    rintro r (⟨page, hp, -, -, hs⟩ | ⟨⟨e, he⟩, -⟩) hr
    · exact ⟨page, List.mem_of_mem_head? hp, hs⟩
    · rw [he] at hr
      cases hr

end Glatt
