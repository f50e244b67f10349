import Glatt.Vm.PageRefs
import Glatt.Vm.PmapEntries

/-!
# References of mappings and page tables

The reference counts of `Counted`, with the references split by who took them: `page_alloc`, a
mapping, or a page table. A page that holds a page table has been allocated and mapped in the
direct map by `pmap_alloc_pte`, and is never given back, so it counts for two.

## Main definitions

* `MemCounted`: the counts of pages, with those of mappings and tables

## Main results

* `MemCounted.pageMap`, `MemCounted.pageUnmap`, `MemCounted.pageAllocMap`,
  `MemCounted.pageFreeDirect`: what each function does to the references
-/

namespace Glatt

open Imperative List

variable {ν : Type} {s : MemState ν} {N : List TreePage} {allocs maps : UInt64 → ℕ} {page : UInt64}

def ptRefs (s : MemState ν) (page : UInt64) : ℕ :=
  s.ptPages.count (pmapMapDirect (pageAddress page))

/-- **The counts are those of the allocations, mappings and page tables.** A page has at most one
owner: a page tree page, a caller of `page_alloc`, or a page table. -/
structure MemCounted (s : MemState ν) (N : List TreePage) (allocs maps : UInt64 → ℕ) : Prop where
  counted : Counted s.pages N fun q => allocs q + maps q + 2 * ptRefs s q
  tables : ∀ a ∈ s.ptPages, ∃ q, Inserted N q ∧ a = pmapMapDirect (pageAddress q)
  holders : ∀ q, Inserted N q → nodeRefs N q + allocs q + ptRefs s q ≤ 1

theorem Counted.congr {p : PageState} {others others' : UInt64 → ℕ} (h : Counted p N others)
    (heq : ∀ q, Inserted N q → others q = others' q) : Counted p N others' :=
  ⟨h.desc, h.nodup, h.free_iff, fun q hq => by rw [h.count q hq, heq q hq]⟩

theorem Inserted.toNat_pageAddress (h : Inserted N page) :
    (pageAddress page).toNat % 8192 = 0 ∧ (pageAddress page).toNat < 2 ^ 36 := by
  obtain ⟨f, hf, ha⟩ := h.frame
  rw [frameEnd] at hf
  rw [ha, toNat_frameAddr (by omega)]
  omega

theorem Inserted.extract_direct (h : Inserted N page) :
    xkphysExtract (pmapMapDirect (pageAddress page)) = pageAddress page := by
  apply xkphysExtract_xkphysMap
  have := h.toNat_pageAddress
  omega

theorem Counted.eq_of_direct {p : PageState} {others : UInt64 → ℕ} {q q' : UInt64}
    (hc : Counted p N others) (hq : Inserted N q) (hq' : Inserted N q')
    (h : pmapMapDirect (pageAddress q) = pmapMapDirect (pageAddress q')) : q = q' := by
  apply hq.eq_of_pageAddress hc.desc.disjoint hq'
  rw [← hq.extract_direct, h, hq'.extract_direct]

/-! ## Free pages -/

def MemState.freePages (s : MemState ν) : ℕ := s.pages.pageFreeQueue.length

section

variable (h : MemCounted s N allocs maps)
include h

theorem MemCounted.of_mem_free (hq : page ∈ s.pages.pageFreeQueue) :
    Inserted N page ∧ allocs page = 0 ∧ maps page = 0 ∧ ptRefs s page = 0 := by
  obtain ⟨hi, hr⟩ := h.counted.of_mem_free hq
  exact ⟨hi, by omega, by omega, by omega⟩

theorem MemCounted.freePages_le {s' : MemState ν} {allocs' maps' : UInt64 → ℕ}
    (h' : MemCounted s' N allocs' maps') (ht : s'.ptPages = s.ptPages) {D : List UInt64}
    (hD : ∀ q, allocs q = 0 → maps q = 0 → allocs' q + maps' q = 0 ∨ q ∈ D) :
    s.freePages ≤ s'.freePages + D.length := by
  refine h.counted.length_free_le h'.counted fun q hq => ?_
  obtain ⟨-, ha, hm, hp⟩ := h.of_mem_free hq
  refine (hD q ha hm).imp_left fun hr => ?_
  rw [ptRefs] at hp
  rw [hr, ptRefs, ht, hp]

/-! ## References -/

theorem MemCounted.holdMap (hi : Inserted N page)
    (hc : (s.pages.pgRefcnt page).toNat + 1 < 2 ^ 32) :
    Ensures (s.onPages (pageRefHold page)) fun s' => MemCounted s' N allocs (bump maps page) ∧
      s'.pmap = s.pmap ∧ s'.ptPages = s.ptPages := by
  refine (h.counted.hold hi hc).bind fun p' hp' => ?_
  refine .ret ⟨⟨hp'.1.congr fun q _ => ?_, h.tables, h.holders⟩, rfl, rfl⟩
  simp only [bump, ptRefs]
  omega

omit h in
theorem MemCounted.dropMap (h : MemCounted s N allocs (bump maps page)) (hi : Inserted N page) :
    Ensures (s.onPages (pageRefDrop page)) fun s' => MemCounted s' N allocs maps ∧
      s'.pmap = s.pmap ∧ s'.ptPages = s.ptPages := by
  have h' : Counted s.pages N (bump (fun q => allocs q + maps q + 2 * ptRefs s q) page) :=
    h.counted.congr fun q _ => by
      simp only [bump]
      omega
  refine (h'.drop hi).bind fun p' hp' => ?_
  exact .ret ⟨⟨hp'.1, h.tables, h.holders⟩, rfl, rfl⟩

omit h in
theorem MemCounted.dropAlloc (h : MemCounted s N (bump allocs page) maps) (hi : Inserted N page) :
    Ensures (s.onPages (pageRelease page)) fun s' => MemCounted s' N allocs maps ∧
      s'.pmap = s.pmap ∧ s'.ptPages = s.ptPages := by
  have h' : Counted s.pages N (bump (fun q => allocs q + maps q + 2 * ptRefs s q) page) :=
    h.counted.congr fun q _ => by
      simp only [bump]
      omega
  refine (h'.drop hi).bind fun p' hp' => ?_
  refine .ret ⟨⟨hp'.1, h.tables, fun q hq => ?_⟩, rfl, rfl⟩
  have := h.holders q hq
  simp only [bump, ptRefs] at this ⊢
  omega

theorem MemCounted.alloc (flags : UInt32) : Ensures (pageAlloc flags s.pages) fun r =>
      (r = (s.pages, .error .exhausted) ∧ s.freePages = 0) ∨
      ∃ page, r.2 = .ok page ∧ s.pages.pageFreeQueue.head? = some page ∧ Inserted N page ∧
        MemCounted { s with pages := r.1 } N (bump allocs page) maps ∧
        (r.1.pgRefcnt page).toNat = 1 := by
  refine (h.counted.alloc flags).mono ?_
  rintro ⟨p', r⟩ (⟨hr, he⟩ | ⟨page, hr, hq, hi, hrf, hp'⟩)
  · exact .inl ⟨hr, by rw [MemState.freePages, he, length_nil]⟩
  · refine .inr ⟨page, hr, hq, hi, ⟨hp'.congr fun q _ => ?_, h.tables, fun q hqi => ?_⟩, ?_⟩
    · simp only [bump, ptRefs]
      omega
    · have := h.holders q hqi
      simp only [bump, ptRefs]
      split
      · subst q
        simp only [ptRefs] at hrf
        omega
      · exact this
    · rw [hp'.count page hi, bump, if_pos rfl]
      omega

theorem MemCounted.mapDirect (hi : Inserted N page)
    (hc : (s.pages.pgRefcnt page).toNat + 1 < 2 ^ 32) (kernel : Bool) :
    Guarded (kernel = true) (pageMapDirect kernel page s.pages) fun r =>
      r.2 = .ok (pmapMapDirect (pageAddress page)) ∧
        MemCounted { s with pages := r.1 } N allocs (bump maps page) := by
  rw [pageMapDirect]
  split
  · refine (h.counted.hold hi hc).guarded.bind fun p' hp' => ?_
    refine guarded_pure ⟨rfl, hp'.1.congr fun q _ => ?_, h.tables, h.holders⟩
    simp only [bump, ptRefs]
    omega
  · exact guarded_error ‹_›

theorem MemCounted.allocDirect (kernel : Bool) (flags : UInt32) :
    Guarded (kernel = true) (pageAllocDirect kernel flags s.pages) fun r =>
      (r = (s.pages, .error .exhausted) ∧ s.freePages = 0) ∨
      ∃ page, r.2 = .ok (pmapMapDirect (pageAddress page)) ∧
        s.pages.pageFreeQueue.head? = some page ∧ Inserted N page ∧
        MemCounted { s with pages := r.1 } N (bump allocs page) (bump maps page) := by
  rw [pageAllocDirect]
  refine (h.alloc flags).guarded.bind ?_
  rintro ⟨p₁, r⟩ (⟨hr, hf⟩ | ⟨page, hr, hq, hi, hs₁, ho⟩)
  · cases hr
    exact guarded_pure (.inl ⟨rfl, hf⟩)
  · subst hr
    refine (hs₁.mapDirect hi (by rw [ho]; decide) kernel).bind ?_
    rintro ⟨p₂, r⟩ ⟨hr, hs₂⟩
    subst hr
    exact guarded_pure (.inr ⟨page, rfl, hq, hi, hs₂⟩)

/-! ## Page tables -/

/-- What a step leaves that makes at most `n` page tables: it fails only if there are fewer free
pages. -/
def MadeTables (s : MemState ν) (N : List TreePage) (allocs maps : UInt64 → ℕ) (n : ℕ)
    (r : MemState ν × Except Errno Unit) : Prop :=
  (s.freePages < n ∧ ∃ e, r.2 = .error e) ∨
    r.2 = .ok () ∧ MemCounted r.1 N allocs maps ∧ s.freePages ≤ r.1.freePages + n

theorem MemCounted.allocLevel : Ensures (pmapAllocLevel s) (MadeTables s N allocs maps 1) := by
  rw [pmapAllocLevel]
  refine ((h.allocDirect true _).ensures rfl).bind ?_
  rintro ⟨p', r⟩ (⟨hr, hf⟩ | ⟨page, hr, -, hi, hs'⟩)
  · cases hr
    exact .ret (.inl ⟨by omega, _, rfl⟩)
  · subst hr
    -- only this page has the new table's address
    let s' : MemState ν :=
      { s with pages := p', ptPages := pmapMapDirect (pageAddress page) :: s.ptPages }
    have hp : ∀ q, Inserted N q → ptRefs s' q = ptRefs s q + if q = page then 1 else 0 := by
      intro q hq
      rw [ptRefs, count_cons, ptRefs]
      by_cases hqp : q = page
      · simp [hqp]
      · have : pmapMapDirect (pageAddress page) ≠ pmapMapDirect (pageAddress q) :=
          fun he => hqp (h.counted.eq_of_direct hi hq he).symm
        simp [hqp, this]
    have hs'' : MemCounted s' N allocs maps := by
      refine ⟨hs'.counted.congr fun q hq => ?_, ?_, fun q hq => ?_⟩
      · rw [hp q hq]
        simp only [bump, ptRefs]
        omega
      · intro a ha
        rcases mem_cons.mp ha with rfl | ha
        · exact ⟨page, hi, rfl⟩
        · exact h.tables a ha
      · have := hs'.holders q hq
        rw [hp q hq]
        simp only [bump, ptRefs] at this ⊢
        omega
    refine .ret (.inr ⟨rfl, hs'', ?_⟩)
    refine h.counted.length_free_le (D := [page]) hs''.counted fun q hq => ?_
    obtain ⟨hqi, ha, hm, hrf⟩ := h.of_mem_free hq
    by_cases hqp : q = page
    · exact .inr (mem_singleton.mpr hqp)
    · left
      rw [hp q hqi, if_neg hqp]
      omega

end

variable [DecidableEq ν] {kernelVm vm : ν} {v : UInt64} {Q : Prop}

section

variable (h : MemCounted s N allocs maps)
include h

theorem MemCounted.setPmap (pm : Pmap) :
    MemCounted (s.setPmap vm pm) N allocs maps := ⟨h.counted, h.tables, h.holders⟩

theorem MemCounted.allocTable (f : MemState ν → Pmap) :
    Ensures (do
      match ← pmapAllocLevel s with
      | (s, .error e) => pure (s, .error e)
      | (s, .ok ()) => pure (s.setPmap vm (f s), .ok ()) : Outcome (MemState ν × Except Errno Unit))
      (MadeTables s N allocs maps 1) := by
  refine h.allocLevel.bind ?_
  rintro ⟨s₁, r⟩ (⟨hf, e, hr⟩ | ⟨hr, hs₁, hf⟩)
  · cases hr
    exact .ret (.inl ⟨hf, e, rfl⟩)
  · cases hr
    exact .ret (.inr ⟨rfl, hs₁.setPmap _, hf⟩)

theorem MemCounted.allocLevel0 :
    Ensures (pmapAllocLevel0 vm v s) (MadeTables s N allocs maps 1) := by
  unfold pmapAllocLevel0
  split
  · exact .ret (.inr ⟨rfl, h, Nat.le_add_right _ _⟩)
  · exact h.allocTable fun s => (s.pmap vm).setLevel0 v fun _ => none

theorem MemCounted.allocLevel1 :
    Ensures (pmapAllocLevel1 vm v s) (MadeTables s N allocs maps 1) := by
  unfold pmapAllocLevel1
  split
  · exact .ret (.inr ⟨rfl, h, Nat.le_add_right _ _⟩)
  · exact h.allocTable fun s => (s.pmap vm).setLevel1 v fun _ => 0

theorem MemCounted.allocPte : Ensures (pmapAllocPte vm v s) (MadeTables s N allocs maps 2) := by
  rw [pmapAllocPte]
  refine h.allocLevel0.bind ?_
  rintro ⟨s₁, r⟩ (⟨hf, e, hr⟩ | ⟨hr, hs₁, hf⟩)
  · cases hr
    exact .ret (.inl ⟨by omega, e, rfl⟩)
  · cases hr
    refine hs₁.allocLevel1.mono ?_
    rintro r (⟨hf₁, he⟩ | ⟨hr, hs₂, hf₁⟩)
    · exact .inl ⟨by omega, he⟩
    · exact .inr ⟨hr, hs₂, by omega⟩

theorem MemCounted.pmapMap
    (hQ : Q → ¬ (s.pmap vm).Outside v → 2 ≤ s.freePages ∧ ¬ pteValid ((s.pmap vm).pte (pageFloor
      v))) :
    Guarded Q (pmapMap kernelVm vm v page s) fun r => MemCounted r.1 N allocs maps ∧
      s.freePages ≤ r.1.freePages + 2 ∧ (r.2 = .ok () ∨ (s.pmap vm).Outside v) := by
  rw [Glatt.pmapMap]
  split
  · rename_i ho
    exact guarded_pure ⟨h, Nat.le_add_right _ _, .inr ho⟩
  · rename_i hin
    refine (h.allocPte.guarded.and (pmapAllocPte_pte hin)).bind ?_
    rintro ⟨s₁, r⟩ ⟨⟨hf, e, hr⟩ | ⟨hr, hs₁, hf⟩, hsm, hfn⟩
    · cases hr
      exact guarded_error fun hq => absurd (hQ hq hin).1 (by omega)
    · cases hr
      refine Guarded.bind (P := fun s₂ => MemCounted s₂ N allocs maps ∧
        s.freePages ≤ s₂.freePages + 2) ?_ fun s₂ hs₂ =>
          guarded_pure ⟨hs₂.1, hs₂.2, .inl rfl⟩
      have hin₁ : ¬ (s₁.pmap vm).Outside v := by rwa [hsm.outside vm v]
      unfold pmapUpdate
      dsimp only
      rw [pmapFind_floor hin₁]
      split
      -- the entry is there, since its tables have been made
      · rename_i hn
        rw [hn] at hfn
        cases hfn rfl
      · rename_i pte hp
        split
        · rename_i hv
          refine guarded_error fun hq => (hQ hq hin).2 ?_
          rw [← hsm.pte vm, Pmap.pte, pmapFind_floor hin₁, hp]
          exact hv.1
        · exact guarded_pure ⟨hs₁.setPmap _, hf⟩

theorem MemCounted.pmapUnmap : MemCounted (pmapUnmap vm v s).1 N allocs maps := by
  unfold Glatt.pmapUnmap
  split
  · exact h
  · split
    · exact h.setPmap _
    · exact h

end

theorem pmapUnmap_ptPages : (pmapUnmap vm v s).1.ptPages = s.ptPages := by
  unfold pmapUnmap
  split
  · rfl
  · split <;> rfl

/-! ## Mapping pages -/

theorem MemCounted.pageMap (h : MemCounted s N allocs maps) (hi : Inserted N page)
    (hc : (s.pages.pgRefcnt page).toNat + 1 < 2 ^ 32)
    (hQ : Q → ¬ (s.pmap vm).Outside v → 0 < allocs page + maps page ∧ 2 ≤ s.freePages ∧
      ¬ pteValid ((s.pmap vm).pte (pageFloor v))) :
    Guarded Q (pageMap kernelVm vm v page s) fun r =>
      ((r.2 = .ok () ∧ MemCounted r.1 N allocs (bump maps page)) ∨
        (∃ e, r.2 = .error e) ∧ MemCounted r.1 N allocs maps ∧ (s.pmap vm).Outside v) ∧
      (0 < allocs page + maps page → s.freePages ≤ r.1.freePages + 2) := by
  rw [Glatt.pageMap]
  refine (h.holdMap hi hc).guarded.bind ?_
  rintro s₁ ⟨hs₁, hp₁, ht₁⟩
  -- a page that is held is not one of the free pages
  have hf₁ : 0 < allocs page + maps page → s.freePages ≤ s₁.freePages := by
    intro hh
    refine h.freePages_le (D := []) hs₁ ht₁ fun q ha hm => .inl ?_
    rw [bump, if_neg]
    · omega
    · rintro rfl
      omega
  have hQ₁ : Q → ¬ (s₁.pmap vm).Outside v → 2 ≤ s₁.freePages ∧
      ¬ pteValid ((s₁.pmap vm).pte (pageFloor v)) := by
    rw [hp₁]
    intro hq hin
    obtain ⟨hh, hf, hn⟩ := hQ hq hin
    exact ⟨by have := hf₁ hh; omega, hn⟩
  refine (hs₁.pmapMap hQ₁).bind ?_
  rintro ⟨s₂, r⟩ ⟨hs₂, hf₂, ho⟩
  cases r with
  | ok _ =>
    exact guarded_pure ⟨.inl ⟨rfl, hs₂⟩, fun hh => (hf₁ hh).trans hf₂⟩
  | error e =>
    refine (hs₂.dropMap hi).guarded.bind ?_
    rintro s₃ ⟨hs₃, -, ht₃⟩
    have ho : (s.pmap vm).Outside v := by
      rw [← hp₁]
      exact ho.resolve_left fun h => by cases h
    refine guarded_pure ⟨.inr ⟨⟨e, rfl⟩, hs₃, ho⟩, fun hh => (hf₁ hh).trans ?_⟩
    have hf₃ : s₂.freePages ≤ s₃.freePages :=
      hs₂.freePages_le (D := []) hs₃ ht₃ fun q ha hm => .inl (by rw [bump] at hm; omega)
    dsimp only at hf₂ ⊢
    omega

theorem MemCounted.pageUnmap (h : MemCounted s N allocs (bump maps page)) (hi : Inserted N page) :
    Ensures (pageUnmap vm v page s) fun r =>
      ((r.2 = .ok () ∧ MemCounted r.1 N allocs maps) ∨
        (∃ e, r.2 = .error e) ∧ MemCounted r.1 N allocs (bump maps page)) ∧
      r.1.ptPages = s.ptPages := by
  have hu : MemCounted (Glatt.pmapUnmap vm v s).1 N allocs (bump maps page) := h.pmapUnmap
  have ht : (Glatt.pmapUnmap vm v s).1.ptPages = s.ptPages := pmapUnmap_ptPages
  rw [Glatt.pageUnmap]
  rcases hr : Glatt.pmapUnmap vm v s with ⟨s₁, r⟩
  rw [hr] at hu ht
  cases r with
  | error e => exact .ret ⟨.inr ⟨⟨e, rfl⟩, hu⟩, ht⟩
  | ok _ =>
    refine (hu.dropMap hi).bind ?_
    rintro s₂ ⟨hs₂, -, ht₂⟩
    exact .ret ⟨.inl ⟨rfl, hs₂⟩, ht₂.trans ht⟩

theorem MemCounted.pageAllocMap (h : MemCounted s N allocs maps) (flags : UInt32)
    (hQ : Q → ¬ (s.pmap vm).Outside v → 3 ≤ s.freePages ∧
      ¬ pteValid ((s.pmap vm).pte (pageFloor v))) :
    Guarded Q (pageAllocMap kernelVm vm flags v s) fun r =>
      ((∃ page, s.pages.pageFreeQueue.head? = some page ∧ Inserted N page ∧ r.2 = .ok () ∧
          MemCounted r.1 N (bump allocs page) (bump maps page)) ∨
        (∃ e, r.2 = .error e) ∧ MemCounted r.1 N allocs maps ∧
          (s.freePages = 0 ∨ (s.pmap vm).Outside v)) ∧
      s.freePages ≤ r.1.freePages + 3 := by
  rw [Glatt.pageAllocMap]
  refine (h.alloc flags).guarded.bind ?_
  rintro ⟨p₁, r⟩ (⟨hr, hf⟩ | ⟨page, hr, hq, hi, hs₁, ho⟩)
  · cases hr
    exact guarded_pure ⟨.inr ⟨⟨_, rfl⟩, h, .inl hf⟩, by omega⟩
  · dsimp only at hs₁
    subst hr
    have hf₁ : s.freePages ≤ MemState.freePages { s with pages := p₁ } + 1 := by
      refine h.freePages_le (D := [page]) hs₁ rfl fun q ha hm => ?_
      rw [bump]
      by_cases hqp : q = page
      · exact .inr (mem_singleton.mpr hqp)
      · exact .inl (by rw [if_neg hqp]; omega)
    have hh : 0 < bump allocs page page + maps page := by
      rw [bump, if_pos rfl]
      omega
    refine (hs₁.pageMap hi (by rw [ho]; decide) fun hq hin => ?_).bind ?_
    · obtain ⟨hf, hn⟩ := hQ hq hin
      exact ⟨hh, by omega, hn⟩
    rintro ⟨s₂, r⟩ ⟨⟨hr, hs₂⟩ | ⟨⟨e, hr⟩, hs₂, hout⟩, hf₂⟩
    · dsimp only at hf₂
      subst hr
      exact guarded_pure ⟨.inl ⟨page, hq, hi, rfl, hs₂⟩, by dsimp only; omega⟩
    -- the page goes back to the free queue, behind the others
    · dsimp only at hf₂
      subst hr
      refine (hs₂.dropAlloc hi).guarded.bind ?_
      rintro s₃ ⟨hs₃, -, ht₃⟩
      have hf₃ : s₂.freePages ≤ s₃.freePages :=
        hs₂.freePages_le (D := []) hs₃ ht₃ fun q ha hm => .inl (by rw [bump] at ha; omega)
      exact guarded_pure ⟨.inr ⟨⟨e, rfl⟩, hs₃, .inr hout⟩, by dsimp only; omega⟩

theorem pmapMapDirect_frame {x : ℕ} (hx : x < frameEnd) :
    PageAligned (pmapMapDirect (frameAddr x)) ∧ pmapIsDirect (pmapMapDirect (frameAddr x)) := by
  rw [frameEnd] at hx
  have hf := toNat_frameAddr (f := x) (by omega)
  have ha : (pmapMapDirect (frameAddr x)).toNat = directBase + (frameAddr x).toNat :=
    toNat_xkphysMap (by omega)
  constructor
  · apply UInt64.toNat_inj.mp
    rw [toNat_pageOffset, ha, directBase]
    change _ = 0
    omega
  · rw [pmapIsDirect, ge_iff_le, UInt64.le_iff_toNat_le, UInt64.le_iff_toNat_le, ha, directBase]
    have hb : xkphysBase.toNat = 2 ^ 63 := by decide
    have hend : xkphysEnd.toNat = 2 ^ 63 + 2 ^ 62 - 1 := by decide
    omega

theorem pmapExtract_direct {x : ℕ} (hx : x < frameEnd) :
    pmapExtract kernelVm kernelVm (pmapMapDirect (frameAddr x)) s = .ok (frameAddr x) := by
  obtain ⟨ha, hd⟩ := pmapMapDirect_frame hx
  have he : xkphysExtract (pmapMapDirect (frameAddr x)) = frameAddr x := by
    apply xkphysExtract_xkphysMap
    rw [frameEnd] at hx
    rw [toNat_frameAddr (by omega)]
    omega
  simp only [pmapExtract, ha.floor, if_pos hd, if_pos, he]

theorem Inserted.pmapExtract_direct (h : Inserted N page) :
    pmapExtract kernelVm kernelVm (pmapMapDirect (pageAddress page)) s =
      .ok (pageAddress page) := by
  obtain ⟨x, hx, ha⟩ := h.frame
  rw [ha]
  exact Glatt.pmapExtract_direct hx

section Free

variable (hsp : N.Pairwise fun m n => ∀ f, n.Links f → ¬ m.Spans f)
include hsp

theorem MemCounted.pageExtract (h : MemCounted s N allocs maps) (hi : Inserted N page)
    (he : pmapExtract kernelVm vm v s = .ok (pageAddress page)) :
    pageExtract kernelVm vm v s = .ok (.ok page) := by
  rw [Glatt.pageExtract, he]
  exact pageLookup_inserted h.counted.desc hsp hi

theorem MemCounted.pageFreeDirect (h : MemCounted s N (bump allocs page) (bump maps page))
    (hi : Inserted N page) (he : pmapExtract kernelVm vm v s = .ok (pageAddress page)) :
    Ensures (pageFreeDirect kernelVm vm v s) fun r =>
      r.2 = .ok () ∧ MemCounted r.1 N allocs maps ∧ r.1.pmap = s.pmap := by
  rw [Glatt.pageFreeDirect, h.pageExtract hsp hi he]
  refine (h.dropMap hi).bind ?_
  rintro s₁ ⟨hs₁, hp₁, -⟩
  refine (hs₁.dropAlloc hi).bind ?_
  rintro s₂ ⟨hs₂, hp₂, -⟩
  exact .ret ⟨rfl, hs₂, hp₂.trans hp₁⟩

end Free

end Glatt
