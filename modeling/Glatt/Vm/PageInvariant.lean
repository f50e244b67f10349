import Glatt.Lib.Transition
import Glatt.Vm.MemRefs
import Glatt.Vm.PageLookup

/-!
# The page queues over whole runs

The functions of `vm_page.c` as a machine that takes one call after the other. A ledger records
what the callers hold: the ranges that have been inserted, the allocations that have not been
released, and the mappings that have been made and not been removed. The counts are compared with
the ledger.

## Main definitions

* `Ledger`, `PageMachine`, `PageStep`: the machine with its ledger
* `Clean`: the calls that the counts survive

## Main results

* `page_queues_sound`: after every run of clean calls each inserted page is in one queue, in the
  free queue when its count is 0, and its count is that of the ledger
* `page_free_direct_leaks`: a run in which a reference is dropped on the wrong page
-/

namespace Glatt

open Imperative Transition List

variable {ν : Type}

/-- What the callers hold. -/
structure Ledger (ν : Type) where
  ranges : List PageRange
  allocs : List UInt64
  directs : List UInt64
  maps : List (ν × UInt64 × UInt64)

def Ledger.treePages (l : Ledger ν) : List TreePage := l.ranges.flatMap PageRange.treePages

def Ledger.allocRefs (l : Ledger ν) (page : UInt64) : ℕ := l.allocs.count page

def Ledger.mapRefs (l : Ledger ν) (page : UInt64) : ℕ :=
  l.directs.count page + (l.maps.map fun m => m.2.2).count page

/-- The memory, and what the callers hold. -/
structure PageMachine (ν : Type) where
  mem : MemState ν
  ledger : Ledger ν

/-- A call. The calls that free a page name the page whose allocation the caller gives up. -/
inductive PageCall (ν : Type)
  | insertPages (r : PageRange)
  | alloc (flags : UInt32)
  | release (page : UInt64)
  | mapDirect (vm : ν) (page : UInt64)
  | unmapDirect (page : UInt64)
  | map (vm : ν) (vaddr page : UInt64)
  | unmap (vm : ν) (vaddr page : UInt64)
  | allocDirect (vm : ν) (flags : UInt32)
  | allocMap (vm : ν) (flags : UInt32) (vaddr : UInt64)
  | freeMap (vm : ν) (vaddr page : UInt64)
  | freeDirect (vm : ν) (vaddr page : UInt64)

def MemState.returning {α : Type} (s : MemState ν)
    (f : PageState → Outcome (PageState × Except Errno α)) :
    Outcome (MemState ν × Except Errno Unit) := do
  let (pages, r) ← f s.pages
  pure ({ s with pages }, r.map fun _ => ())

def MemState.succeeding (s : MemState ν) (f : PageState → Outcome PageState) :
    Outcome (MemState ν × Except Errno Unit) := do
  let s ← s.onPages f
  pure (s, .ok ())

variable [DecidableEq ν] (kernelVm : ν)

def PageCall.run (s : MemState ν) : PageCall ν → Outcome (MemState ν × Except Errno Unit)
  | .insertPages r => s.succeeding r.insert
  | .alloc flags => s.returning (pageAlloc flags)
  | .release page => s.succeeding (pageRelease page)
  | .mapDirect vm page => s.returning (pageMapDirect (decide (vm = kernelVm)) page)
  | .unmapDirect page => s.succeeding (pageUnmapDirect page)
  | .map vm vaddr page => pageMap kernelVm vm vaddr page s
  | .unmap vm vaddr page => pageUnmap vm vaddr page s
  | .allocDirect vm flags => s.returning (pageAllocDirect (decide (vm = kernelVm)) flags)
  | .allocMap vm flags vaddr => pageAllocMap kernelVm vm flags vaddr s
  | .freeMap vm vaddr _ => pageFreeMap kernelVm vm vaddr s
  | .freeDirect vm vaddr _ => pageFreeDirect kernelVm vm vaddr s

/-- The ledger after a call that succeeds. An allocation takes the first free page. -/
def Ledger.record (l : Ledger ν) (s : MemState ν) : PageCall ν → Ledger ν
  | .insertPages r => { l with ranges := l.ranges ++ [r] }
  | .alloc _ => { l with allocs := s.pages.pageFreeQueue.take 1 ++ l.allocs }
  | .release page => { l with allocs := l.allocs.erase page }
  | .mapDirect _ page => { l with directs := page :: l.directs }
  | .unmapDirect page => { l with directs := l.directs.erase page }
  | .map vm vaddr page => { l with maps := (vm, vaddr, page) :: l.maps }
  | .unmap vm vaddr page => { l with maps := l.maps.erase (vm, vaddr, page) }
  | .allocDirect _ _ =>
    { l with
      allocs := s.pages.pageFreeQueue.take 1 ++ l.allocs
      directs := s.pages.pageFreeQueue.take 1 ++ l.directs }
  | .allocMap vm _ vaddr =>
    { l with
      allocs := s.pages.pageFreeQueue.take 1 ++ l.allocs
      maps := (s.pages.pageFreeQueue.take 1).map (fun page => (vm, vaddr, page)) ++ l.maps }
  | .freeMap vm vaddr page =>
    { l with allocs := l.allocs.erase page, maps := l.maps.erase (vm, vaddr, page) }
  | .freeDirect _ _ page =>
    { l with allocs := l.allocs.erase page, directs := l.directs.erase page }

/-- **The callers' part**: ranges are disjoint, pages have been inserted, addresses are those of
pages, and a reference that a call drops is held, unless the call fails because nothing is at the
address. -/
def Permitted (s : PageMachine ν) : PageCall ν → Prop
  | .insertPages r => ∀ r' ∈ s.ledger.ranges, ∀ f, r'.Contains f → ¬ r.Contains f
  | .alloc _ => True
  | .release page => page ∈ s.ledger.allocs
  | .mapDirect _ page => Inserted s.ledger.treePages page
  | .unmapDirect page => page ∈ s.ledger.directs
  | .map _ vaddr page => PageAligned vaddr ∧ Inserted s.ledger.treePages page
  | .unmap vm vaddr page => PageAligned vaddr ∧
    ((vm, vaddr, page) ∈ s.ledger.maps ∨ pmapFind (s.mem.pmap vm) vaddr = none)
  | .allocDirect _ _ => True
  | .allocMap _ _ vaddr => PageAligned vaddr
  | .freeMap vm vaddr page => PageAligned vaddr ∧
    ((vm, vaddr, page) ∈ s.ledger.maps ∧ page ∈ s.ledger.allocs ∨
      ∃ e, pmapExtract kernelVm vm vaddr s.mem = .error e)
  | .freeDirect vm vaddr page =>
    (vm = kernelVm ∧ vaddr = pmapMapDirect (pageAddress page)) ∧
      page ∈ s.ledger.directs ∧ page ∈ s.ledger.allocs ∨
    ∃ e, pmapExtract kernelVm vm vaddr s.mem = .error e

def PageMachine.after (s : PageMachine ν) (c : PageCall ν) :
    MemState ν × Except Errno Unit → PageMachine ν
  | (mem, .ok ()) => ⟨mem, s.ledger.record s.mem c⟩
  | (mem, .error _) => ⟨mem, s.ledger⟩

inductive PageStep : PageMachine ν → PageCall ν → PageMachine ν → Prop
  | call {s : PageMachine ν} {c x} : Permitted kernelVm s c → c.run kernelVm s.mem = .ok x →
      PageStep s c (s.after c x)

/-- **The calls that the counts survive**: no page of an inserted range lies where an earlier call's
last page tree page spans pages without entries, no mapping is replaced by another one, and no count
is at its end. -/
def Clean (s : PageMachine ν) : PageCall ν → Prop
  | .insertPages r => ∀ r' ∈ s.ledger.ranges, ∀ f, r.Links f → ¬ r'.Spills f
  | .map vm vaddr page =>
    ¬ pteValid ((s.mem.pmap vm).pte vaddr) ∧ (s.mem.pages.pgRefcnt page).toNat + 1 < 2 ^ 32
  | .mapDirect _ page => (s.mem.pages.pgRefcnt page).toNat + 1 < 2 ^ 32
  | .allocMap vm _ vaddr => ¬ pteValid ((s.mem.pmap vm).pte vaddr)
  | _ => True

def PageMachine.boot (pages : PageState) : PageMachine ν where
  mem :=
    { pages := pageInit pages
      pmap := fun vm => if vm = kernelVm then kernelPmap else userPmap
      ptPages := [] }
  ledger := ⟨[], [], [], []⟩

/-! ## Mappings -/

/-- **The ledger has the valid entries of the page tables.** -/
structure Mapped (s : MemState ν) (N : List TreePage) (maps : List (ν × UInt64 × UInt64)) :
    Prop where
  entry : ∀ vm v page, (vm, v, page) ∈ maps →
    PageAligned v ∧ Inserted N page ∧ (s.pmap vm).pte v = entryFor kernelVm vm page
  mapped : ∀ vm v, PageAligned v → pteValid ((s.pmap vm).pte v) → ∃ page, (vm, v, page) ∈ maps
  nodup : maps.Nodup

variable {kernelVm} {vm : ν} {v page : UInt64} {N : List TreePage} {mem mem' : MemState ν}
  {maps : List (ν × UInt64 × UInt64)}

theorem entryFor_spec (kernelVm vm : ν) (hi : Inserted N page) :
    pteValid (entryFor kernelVm vm page) ∧
      tlbloPteToPa (entryFor kernelVm vm page) = pageAddress page := by
  obtain ⟨f, hf, ha⟩ := hi.frame
  rw [entryFor, ha]
  exact ⟨pteValid_entry _, tlbloPteToPa_entry hf⟩

section

variable (h : Mapped kernelVm mem N maps)
include h

theorem Mapped.pmapExtract (hm : (vm, v, page) ∈ maps) :
    pteValid ((mem.pmap vm).pte v) ∧ pmapExtract kernelVm vm v mem = .ok (pageAddress page) := by
  obtain ⟨hv, hi, hp⟩ := h.entry vm v page hm
  have hs := entryFor_spec kernelVm vm hi
  rw [← hp] at hs
  refine ⟨hs.1, ?_⟩
  rw [pmapExtract_of_pteValid hv hs.1, hs.2]

theorem Mapped.same (hs : PteSame mem mem') : Mapped kernelVm mem' N maps := by
  constructor
  · intro vm v page hm
    rw [hs.pte]
    exact h.entry vm v page hm
  · intro vm v hv
    rw [hs.pte]
    exact h.mapped vm v hv
  · exact h.nodup

theorem Mapped.map (hv : PageAligned v) (hi : Inserted N page)
    (hn : ¬ pteValid ((mem.pmap vm).pte v))
    (hs : PteSet mem mem' vm v (entryFor kernelVm vm page)) :
    Mapped kernelVm mem' N ((vm, v, page) :: maps) := by
  -- no mapping of the ledger is at that address
  have hnew : ∀ page', (vm, v, page') ∉ maps := fun page' hm => hn (h.pmapExtract hm).1
  constructor
  · intro vm' v' page' hm
    rcases mem_cons.mp hm with heq | hm
    · cases heq
      refine ⟨hv, hi, ?_⟩
      rw [hs.pte vm v hv, if_pos ⟨rfl, rfl⟩]
    · obtain ⟨hv', hi', hp⟩ := h.entry vm' v' page' hm
      have hne : ¬ (vm' = vm ∧ v' = v) := fun heq => hnew page' (heq.1 ▸ heq.2 ▸ hm)
      refine ⟨hv', hi', ?_⟩
      rw [hs.pte vm' v' hv', if_neg hne, hp]
  · intro vm' v' hv' hvl
    rw [hs.pte vm' v' hv'] at hvl
    split at hvl
    · rename_i heq
      obtain ⟨rfl, rfl⟩ := heq
      exact ⟨page, mem_cons_self⟩
    · obtain ⟨page', hm⟩ := h.mapped vm' v' hv' hvl
      exact ⟨page', mem_cons_of_mem _ hm⟩
  · exact nodup_cons.mpr ⟨hnew page, h.nodup⟩

theorem Mapped.unmap (hd : N.Pairwise fun m n => ∀ f, m.Links f → ¬ n.Links f)
    (hm : (vm, v, page) ∈ maps) (hs : PteSet mem mem' vm v 0) :
    Mapped kernelVm mem' N (maps.erase (vm, v, page)) := by
  obtain ⟨-, hi, -⟩ := h.entry vm v page hm
  -- it was the only mapping at that address
  have ho : ∀ vm' v' page', (vm', v', page') ∈ maps.erase (vm, v, page) →
      (vm', v', page') ∈ maps ∧ ¬ (vm' = vm ∧ v' = v) := by
    intro vm' v' page' hr
    obtain ⟨hne, hm'⟩ := h.nodup.mem_erase_iff.mp hr
    refine ⟨hm', ?_⟩
    rintro ⟨rfl, rfl⟩
    have hi' := (h.entry vm' v' page' hm').2.1
    have hsm := (h.pmapExtract hm').2.symm.trans (h.pmapExtract hm).2
    rw [hi'.eq_of_pageAddress hd hi (Except.ok.inj hsm)] at hne
    exact hne rfl
  constructor
  · intro vm' v' page' hm'
    obtain ⟨hm', hne⟩ := ho vm' v' page' hm'
    obtain ⟨hv', hi', hp'⟩ := h.entry vm' v' page' hm'
    refine ⟨hv', hi', ?_⟩
    rw [hs.pte vm' v' hv', if_neg hne, hp']
  · intro vm' v' hv' hvl
    rw [hs.pte vm' v' hv'] at hvl
    split at hvl
    · exact absurd hvl not_pteValid_zero
    · rename_i hne
      obtain ⟨page', hm'⟩ := h.mapped vm' v' hv' hvl
      refine ⟨page', h.nodup.mem_erase_iff.mpr ⟨?_, hm'⟩⟩
      intro heq
      cases heq
      exact hne ⟨rfl, rfl⟩
  · exact h.nodup.erase _

end

/-! ## The references of the ledger -/

section Ledger

variable (l : Ledger ν)

section

omit [DecidableEq ν]

theorem allocRefs_cons :
    Ledger.allocRefs { l with allocs := page :: l.allocs } = bump l.allocRefs page := by
  funext q
  simp only [Ledger.allocRefs, bump, count_cons, beq_iff_eq, eq_comm (a := page)]

theorem allocRefs_erase (h : page ∈ l.allocs) :
    l.allocRefs = bump (Ledger.allocRefs { l with allocs := l.allocs.erase page }) page := by
  rw [← allocRefs_cons]
  funext q
  exact (perm_cons_erase h).count_eq q

theorem mapRefs_direct (page : UInt64) :
    Ledger.mapRefs { l with directs := page :: l.directs } = bump l.mapRefs page := by
  funext q
  simp only [Ledger.mapRefs, bump, count_cons, beq_iff_eq, eq_comm (a := page)]
  omega

theorem mapRefs_eraseDirect (h : page ∈ l.directs) :
    l.mapRefs = bump (Ledger.mapRefs { l with directs := l.directs.erase page }) page := by
  rw [← mapRefs_direct]
  funext q
  simp only [Ledger.mapRefs, (perm_cons_erase h).count_eq q]

theorem mapRefs_map (vm : ν) (v page : UInt64) :
    Ledger.mapRefs { l with maps := (vm, v, page) :: l.maps } = bump l.mapRefs page := by
  funext q
  simp only [Ledger.mapRefs, bump, map_cons, count_cons, beq_iff_eq, eq_comm (a := page)]
  omega

end

theorem mapRefs_eraseMap (h : (vm, v, page) ∈ l.maps) :
    l.mapRefs = bump (Ledger.mapRefs { l with maps := l.maps.erase (vm, v, page) }) page := by
  rw [← mapRefs_map _ vm v]
  funext q
  simp only [Ledger.mapRefs, ((perm_cons_erase h).map fun m => m.2.2).count_eq q]

end Ledger

/-! ## One call -/

/-- **What every clean call keeps.** -/
structure PageInvariant (kernelVm : ν) (s : PageMachine ν) : Prop where
  counted : MemCounted s.mem s.ledger.treePages s.ledger.allocRefs s.ledger.mapRefs
  spans : s.ledger.treePages.Pairwise fun m n => ∀ f, n.Links f → ¬ m.Spans f
  allocs : ∀ page ∈ s.ledger.allocs, Inserted s.ledger.treePages page
  directs : ∀ page ∈ s.ledger.directs, Inserted s.ledger.treePages page
  mapped : Mapped kernelVm s.mem s.ledger.treePages s.ledger.maps

def SameBounds (mem mem' : MemState ν) : Prop :=
  ∀ u w, (mem'.pmap u).Outside w ↔ (mem.pmap u).Outside w

omit [DecidableEq ν] in
theorem sameBounds_of_pmap (h : mem'.pmap = mem.pmap) : SameBounds mem mem' := fun u w => by rw [h]

section Functions

variable {l : Ledger ν} {flags : UInt32} {Q : Prop}

section

variable (h : PageInvariant kernelVm ⟨mem, l⟩)
include h

theorem PageInvariant.pageAlloc :
    Ensures (pageAlloc flags mem.pages) fun r =>
      (r = (mem.pages, .error .exhausted) ∧ mem.freePages = 0) ∨
      ∃ page, r.2 = .ok page ∧ mem.pages.pageFreeQueue.head? = some page ∧
        l.allocRefs page = 0 ∧ l.mapRefs page = 0 ∧ (r.1.pgRefcnt page).toNat = 1 ∧
        PageInvariant kernelVm ⟨{ mem with pages := r.1 }, { l with allocs := page :: l.allocs }⟩ ∧
        mem.freePages ≤ MemState.freePages { mem with pages := r.1 } + 1 := by
  refine (h.counted.alloc flags).mono ?_
  rintro ⟨p', r⟩ (hr | ⟨page, hr, hq, hi, hs', ho⟩)
  · exact .inl hr
  · obtain ⟨-, ha, hm, -⟩ := h.counted.of_mem_free (mem_of_mem_head? hq)
    refine .inr ⟨page, hr, hq, ha, hm, ho, ⟨?_, h.spans,
      forall_mem_cons.mpr ⟨hi, h.allocs⟩, h.directs, h.mapped.same (pteSame_of_pmap rfl)⟩, ?_⟩
    · rw [allocRefs_cons]
      exact hs'
    · refine h.counted.freePages_le (D := [page]) hs' rfl fun q hqa hqm => ?_
      rw [bump, hqa, hqm]
      by_cases hqp : q = page
      · exact .inr (mem_singleton.mpr hqp)
      · exact .inl (by rw [if_neg hqp])

theorem PageInvariant.pageRelease (hp : page ∈ l.allocs) :
    Ensures (mem.onPages (pageRelease page)) fun mem' =>
      PageInvariant kernelVm ⟨mem', { l with allocs := l.allocs.erase page }⟩ ∧
        mem'.pmap = mem.pmap ∧ mem.freePages ≤ mem'.freePages := by
  have hc := h.counted
  rw [allocRefs_erase l hp] at hc
  refine (hc.dropAlloc (h.allocs page hp)).mono ?_
  rintro mem' ⟨hmem, hpm, ht⟩
  refine ⟨⟨hmem, h.spans, fun q hq => h.allocs q (mem_of_mem_erase hq), h.directs,
    h.mapped.same (pteSame_of_pmap hpm)⟩, hpm, ?_⟩
  exact hc.freePages_le (D := []) hmem ht fun q ha hm => .inl (by rw [bump] at ha; omega)

theorem PageInvariant.pageMapDirect (hi : Inserted l.treePages page)
    (hc : (mem.pages.pgRefcnt page).toNat + 1 < 2 ^ 32) (kernel : Bool) :
    Guarded (kernel = true) (pageMapDirect kernel page mem.pages) fun r =>
      r.2 = .ok (pmapMapDirect (pageAddress page)) ∧
        PageInvariant kernelVm
          ⟨{ mem with pages := r.1 }, { l with directs := page :: l.directs }⟩ ∧
        (0 < l.allocRefs page → mem.freePages ≤ MemState.freePages { mem with pages := r.1 }) := by
  refine (h.counted.mapDirect hi hc kernel).mono ?_
  rintro ⟨p', r⟩ ⟨hr, hs'⟩
  refine ⟨hr, ⟨?_, h.spans, h.allocs, forall_mem_cons.mpr ⟨hi, h.directs⟩,
    h.mapped.same (pteSame_of_pmap rfl)⟩, fun hh => ?_⟩
  · rw [mapRefs_direct]
    exact hs'
  · refine h.counted.freePages_le (D := []) hs' rfl fun q ha hm => .inl ?_
    rw [bump, ha, hm, if_neg]
    rintro rfl
    dsimp only at ha
    omega

theorem PageInvariant.pageUnmapDirect (hp : page ∈ l.directs) :
    Ensures (mem.onPages (pageUnmapDirect page)) fun mem' =>
      PageInvariant kernelVm ⟨mem', { l with directs := l.directs.erase page }⟩ ∧
        mem'.pmap = mem.pmap ∧ mem.freePages ≤ mem'.freePages := by
  have hc := h.counted
  rw [mapRefs_eraseDirect l hp] at hc
  refine (hc.dropMap (h.directs page hp)).mono ?_
  rintro mem' ⟨hmem, hpm, ht⟩
  refine ⟨⟨hmem, h.spans, h.allocs, fun q hq => h.directs q (mem_of_mem_erase hq),
    h.mapped.same (pteSame_of_pmap hpm)⟩, hpm, ?_⟩
  exact hc.freePages_le (D := []) hmem ht fun q ha hm => .inl (by rw [bump] at hm; omega)

theorem PageInvariant.pageMap (hv : PageAligned v) (hi : Inserted l.treePages page)
    (hn : ¬ pteValid ((mem.pmap vm).pte v)) (hc : (mem.pages.pgRefcnt page).toNat + 1 < 2 ^ 32)
    (hQ : Q → 0 < l.allocRefs page ∧ 2 ≤ mem.freePages) :
    Guarded Q (pageMap kernelVm vm v page mem) fun r =>
      ((r.2 = .ok () ∧ PageInvariant kernelVm ⟨r.1, { l with maps := (vm, v, page) :: l.maps }⟩) ∨
        (∃ e, r.2 = .error e) ∧ PageInvariant kernelVm ⟨r.1, l⟩ ∧ (mem.pmap vm).Outside v) ∧
      SameBounds mem r.1 ∧ (0 < l.allocRefs page → mem.freePages ≤ r.1.freePages + 2) := by
  have hcn : Guarded Q (Glatt.pageMap kernelVm vm v page mem) _ :=
    h.counted.pageMap hi hc fun hq _ => ⟨Nat.add_pos_left (hQ hq).1 _, (hQ hq).2, by
      rwa [hv.floor]⟩
  refine (hcn.and (pageMap_pte hv)).mono ?_
  rintro ⟨mem', r⟩ ⟨⟨⟨hr, hs'⟩ | ⟨⟨e, hr⟩, hs', ho⟩, hf⟩, hp⟩
  -- the mapping has been made
  · dsimp only at hr
    subst hr
    obtain ⟨-, -, hset⟩ := hp.resolve_right fun ⟨⟨e, he⟩, _⟩ => by cases he
    refine ⟨.inl ⟨rfl, ?_, h.spans, h.allocs, h.directs, h.mapped.map hv hi hn hset⟩,
      hset.outside, fun hh => hf (Nat.add_pos_left hh _)⟩
    rw [mapRefs_map]
    exact hs'
  -- the address is outside of the page table
  · dsimp only at hr
    subst hr
    obtain ⟨-, hsm⟩ := hp.resolve_left fun ⟨he, _⟩ => by cases he
    exact ⟨.inr ⟨⟨e, rfl⟩, ⟨hs', h.spans, h.allocs, h.directs, h.mapped.same hsm⟩, ho⟩,
      hsm.outside, fun hh => hf (Nat.add_pos_left hh _)⟩

theorem PageInvariant.pageUnmap (hm : (vm, v, page) ∈ l.maps) :
    Ensures (pageUnmap vm v page mem) fun r => r.2 = .ok () ∧
      PageInvariant kernelVm ⟨r.1, { l with maps := l.maps.erase (vm, v, page) }⟩ ∧
      SameBounds mem r.1 ∧ mem.freePages ≤ r.1.freePages := by
  obtain ⟨hv, hi, -⟩ := h.mapped.entry vm v page hm
  have hvl := (h.mapped.pmapExtract hm).1
  have hc := h.counted
  rw [mapRefs_eraseMap l hm] at hc
  obtain ⟨⟨mem', r⟩, hrun, hs', ht⟩ := hc.pageUnmap hi
  refine ⟨_, hrun, ?_⟩
  rcases pageUnmap_pte hv _ hrun with ⟨hr, -, hset⟩ | ⟨-, -, hnot, -⟩ | ⟨-, hn, -⟩
  · subst hr
    obtain ⟨-, hs'⟩ := hs'.resolve_right fun ⟨⟨e, he⟩, _⟩ => by cases he
    exact ⟨rfl, ⟨hs', h.spans, h.allocs, h.directs,
      h.mapped.unmap h.counted.counted.desc.disjoint hm hset⟩, hset.outside,
      hc.freePages_le (D := []) hs' ht fun q ha hm => .inl (by
        rw [bump] at hm
        omega)⟩
  · exact absurd hvl hnot
  · rw [pmapFind_of_pteValid hvl] at hn
    cases hn

theorem PageInvariant.pageAllocMap (hv : PageAligned v) (hn : ¬ pteValid ((mem.pmap vm).pte v))
    (hQ : Q → 3 ≤ mem.freePages) :
    Guarded Q (pageAllocMap kernelVm vm flags v mem) fun r =>
      ((∃ page, mem.pages.pageFreeQueue.head? = some page ∧ l.allocRefs page = 0 ∧
          l.mapRefs page = 0 ∧ r.2 = .ok () ∧ PageInvariant kernelVm
            ⟨r.1, { l with allocs := page :: l.allocs, maps := (vm, v, page) :: l.maps }⟩) ∨
        (∃ e, r.2 = .error e) ∧ PageInvariant kernelVm ⟨r.1, l⟩ ∧
          (mem.freePages = 0 ∨ (mem.pmap vm).Outside v)) ∧
      SameBounds mem r.1 ∧ mem.freePages ≤ r.1.freePages + 3 := by
  have hc : Guarded Q (Glatt.pageAllocMap kernelVm vm flags v mem) _ :=
    h.counted.pageAllocMap flags fun hq _ => ⟨hQ hq, by rwa [hv.floor]⟩
  refine (hc.and (pageAllocMap_pte hv flags)).mono ?_
  rintro ⟨mem', r⟩ ⟨⟨⟨page, hq, hi, hr, hs'⟩ | ⟨⟨e, hr⟩, hs', hw⟩, hf⟩, hp⟩
  · subst hr
    obtain ⟨page', hq', -, -, hset⟩ := hp.resolve_right fun ⟨⟨e, he⟩, _⟩ => by cases he
    obtain rfl : page = page' := Option.some.inj (hq.symm.trans hq')
    obtain ⟨-, ha, hm, -⟩ := h.counted.of_mem_free (mem_of_mem_head? hq)
    refine ⟨.inl ⟨page, hq, ha, hm, rfl, ?_, h.spans, forall_mem_cons.mpr ⟨hi, h.allocs⟩,
      h.directs, h.mapped.map hv hi hn hset⟩, hset.outside, hf⟩
    have hrf := mapRefs_map { l with allocs := page :: l.allocs } vm v page
    rw [allocRefs_cons { l with maps := (vm, v, page) :: l.maps }, hrf]
    exact hs'
  · subst hr
    obtain ⟨-, hsm⟩ := hp.resolve_left fun ⟨_, _, he, _⟩ => by cases he
    exact ⟨.inr ⟨⟨e, rfl⟩, ⟨hs', h.spans, h.allocs, h.directs, h.mapped.same hsm⟩, hw⟩,
      hsm.outside, hf⟩

theorem PageInvariant.pageExtract (hm : (vm, v, page) ∈ l.maps) :
    pageExtract kernelVm vm v mem = .ok (.ok page) :=
  h.counted.pageExtract h.spans (h.mapped.entry vm v page hm).2.1 (h.mapped.pmapExtract hm).2

theorem PageInvariant.pageFreeMap (hm : (vm, v, page) ∈ l.maps) (ha : page ∈ l.allocs) :
    Ensures (pageFreeMap kernelVm vm v mem) fun r => r.2 = .ok () ∧
      PageInvariant kernelVm
        ⟨r.1, { l with allocs := l.allocs.erase page, maps := l.maps.erase (vm, v, page) }⟩ ∧
      SameBounds mem r.1 ∧ mem.freePages ≤ r.1.freePages := by
  rw [Glatt.pageFreeMap, h.pageExtract hm]
  refine (h.pageUnmap hm).bind ?_
  rintro ⟨mem₁, r⟩ ⟨hr, h₁, hb, hf⟩
  subst hr
  refine (h₁.pageRelease ha).bind ?_
  rintro mem₂ ⟨h₂, hp, hf₂⟩
  exact .ret ⟨rfl, h₂, fun u w => by rw [hp, hb u w], hf.trans hf₂⟩

end

end Functions

def Keeps (kernelVm : ν) (s : PageMachine ν) (c : PageCall ν) : Prop :=
  Yields (c.run kernelVm s.mem) fun x => PageInvariant kernelVm (s.after c x)

variable {s : PageMachine ν} {flags : UInt32}

section

variable (h : PageInvariant kernelVm s)
include h

theorem PageInvariant.alloc : Keeps kernelVm s (.alloc flags) := by
  refine h.pageAlloc.yields.bind ?_
  rintro ⟨p', r⟩ (⟨hr, -⟩ | ⟨page, hr, hq, -, -, -, hs', -⟩)
  · cases hr
    exact .ret h
  · subst hr
    simp only [yields_pure, PageMachine.after, Ledger.record, take_one, hq]
    exact hs'

theorem PageInvariant.release (hp : page ∈ s.ledger.allocs) : Keeps kernelVm s (.release page) :=
  (h.pageRelease hp).yields.bind fun _ hmem => .ret hmem.1

theorem PageInvariant.mapDirect (hi : Inserted s.ledger.treePages page)
    (hc : (s.mem.pages.pgRefcnt page).toNat + 1 < 2 ^ 32) :
    Keeps kernelVm s (.mapDirect vm page) := by
  refine (h.pageMapDirect hi hc _).yields.bind ?_
  rintro ⟨p', r⟩ ⟨hr, hs', -⟩
  subst hr
  exact .ret hs'

theorem PageInvariant.unmapDirect (hp : page ∈ s.ledger.directs) :
    Keeps kernelVm s (.unmapDirect page) :=
  (h.pageUnmapDirect hp).yields.bind fun _ hmem => .ret hmem.1

theorem PageInvariant.allocDirect : Keeps kernelVm s (.allocDirect vm flags) := by
  refine (h.counted.allocDirect _ flags).yields.bind ?_
  rintro ⟨p', r⟩ (⟨hr, -⟩ | ⟨page, hr, hq, hi, hs'⟩)
  · cases hr
    exact .ret h
  · subst hr
    simp only [yields_pure, Except.map, PageMachine.after, Ledger.record, take_one, hq,
      Option.toList_some, singleton_append]
    refine ⟨?_, h.spans, forall_mem_cons.mpr ⟨hi, h.allocs⟩,
      forall_mem_cons.mpr ⟨hi, h.directs⟩, h.mapped.same (pteSame_of_pmap rfl)⟩
    have hrf := mapRefs_direct { s.ledger with allocs := page :: s.ledger.allocs } page
    rw [allocRefs_cons { s.ledger with directs := page :: s.ledger.directs }, hrf]
    exact hs'

theorem PageInvariant.map (hv : PageAligned v) (hi : Inserted s.ledger.treePages page)
    (hn : ¬ pteValid ((s.mem.pmap vm).pte v))
    (hc : (s.mem.pages.pgRefcnt page).toNat + 1 < 2 ^ 32) : Keeps kernelVm s (.map vm v page) := by
  refine (h.pageMap hv hi hn hc False.elim).yields.mono ?_
  rintro ⟨mem, r⟩ ⟨⟨hr, hs'⟩ | ⟨⟨e, hr⟩, hs', -⟩, -⟩
  · cases hr
    exact hs'
  · cases hr
    exact hs'

theorem PageInvariant.unmap (hv : PageAligned v)
    (hp : (vm, v, page) ∈ s.ledger.maps ∨ pmapFind (s.mem.pmap vm) v = none) :
    Keeps kernelVm s (.unmap vm v page) := by
  rcases hp with hm | hn
  -- a mapping of the ledger is removed
  · refine (h.pageUnmap hm).yields.mono ?_
    rintro ⟨mem, r⟩ ⟨hr, hs', -⟩
    cases hr
    exact hs'
  -- there is no page table for the address
  · refine (pageUnmap_pte hv).mono ?_
    rintro ⟨mem, r⟩ (⟨-, hvl, -⟩ | ⟨-, hsm, -, -⟩ | ⟨⟨e, hr⟩, -, hs⟩)
    · rw [pmapFind_of_pteValid hvl] at hn
      cases hn
    · rw [hn] at hsm
      cases hsm
    · subst hr hs
      exact h

theorem PageInvariant.allocMap (hv : PageAligned v) (hn : ¬ pteValid ((s.mem.pmap vm).pte v)) :
    Keeps kernelVm s (.allocMap vm flags v) := by
  refine (h.pageAllocMap hv hn False.elim).yields.mono ?_
  rintro ⟨mem, r⟩ ⟨⟨page, hq, -, -, hr, hs'⟩ | ⟨⟨e, hr⟩, hs', -⟩, -⟩
  · subst hr
    simp only [PageMachine.after, Ledger.record, take_one, hq]
    exact hs'
  · cases hr
    exact hs'

theorem PageInvariant.freeMap
    (hp : (vm, v, page) ∈ s.ledger.maps ∧ page ∈ s.ledger.allocs ∨ ∃ e, pmapExtract kernelVm vm v
      s.mem = .error e) :
    Keeps kernelVm s (.freeMap vm v page) := by
  rcases hp with ⟨hm, ha⟩ | ⟨e, he⟩
  · refine (h.pageFreeMap hm ha).yields.mono ?_
    rintro ⟨mem, r⟩ ⟨hr, hs', -⟩
    cases hr
    exact hs'
  -- nothing is mapped at the address
  · rw [Keeps, PageCall.run, Glatt.pageFreeMap, Glatt.pageExtract, he]
    exact .ret h

theorem PageInvariant.freeDirect
    (hp : (vm = kernelVm ∧ v = pmapMapDirect (pageAddress page)) ∧ page ∈ s.ledger.directs ∧ page ∈
      s.ledger.allocs ∨ ∃ e, pmapExtract kernelVm vm v s.mem = .error e) :
    Keeps kernelVm s (.freeDirect vm v page) := by
  rcases hp with ⟨⟨rfl, rfl⟩, hd, ha⟩ | ⟨e, he⟩
  · have hc := h.counted
    rw [mapRefs_eraseDirect s.ledger hd, allocRefs_erase s.ledger ha] at hc
    have hi := h.allocs page ha
    refine (hc.pageFreeDirect h.spans hi hi.pmapExtract_direct).yields.mono ?_
    rintro ⟨mem, r⟩ ⟨hr, hs', hpm⟩
    subst hr
    exact ⟨hs', h.spans, fun q hq => h.allocs q (mem_of_mem_erase hq),
      fun q hq => h.directs q (mem_of_mem_erase hq), h.mapped.same (pteSame_of_pmap hpm)⟩
  · rw [Keeps, PageCall.run, pageFreeDirect, Glatt.pageExtract, he]
    exact .ret h

end

/-! ## Insertion -/

omit [DecidableEq ν] in
theorem treePages_snoc (l : Ledger ν) (r : PageRange) :
    Ledger.treePages { l with ranges := l.ranges ++ [r] } = l.treePages ++ r.treePages := by
  simp [Ledger.treePages]

theorem pairwise_treePages {first pages : ℕ} (h : first + pages ≤ frameEnd) :
    (treePages first pages h).Pairwise fun m n => ∀ f, n.Links f → ¬ m.Spans f := by
  induction first, pages, h using treePages.induct with
  | case1 first pages h hp =>
    rw [treePages, dif_pos hp]
    exact List.Pairwise.nil
  | case2 first pages h hp ih =>
    rw [treePages, dif_neg hp]
    refine pairwise_cons.mpr ⟨fun n hn f hl hs => ?_, ih⟩
    -- a second page tree page begins 340 pages after the first
    have hln := (links_treePages _ f).mp ⟨n, hn, hl⟩
    simp only [TreePage.Spans] at hs
    have hle : ¬ pages - min 340 pages ≤ 1 := by
      intro hle
      rw [treePages, dif_pos hle] at hn
      cases hn
    omega

omit [DecidableEq ν] in
theorem exists_range_of_links {l : Ledger ν} {n : TreePage} (hn : n ∈ l.treePages) :
    ∃ r ∈ l.ranges, n ∈ r.treePages := mem_flatMap.mp hn

theorem TreePage.Spans.links_or_spills {r : PageRange} {n : TreePage} {f : ℕ} (hs : n.Spans f)
    (hn : n ∈ r.treePages) : r.Links f ∨ r.Spills f := by
  by_cases hl : n.Links f
  · exact .inl (PageRange.links_iff.mpr ⟨n, hn, hl⟩)
  · exact .inr (spills_of_spans r.le_frames hn hs hl)

section Insert

variable {r : PageRange} (hds : ∀ r' ∈ s.ledger.ranges, ∀ f, r'.Contains f → ¬ r.Contains f)
include hds

omit [DecidableEq ν] in
theorem not_contains_of_links {m : TreePage} (hm : m ∈ s.ledger.treePages) {f : ℕ}
    (hl : m.Links f) : ¬ r.Contains f := by
  obtain ⟨r', hr', hm⟩ := exists_range_of_links hm
  exact hds r' hr' f (PageRange.links_iff.mpr ⟨m, hm, hl⟩).contains

omit [DecidableEq ν] in
theorem pageAddress_ne_of_disjoint {q q' : UInt64} (hq : Inserted r.treePages q)
    (hq' : Inserted s.ledger.treePages q') : pageAddress q ≠ pageAddress q' := by
  intro heq
  obtain ⟨f, hf, ha⟩ := hq.frame
  obtain ⟨n, hn, hnl, -⟩ := (inserted_iff hf).mp ⟨hq, ha⟩
  obtain ⟨m, hm, hml, -⟩ := (inserted_iff hf).mp ⟨hq', heq ▸ ha⟩
  exact not_contains_of_links hds hm hml (PageRange.links_iff.mpr ⟨n, hn, hnl⟩).contains

theorem PageInvariant.refs_eq_zero (h : PageInvariant kernelVm s) {q : UInt64}
    (hq : Inserted r.treePages q) :
    s.ledger.allocRefs q = 0 ∧ s.ledger.mapRefs q = 0 ∧ ptRefs s.mem q = 0 := by
  have hn : ∀ q', Inserted s.ledger.treePages q' → pageAddress q ≠ pageAddress q' :=
    fun q' hq' => pageAddress_ne_of_disjoint hds hq hq'
  refine ⟨?_, Nat.add_eq_zero_iff.mpr ⟨?_, ?_⟩, ?_⟩
  · exact count_eq_zero.mpr fun hm => hn q (h.allocs q hm) rfl
  · exact count_eq_zero.mpr fun hm => hn q (h.directs q hm) rfl
  · refine count_eq_zero.mpr fun hm => ?_
    obtain ⟨⟨vm, v, q'⟩, hmap, rfl⟩ := mem_map.mp hm
    exact hn q' (h.mapped.entry vm v q' hmap).2.1 rfl
  · refine count_eq_zero.mpr fun hm => ?_
    obtain ⟨q', hq', heq⟩ := h.counted.tables _ hm
    apply hn q' hq'
    rw [← hq.extract_direct, heq, hq'.extract_direct]

theorem PageInvariant.insertPages (h : PageInvariant kernelVm s)
    (hcl : ∀ r' ∈ s.ledger.ranges, ∀ f, r.Links f → ¬ r'.Spills f) :
    Keeps kernelVm s (.insertPages r) := by
  have hz : ∀ n ∈ r.treePages, ∀ q ∈ n.entries,
      s.ledger.allocRefs q + s.ledger.mapRefs q + 2 * ptRefs s.mem q = 0 := by
    intro n hn q hq
    obtain ⟨ha, hm, hpt⟩ := h.refs_eq_zero hds ⟨n, hn, hq⟩
    omega
  have hnew : ∀ m ∈ s.ledger.treePages, ∀ f, m.Links f → ¬ r.Contains f :=
    fun m hm f => not_contains_of_links hds hm
  have hmn : ∀ q, Inserted s.ledger.treePages q → Inserted (s.ledger.treePages ++ r.treePages) q :=
    fun q ⟨n, hn, hq⟩ => ⟨n, mem_append_left _ hn, hq⟩
  refine Yields.bind (P := fun mem => Counted mem.pages (s.ledger.treePages ++ r.treePages)
    (fun q => s.ledger.allocRefs q + s.ledger.mapRefs q + 2 * ptRefs s.mem q) ∧
    mem.pmap = s.mem.pmap ∧ mem.ptPages = s.mem.ptPages) ?_ ?_
  · exact (h.counted.counted.insert r hnew hz).yields.bind fun p' hp' => .ret ⟨hp', rfl, rfl⟩
  · rintro mem ⟨hc, hpm, hpt⟩
    have hrf : ptRefs mem = ptRefs s.mem := by
      funext q
      rw [ptRefs, ptRefs, hpt]
    refine .ret ?_
    simp only [PageMachine.after, Ledger.record]
    constructor
    · rw [treePages_snoc]
      refine ⟨by rw [hrf]; exact hc, ?_, ?_⟩
      · rw [hpt]
        intro a ha
        obtain ⟨q, hq, heq⟩ := h.counted.tables a ha
        exact ⟨q, hmn q hq, heq⟩
      -- a new page has no owner but a page tree page, and an old one holds no new page tree page
      · rintro q hq
        rw [hrf]
        by_cases hr : Inserted r.treePages q
        · obtain ⟨ha, -, hpt⟩ := h.refs_eq_zero hds hr
          have hle := nodeRefs_le_one hc.desc.disjoint q
          simp only [Ledger.allocRefs] at ha ⊢
          omega
        · have hold : Inserted s.ledger.treePages q := by
            obtain ⟨n, hn, hmem⟩ := hq
            rcases mem_append.mp hn with hn | hn
            · exact ⟨n, hn, hmem⟩
            · exact absurd ⟨n, hn, hmem⟩ hr
          rw [nodeRefs_append, nodeRefs_eq_zero hr]
          exact h.counted.holders q hold
    · rw [treePages_snoc]
      refine pairwise_append.mpr
        ⟨h.spans, pairwise_treePages r.le_frames, fun m hm n hn f hl hs => ?_⟩
      obtain ⟨r', hr', hm'⟩ := exists_range_of_links hm
      have hln : r.Links f := PageRange.links_iff.mpr ⟨n, hn, hl⟩
      rcases hs.links_or_spills hm' with hl' | hs'
      · exact hds r' hr' f hl'.contains hln.contains
      · exact hcl r' hr' f hln hs'
    · rw [treePages_snoc]
      exact fun q hq => hmn q (h.allocs q hq)
    · rw [treePages_snoc]
      exact fun q hq => hmn q (h.directs q hq)
    · rw [treePages_snoc]
      have hsm := h.mapped.same (pteSame_of_pmap hpm)
      refine ⟨fun vm v page hm => ?_, hsm.mapped, hsm.nodup⟩
      obtain ⟨hv, hi, hpte⟩ := hsm.entry vm v page hm
      exact ⟨hv, hmn page hi, hpte⟩

end Insert

/-! ## Every run -/

theorem pageInvariant_boot (pages : PageState) :
    PageInvariant kernelVm (PageMachine.boot kernelVm pages) := by
  have hno : ∀ q, ¬ Inserted (PageMachine.boot kernelVm pages).ledger.treePages q := by
    rintro q ⟨n, hn, -⟩
    cases hn
  refine ⟨⟨⟨described_pageInit, nodup_nil, ?_, ?_⟩, ?_, ?_⟩, List.Pairwise.nil, ?_, ?_,
    ?_, ?_, nodup_nil⟩
  · exact fun q hq => absurd hq (hno q)
  · exact fun q hq => absurd hq (hno q)
  · exact nofun
  · exact fun q hq => absurd hq (hno q)
  · exact nofun
  · exact nofun
  · exact nofun
  -- the page tables have no entries
  · intro vm v _ hv
    have hf := pmapFind_of_pteValid hv
    rw [pmapFind_empty] at hf
    · cases hf
    · intro i
      simp only [PageMachine.boot]
      split <;> rfl

theorem PageInvariant.step {s' : PageMachine ν} {c : PageCall ν} (h : PageInvariant kernelVm s)
    (hc : Clean s c) (hs : PageStep kernelVm s c s') : PageInvariant kernelVm s' := by
  obtain ⟨hp, hrun⟩ := hs
  suffices hk : Keeps kernelVm s c from hk _ hrun
  cases c with
  | insertPages r => exact h.insertPages hp hc
  | alloc flags => exact h.alloc
  | release page => exact h.release hp
  | mapDirect vm page => exact h.mapDirect hp hc
  | unmapDirect page => exact h.unmapDirect hp
  | map vm v page => exact h.map hp.1 hp.2 hc.1 hc.2
  | unmap vm v page => exact h.unmap hp.1 hp.2
  | allocDirect vm flags => exact h.allocDirect
  | allocMap vm flags v => exact h.allocMap hp hc
  | freeMap vm v page => exact h.freeMap hp.2
  | freeDirect vm v page => exact h.freeDirect hp

/-- The owners of a page: a page tree page, a caller of `page_alloc`, or a page table. -/
def PageMachine.owners (s : PageMachine ν) (page : UInt64) : ℕ :=
  nodeRefs s.ledger.treePages page + s.ledger.allocRefs page + ptRefs s.mem page

def PageMachine.mappings (s : PageMachine ν) (page : UInt64) : ℕ :=
  s.ledger.mapRefs page + ptRefs s.mem page

/-- **The page queues are sound.** After every run of clean calls each inserted page is linked once
in one of the queues, in the free queue exactly when its count is 0, and its count is one for its
owner, if any, plus the number of its mappings, the valid entries of the page tables. -/
theorem page_queues_sound (pages : PageState) {h : List (PageMachine ν × PageCall ν)}
    (hr : Run (PageStep kernelVm) (PageMachine.boot kernelVm pages) h s)
    (hclean : ∀ e ∈ h, Clean e.1 e.2) :
    (∀ page, Inserted s.ledger.treePages page →
      s.mem.pages.pageFreeQueue.count page + s.mem.pages.pageUseQueue.count page = 1 ∧
      (page ∈ s.mem.pages.pageFreeQueue ↔ s.mem.pages.pgRefcnt page = 0) ∧
      (s.mem.pages.pgRefcnt page).toNat = s.owners page + s.mappings page ∧
      s.owners page ≤ 1) ∧
    ∀ vm v, PageAligned v →
      (pteValid ((s.mem.pmap vm).pte v) ↔ ∃ page, (vm, v, page) ∈ s.ledger.maps) := by
  have hinv : PageInvariant kernelVm s := hr.invariant_of_forall (pageInvariant_boot pages)
    (fun _ _ _ hinv hc hs => hinv.step hc hs) hclean
  have hcn := hinv.counted.counted
  constructor
  · intro page hi
    refine ⟨?_, hcn.free_iff page hi, ?_, hinv.counted.holders page hi⟩
    · rw [← count_append]
      exact count_eq_one_of_mem hcn.nodup (hcn.mem_append.mpr hi)
    · rw [hcn.count page hi, PageMachine.owners, PageMachine.mappings]
      omega
  · intro vm v hv
    constructor
    · exact hinv.mapped.mapped vm v hv
    · rintro ⟨page, hm⟩
      exact (hinv.mapped.pmapExtract hm).1

/-- Two pages are inserted, and the one that is free is allocated and mapped. -/
theorem page_queues_sound_map : ∃ h s,
    Run (PageStep 0) (PageMachine.boot 0 blankPages) h s ∧ (∀ e ∈ h, Clean e.1 e.2) ∧
      s.mem.pages.pageFreeQueue.count (entryOf 16 1) +
        s.mem.pages.pageUseQueue.count (entryOf 16 1) = 1 ∧
      s.owners (entryOf 16 1) = 1 ∧ s.mappings (entryOf 16 1) = 1 ∧
      (s.mem.pages.pgRefcnt (entryOf 16 1)).toNat = 2 := by
  have ht : ∀ {l : Ledger ℕ}, l.ranges = [⟨16, 2, by decide⟩] →
      l.treePages = [⟨16, 2, by decide, by decide, by decide⟩] := fun hl => by
    rw [Ledger.treePages, hl, flatMap_singleton, PageRange.treePages, treePages_pair]
  have hi : ∀ {l : Ledger ℕ}, l.ranges = [⟨16, 2, by decide⟩] →
      Inserted l.treePages (entryOf 16 1) := fun hl => by
    rw [ht hl]
    exact ⟨_, mem_singleton_self _, TreePage.mem_entries.mpr ⟨1, by decide, rfl⟩⟩
  have hr₁ : Run (PageStep 0) (PageMachine.boot 0 blankPages) _ _ :=
    Run.nil.snoc (PageStep.call (c := .insertPages ⟨16, 2, by decide⟩)
      (forall_mem_nil _) rfl)
  have hr₂ := hr₁.snoc (PageStep.call (c := .alloc 0) trivial rfl)
  have hr₃ := hr₂.snoc (PageStep.call (c := .mapDirect 0 (entryOf 16 1)) (hi rfl) rfl)
  obtain ⟨h, s, hr, hc, hl, hp⟩ : ∃ h s, Run (PageStep 0) (PageMachine.boot 0 blankPages)
      h s ∧ (∀ e ∈ h, Clean e.1 e.2) ∧
      s.ledger = ⟨[⟨16, 2, by decide⟩], [entryOf 16 1], [entryOf 16 1], []⟩ ∧
      s.mem.ptPages = [] :=
    ⟨_, _, hr₃, forall_mem_append.mpr ⟨forall_mem_append.mpr ⟨forall_mem_singleton.mpr
      (forall_mem_nil _), forall_mem_singleton.mpr trivial⟩,
      forall_mem_singleton.mpr (by decide : 1 + 1 < 2 ^ 32)⟩, rfl, rfl⟩
  have hrg : s.ledger.ranges = [⟨16, 2, by decide⟩] := by rw [hl]
  have ho : s.owners (entryOf 16 1) = 1 := by
    rw [PageMachine.owners, ht hrg, hl, ptRefs, hp]
    decide
  have hm : s.mappings (entryOf 16 1) = 1 := by
    rw [PageMachine.mappings, hl, ptRefs, hp]
    decide
  obtain ⟨hcount, -, hrefs, -⟩ := (page_queues_sound blankPages hr hc).1 _ (hi hrg)
  exact ⟨h, s, hr, hc, hcount, ho, hm, by rw [hrefs, ho, hm]⟩

theorem Ledger.treePages_pairs {l : Ledger ℕ} {a b : ℕ} {ha : a + 2 ≤ frameEnd}
    {hb : b + 2 ≤ frameEnd} (h : l.ranges = [⟨a, 2, ha⟩, ⟨b, 2, hb⟩]) :
    l.treePages = [⟨a, 2, by decide, by decide, ha⟩, ⟨b, 2, by decide, by decide, hb⟩] := by
  simp only [h, treePages, flatMap_cons, flatMap_nil, PageRange.treePages,
    treePages_pair, singleton_append]

theorem next_pages_disjoint (f : ℕ) (hf : PageRange.Contains ⟨16, 2, add_two_le_frameEnd⟩ f) :
    ¬ PageRange.Contains ⟨18, 2, next_add_two_le_frameEnd⟩ f := by
  simp only [PageRange.Contains] at hf ⊢
  omega

/-- Two pages are inserted at page 16 and the next two at page 18, and the pages 17 and 19 are
allocated in the direct map. -/
def directRun : { x : List _ × PageMachine ℕ //
    Run (PageStep 0) (PageMachine.boot 0 blankPages) x.1 x.2 } :=
  ⟨(_, _), ((((Run.nil : Run (PageStep 0) (PageMachine.boot 0 blankPages) _ _).snoc
    (PageStep.call (c := .insertPages ⟨16, 2, add_two_le_frameEnd⟩) (forall_mem_nil _) rfl)).snoc
    (PageStep.call (c := .insertPages ⟨18, 2, next_add_two_le_frameEnd⟩)
      (forall_mem_singleton.mpr next_pages_disjoint) rfl)).snoc
    (PageStep.call (c := .allocDirect 0 0) trivial rfl)).snoc
    (PageStep.call (c := .allocDirect 0 0) trivial rfl)⟩

/-- **A reference is dropped on the wrong page.** Page 19 is freed, and its entry keeps two
references, although no one holds any: `page_lookup` has found another one. -/
theorem page_free_direct_leaks : ∃ h s,
    Run (PageStep 0) (PageMachine.boot 0 blankPages) h s ∧
      Inserted s.ledger.treePages (entryOf 18 1) ∧
      s.mem.pages.pgRefcnt (entryOf 18 1) = 2 ∧
      s.owners (entryOf 18 1) = 0 ∧ s.mappings (entryOf 18 1) = 0 := by
  have hr₅ := directRun.2.snoc (PageStep.call
    (c := .freeDirect 0 (pmapMapDirect (frameAddr 19)) (entryOf 18 1))
    (.inl ⟨⟨rfl, by decide⟩, mem_cons_self, mem_cons_self⟩) rfl)
  obtain ⟨h, s, hr, hl, hp, href⟩ : ∃ h s, Run (PageStep 0) (PageMachine.boot 0 blankPages) h s ∧
      s.ledger = ⟨[⟨16, 2, by decide⟩, ⟨18, 2, by decide⟩], [entryOf 16 1], [entryOf 16 1], []⟩ ∧
      s.mem.ptPages = [] ∧ s.mem.pages.pgRefcnt (entryOf 18 1) = 2 :=
    ⟨_, _, hr₅, rfl, rfl, rfl⟩
  have ht : s.ledger.treePages =
      [⟨16, 2, by decide, by decide, by decide⟩, ⟨18, 2, by decide, by decide, by decide⟩] :=
    Ledger.treePages_pairs (by rw [hl])
  refine ⟨h, s, hr, ?_, href, ?_, ?_⟩
  · rw [ht]
    exact ⟨_, mem_cons_of_mem _ (mem_singleton_self _),
      TreePage.mem_entries.mpr ⟨1, by decide, rfl⟩⟩
  · rw [PageMachine.owners, ht, hl, ptRefs, hp]
    decide
  · rw [PageMachine.mappings, hl, ptRefs, hp]
    decide

end Glatt
