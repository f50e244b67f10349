import Glatt.Vm.IndexFailure
import Glatt.Vm.Wiring
import Mathlib.Data.List.Intervals

/-!
# Wiring is undone

`vm_unwire` after `vm_wire`. Both count the pages of the range for themselves, and look the pages up
by different ways: for one page through the user's page table both times, for more through the
user's and then through the kernel's. The same pages are found, because an entry of a page table
gives back the address of its page, and `page_lookup` has one answer for an address, be it the entry
that was linked for the page or not. So every reference that has been taken is given back.

What stays is what the page tables of the kernel have needed: their pages come from the free queue,
and are never given back.

## Main definitions

* `WireSound`: the states in which memory is sound
* `SeesBytes`, `WireUndone`: what `vm_wire` gives, and what `vm_unwire` leaves

## Main results

* `Held.hold`, `Held.drop`: a reference is taken, and given back
* `VmOwned.wireSound`: memory that agrees with a ledger is sound
* `vmWirePages_range`, `vmUnwirePages_range`: the loops of `vm_wire` and `vm_unwire`
* `wireUndone_one`, `wireUndone_many`: `vm_unwire` undoes `vm_wire`
-/

namespace Glatt

open Imperative List

/-! ## References -/

/-- **References have been taken**: `refs q` on each page, and two on each of the pages `D`, which
were free. No count has been 0 when a reference was taken. -/
structure Held (p p' : PageState) (D : List UInt64) (refs : UInt64 → ℕ) : Prop where
  tree : p'.pageTree = p.pageTree
  count : ∀ q, p'.pgRefcnt q = if q ∈ D then 2 else p.pgRefcnt q + UInt32.ofNat (refs q)
  free : ∀ q, q ∈ p'.pageFreeQueue ↔ q ∈ p.pageFreeQueue ∧ q ∉ D
  nodup : p'.pageFreeQueue.Nodup
  taken : ∀ q ∈ D, q ∈ p.pageFreeQueue
  unheld : ∀ q ∈ p.pageFreeQueue, refs q = 0
  pos : ∀ q, ∀ j < refs q, p.pgRefcnt q + UInt32.ofNat j ≠ 0

variable {p p' : PageState} {D : List UInt64} {refs : UInt64 → ℕ} {page : UInt64}

theorem Held.refl (h : p.pageFreeQueue.Nodup) : Held p p [] fun _ => 0 where
  tree := rfl
  count q := by simp
  free q := by simp
  nodup := h
  taken q hq := absurd hq not_mem_nil
  unheld _ _ := rfl
  pos q j hj := absurd hj (Nat.not_lt_zero j)

theorem Held.count_of_not_free (h : Held p p' D refs) (hp : page ∉ p.pageFreeQueue) :
    p'.pgRefcnt page = p.pgRefcnt page + UInt32.ofNat (refs page) := by
  rw [h.count, if_neg fun hD => hp (h.taken page hD)]

theorem Held.hold (h : Held p p' D refs) (hp : page ∉ p.pageFreeQueue) :
    Yields (pageRefHold page p') fun p'' => Held p p'' D (bump refs page) := by
  have hc := h.count_of_not_free hp
  rw [pageRefHold]
  split
  · -- the page would have to be in the free queue
    have hn : page ∉ p'.pageFreeQueue := fun hq => hp ((h.free page).mp hq).1
    rw [tailqRemove, if_neg hn]
    exact yields_error
  · rename_i hne
    refine .ret ⟨h.tree, fun q => ?_, h.free, h.nodup, h.taken, fun q hq => ?_, fun q j hj => ?_⟩
    · rw [setRefcnt_pgRefcnt, bump]
      split
      · rename_i hqp
        subst hqp
        rw [if_neg fun hD => hp (h.taken q hD), hc, UInt32.ofNat_add, UInt32.add_assoc]
        rfl
      · rw [Nat.add_zero]
        exact h.count q
    · rw [bump, if_neg fun hqp : q = page => hp (hqp ▸ hq), Nat.add_zero]
      exact h.unheld q hq
    · rw [bump] at hj
      by_cases hqp : q = page
      · subst hqp
        rw [if_pos rfl] at hj
        rcases Nat.lt_succ_iff_lt_or_eq.mp hj with hj | rfl
        · exact h.pos q j hj
        · rwa [← hc]
      · rw [if_neg hqp, Nat.add_zero] at hj
        exact h.pos q j hj

theorem Held.drop (h : Held p p' D (bump refs page)) (hp : page ∉ p.pageFreeQueue) :
    Ensures (pageRefDrop page p') fun p'' => Held p p'' D refs := by
  have hb : bump refs page page = refs page + 1 := by rw [bump, if_pos rfl]
  have ho : ∀ q ≠ page, bump refs page q = refs q := fun q hq => by
    rw [bump, if_neg hq, Nat.add_zero]
  have hc : p'.pgRefcnt page - 1 = p.pgRefcnt page + UInt32.ofNat (refs page) := by
    have := h.count_of_not_free hp
    rw [hb, UInt32.ofNat_add, ← UInt32.add_assoc] at this
    rw [this]
    exact add_sub_cancel_right _ _
  have hne : p'.pgRefcnt page - 1 ≠ 0 := by
    rw [hc]
    exact h.pos page (refs page) (by omega)
  rw [pageRefDrop, setRefcnt_pgRefcnt, if_pos rfl, if_neg hne]
  refine .ret ⟨h.tree, fun q => ?_, h.free, h.nodup, h.taken, fun q hq => ?_,
    fun q j hj => h.pos q j ?_⟩
  · rw [setRefcnt_pgRefcnt]
    split
    · rename_i hqp
      subst hqp
      rw [if_neg fun hD => hp (h.taken q hD), hc]
    · rename_i hqp
      rw [h.count q, ho q hqp]
  · rw [← ho q fun hqp => hp (hqp ▸ hq)]
    exact h.unheld q hq
  · rw [bump]
    omega

theorem Held.take (h : Held p p' D refs) {q : UInt64} {rest : List UInt64}
    (hq : p'.pageFreeQueue = q :: rest) {p'' : PageState} (ht : p''.pageTree = p'.pageTree)
    (hf : p''.pageFreeQueue = rest)
    (hc : ∀ q', p''.pgRefcnt q' = if q' = q then 2 else p'.pgRefcnt q') :
    Held p p'' (q :: D) refs := by
  have hn := h.nodup
  rw [hq, nodup_cons] at hn
  obtain ⟨hqf, -⟩ := (h.free q).mp (by rw [hq]; exact mem_cons_self)
  refine ⟨ht.trans h.tree, fun q' => ?_, fun q' => ?_, hf ▸ hn.2, ?_, h.unheld, h.pos⟩
  · rw [hc, h.count]
    by_cases hqq : q' = q
    · rw [if_pos hqq, if_pos (mem_cons.mpr (.inl hqq))]
    · rw [if_neg hqq]
      simp only [mem_cons, hqq, false_or]
  · have hold := h.free q'
    rw [hq, mem_cons] at hold
    rw [hf, mem_cons]
    by_cases hqq : q' = q
    · -- no page is in the queue twice
      simp only [hqq, hn.1, true_or, not_true, and_false]
    · simpa only [hqq, false_or] using hold
  · exact forall_mem_cons.mpr ⟨hqf, h.taken⟩

theorem pageAllocDirect_first {q : UInt64} {rest : List UInt64}
    (hq : p.pageFreeQueue = q :: rest) (hc : p.pgRefcnt q = 0) (flags : UInt32) :
    Yields (pageAllocDirect true flags p) fun r =>
      r.2 = .ok (pmapMapDirect (pageAddress q)) ∧ r.1.pageTree = p.pageTree ∧
        r.1.pageFreeQueue = rest ∧
        ∀ q', r.1.pgRefcnt q' = if q' = q then 2 else p.pgRefcnt q' := by
  have ha : Yields (pageAlloc flags p) fun r => r.2 = .ok q ∧ r.1.pageTree = p.pageTree ∧
      r.1.pageFreeQueue = rest ∧
      ∀ q', r.1.pgRefcnt q' = if q' = q then 1 else p.pgRefcnt q' := by
    have hrm : tailqRemove q p.pageFreeQueue = .ok rest := by
      rw [hq, tailqRemove_of_mem mem_cons_self, erase_cons_head]
    have ho : ∀ q', Function.update p.pgRefcnt q (p.pgRefcnt q + 1) q' =
        if q' = q then 1 else p.pgRefcnt q' := by
      intro q'
      rw [Function.update_apply, hc]
      rfl
    rw [pageAlloc, hq]
    dsimp only
    rw [pageRefHold, if_pos hc, hrm]
    simp only [ok_bind, pure_bind]
    -- whether the page is cleared does not matter here
    split <;> exact .ret ⟨rfl, rfl, rfl, ho⟩
  rw [pageAllocDirect]
  refine ha.bind ?_
  rintro ⟨p₁, r⟩ ⟨hr, ht, hf, hrf⟩
  subst hr
  have ho : p₁.pgRefcnt q = 1 := by rw [hrf, if_pos rfl]
  dsimp only
  rw [pageMapDirect, if_pos rfl, pageRefHold, ho, if_neg (by decide)]
  simp only [pure_bind]
  refine .ret ⟨rfl, ht, hf, fun q' => ?_⟩
  rw [setRefcnt_pgRefcnt, hrf]
  split <;> rfl

theorem Held.allocDirect (h : Held p p' D refs)
    (hz : ∀ q ∈ p.pageFreeQueue, p.pgRefcnt q = 0) (flags : UInt32) :
    Yields (pageAllocDirect true flags p') fun r =>
      (r.1 = p' ∧ ∃ e, r.2 = .error e) ∨
      ∃ q, r.2 = .ok (pmapMapDirect (pageAddress q)) ∧ Held p r.1 (q :: D) refs := by
  cases hq : p'.pageFreeQueue with
  | nil =>
    rw [pageAllocDirect, pageAlloc, hq]
    exact .ret (.inl ⟨rfl, _, rfl⟩)
  | cons q rest =>
    obtain ⟨hf, hD⟩ := (h.free q).mp (by rw [hq]; exact mem_cons_self)
    -- nothing has been added to the count of a free page
    have hc : p'.pgRefcnt q = 0 := by
      rw [h.count, if_neg hD, h.unheld q hf, hz q hf]
      rfl
    refine (pageAllocDirect_first hq hc flags).mono ?_
    rintro r ⟨hr, ht, hrs, hrf⟩
    exact .inr ⟨q, hr, h.take hq ht hrs hrf⟩

/-! ## Page tables -/

section Mem

variable {ν : Type} {mem mem' : MemState ν}

/-- References have been taken, and the pages `D` are those of new page tables. -/
structure HeldMem (mem mem' : MemState ν) (D : List UInt64) (refs : UInt64 → ℕ) : Prop where
  pages : Held mem.pages mem'.pages D refs
  tables : mem'.ptPages = D.map (fun q => pmapMapDirect (pageAddress q)) ++ mem.ptPages

theorem HeldMem.allocLevel (h : HeldMem mem mem' D refs)
    (hz : ∀ q ∈ mem.pages.pageFreeQueue, mem.pages.pgRefcnt q = 0) :
    Yields (pmapAllocLevel mem') fun r => ∃ D', HeldMem mem r.1 D' refs := by
  rw [pmapAllocLevel]
  refine (h.pages.allocDirect hz _).bind ?_
  rintro ⟨pages, r⟩ (⟨rfl, e, rfl⟩ | ⟨q, hr, hh⟩)
  · exact .ret ⟨D, h⟩
  · dsimp only at hr hh
    subst hr
    exact .ret ⟨q :: D, hh, congrArg (_ :: ·) h.tables⟩

variable [DecidableEq ν] {kernelVm vm : ν} {v : UInt64}

theorem HeldMem.pageMap (h : HeldMem mem mem' D refs)
    (hz : ∀ q ∈ mem.pages.pageFreeQueue, mem.pages.pgRefcnt q = 0)
    (hpg : page ∉ mem.pages.pageFreeQueue) :
    Yields (Glatt.pageMap kernelVm vm v page mem') fun r => r.2 = .ok () →
      ∃ D', HeldMem mem r.1 D' (bump refs page) := by
  rw [Glatt.pageMap]
  refine Yields.bind (P := fun s => HeldMem mem s D (bump refs page)) ?_ fun s hs => ?_
  · refine (h.pages.hold hpg).bind fun p' hp' => ?_
    exact .ret ⟨hp', h.tables⟩
  refine Yields.bind (P := fun r => ∃ D', HeldMem mem r.1 D' (bump refs page)) ?_ ?_
  · refine pmapMap_keeps (I := fun s => ∃ D', HeldMem mem s D' (bump refs page)) ?_ ?_ ⟨D, hs⟩
    · rintro s ⟨D', hs'⟩
      exact hs'.allocLevel hz
    · rintro s pm ⟨D', hs'⟩
      exact ⟨D', hs'.pages, hs'.tables⟩
  · rintro ⟨s', r⟩ hs'
    cases r with
    | ok _ => exact .ret fun _ => hs'
    | error e =>
      refine yields_bind_of_forall fun _ => ?_
      exact .ret fun h => by cases h

theorem HeldMem.pageUnmap (h : HeldMem mem mem' D (bump refs page))
    (hpg : page ∉ mem.pages.pageFreeQueue) (hv : PageAligned v)
    (hvl : pteValid ((mem'.pmap vm).pte v)) :
    Ensures (Glatt.pageUnmap vm v page mem') fun r =>
      r.2 = .ok () ∧ HeldMem mem r.1 D refs ∧ PteSet mem' r.1 vm v 0 := by
  have hd := (h.pages.drop hpg).guarded (Q := True)
  refine ((pageUnmap_mapped hv hvl hd).ensures trivial).mono ?_
  rintro r ⟨hr, hp, ht, hset⟩
  exact ⟨hr, ⟨hp, ht.trans h.tables⟩, hset⟩

/-! ## Ranges -/

def rangeRefs (f : ℕ → UInt64) (lo hi : ℕ) (q : UInt64) : ℕ := ((List.Ico lo hi).map f).count q

variable {f : ℕ → UInt64}

theorem rangeRefs_top {lo hi : ℕ} (h : lo ≤ hi) :
    rangeRefs f lo (hi + 1) = bump (rangeRefs f lo hi) (f hi) := by
  funext q
  simp only [rangeRefs, bump, List.Ico.succ_top h, map_append, count_append,
    map_singleton, count_singleton, beq_iff_eq, eq_comm (a := q)]

theorem rangeRefs_bot {lo hi : ℕ} (h : lo < hi) :
    rangeRefs f lo hi = bump (rangeRefs f (lo + 1) hi) (f lo) := by
  funext q
  simp only [rangeRefs, bump, List.Ico.eq_cons h, map_cons, count_cons, beq_iff_eq,
    eq_comm (a := q)]

theorem rangeRefs_self (n : ℕ) : rangeRefs f n n = fun _ => 0 := by
  funext q
  rw [rangeRefs, List.Ico.self_empty]
  rfl

/-- **A part of a range is wired**: the kernel's entries from `lo` to `hi` map the pages `f`, those
before are cleared, and no other entry has changed. -/
structure WiredRange (kernelVm : ν) (kvaddr : UInt64) (f : ℕ → UInt64) (lo hi : ℕ)
    (mem mem' : MemState ν) : Prop where
  held : ∃ D, HeldMem mem mem' D (rangeRefs f lo hi)
  users : OnlySpace kernelVm mem mem'
  same : ∀ w, PageAligned w → (∀ o < hi, w ≠ pageAt kvaddr o) →
    (mem'.pmap kernelVm).pte w = (mem.pmap kernelVm).pte w
  entry : ∀ o, lo ≤ o → o < hi →
    (mem'.pmap kernelVm).pte (pageAt kvaddr o) = entryFor kernelVm kernelVm (f o)
  cleared : ∀ o < lo, ¬ pteValid ((mem'.pmap kernelVm).pte (pageAt kvaddr o))

variable {kvaddr : UInt64} {f : ℕ → UInt64} {i n : ℕ}

theorem WiredRange.wire (h : WiredRange kernelVm kvaddr f 0 i mem mem')
    (hz : ∀ q ∈ mem.pages.pageFreeQueue, mem.pages.pgRefcnt q = 0)
    (hp : f i ∉ mem.pages.pageFreeQueue) (hk : PageAligned kvaddr) (hi : i < 2 ^ 51) :
    Yields (orPanic (pageMap kernelVm kernelVm (pageAt kvaddr i) (f i) mem'))
      (WiredRange kernelVm kvaddr f 0 (i + 1) mem) := by
  obtain ⟨D, hh⟩ := h.held
  have hv := pageAligned_pageAt hk i
  refine yields_orPanic (((hh.pageMap hz hp).and ((pageMap_pte hv).and pageMap_onlySpace)).mono ?_)
  rintro ⟨mem₂, r⟩ ⟨hh₂, hpte, hon⟩ hr
  obtain ⟨D₂, hh₂⟩ := hh₂ hr
  obtain ⟨-, -, hset⟩ := hpte.resolve_right fun ⟨⟨e, he⟩, _⟩ => by rw [hr] at he; cases he
  refine ⟨⟨D₂, rangeRefs_top (Nat.zero_le i) ▸ hh₂⟩, h.users.trans hon, fun w hw hne => ?_,
    fun o _ ho => ?_, nofun⟩
  · rw [hset.pte _ w hw, if_neg fun hc => hne i (Nat.lt_succ_self i) hc.2]
    exact h.same w hw fun o ho => hne o (Nat.lt_succ_of_lt ho)
  · rw [hset.pte _ _ (pageAligned_pageAt hk o)]
    rcases Nat.lt_succ_iff_lt_or_eq.mp ho with ho | rfl
    -- the entries that were there are at other addresses
    · have hne : pageAt kvaddr o ≠ pageAt kvaddr i := fun heq =>
        absurd (pageAt_injective (by omega) hi heq) (by omega)
      rw [if_neg fun hc => hne hc.2]
      exact h.entry o (Nat.zero_le o) ho
    · rw [if_pos ⟨rfl, rfl⟩]

theorem WiredRange.unwire (h : WiredRange kernelVm kvaddr f i n mem mem')
    (hp : f i ∉ mem.pages.pageFreeQueue) (hk : PageAligned kvaddr) (hi : i < n)
    (hn : n ≤ 2 ^ 51) :
    Ensures (orPanic (pageUnmap kernelVm (pageAt kvaddr i) (f i) mem'))
      (WiredRange kernelVm kvaddr f (i + 1) n mem) := by
  obtain ⟨D, hh⟩ := h.held
  rw [rangeRefs_bot hi] at hh
  have hv := pageAligned_pageAt hk i
  have hvl : pteValid ((mem'.pmap kernelVm).pte (pageAt kvaddr i)) := by
    rw [h.entry i le_rfl hi]
    exact pteValid_entryFor
  refine ensures_orPanic (((hh.pageUnmap hp hv hvl).and pageUnmap_onlySpace).mono ?_)
  rintro ⟨mem₂, r⟩ ⟨⟨hr, hh₂, hset⟩, hon⟩
  refine ⟨hr, ⟨D, hh₂⟩, h.users.trans hon, fun w hw hne => ?_, fun o hl ho => ?_, fun o ho => ?_⟩
  · rw [hset.pte _ w hw, if_neg fun hc => hne i hi hc.2]
    exact h.same w hw hne
  · have hne : pageAt kvaddr o ≠ pageAt kvaddr i := fun heq =>
      absurd (pageAt_injective (by omega) (by omega) heq) (by omega)
    rw [hset.pte _ _ (pageAligned_pageAt hk o), if_neg fun hc => hne hc.2]
    exact h.entry o (by omega) ho
  · rw [hset.pte _ _ (pageAligned_pageAt hk o)]
    split
    · exact not_pteValid_zero
    · rename_i hne
      refine h.cleared o (lt_of_le_of_ne (Nat.lt_succ_iff.mp ho) fun heq => hne ⟨rfl, ?_⟩)
      rw [heq]

theorem WiredRange.mapped_iff (h : WiredRange kernelVm kvaddr f n n mem mem')
    (hn : ∀ o < n, ¬ MappedAt mem kernelVm (pageAt kvaddr o)) (w : UInt64) :
    MappedAt mem' kernelVm w ↔ MappedAt mem kernelVm w := by
  by_cases hw : ∃ o < n, w = pageAt kvaddr o
  · obtain ⟨o, ho, rfl⟩ := hw
    exact iff_of_false (fun hm => h.cleared o ho hm.2) (hn o ho)
  · refine and_congr_right fun ha => ?_
    rw [h.same w ha fun o ho heq => hw ⟨o, ho, heq⟩]

end Mem

/-! ## Lookups -/

theorem pageLookup_congr (h : p'.pageTree = p.pageTree) (paddr : UInt64) :
    pageLookup paddr p' = pageLookup paddr p := by
  rw [pageLookup, pageLookup, h]

theorem pageAddress_of_lookup {N : List TreePage} (hd : Described p N) {x : ℕ} (hx : x < frameEnd)
    (h : pageLookup (frameAddr x) p = .ok (.ok page)) : pageAddress page = frameAddr x := by
  rw [pageLookup_eq hd hx] at h
  cases hf : N.find? fun n => n.Spans x with
  | none =>
    rw [hf] at h
    cases h
  | some n =>
    rw [hf] at h
    obtain rfl : entryOf n.first (x - n.first) = page := Except.ok.inj (Except.ok.inj h)
    have hsp : n.Spans x := by simpa using find?_some hf
    obtain ⟨hle, hlt⟩ := hsp
    rw [pageAddress_entryOf n.first_lt (by omega)]
    exact congrArg frameAddr (by omega)

section Found

variable {ν : Type} [DecidableEq ν] {kernelVm u vm : ν} {v : UInt64} {mem mem' : MemState ν}

theorem pageExtract_congr (hp : mem'.pmap u = mem.pmap u)
    (ht : mem'.pages.pageTree = mem.pages.pageTree) :
    pageExtract kernelVm u v mem' = pageExtract kernelVm u v mem := by
  simp only [pageExtract, pmapExtract, hp, pageLookup_congr ht]

/-- **A page is found at an address**: the page table has its address, the lookup of the address
finds it again, and it is not free. -/
structure FoundAt (kernelVm u : ν) (v page : UInt64) (mem : MemState ν) : Prop where
  extract : pmapExtract kernelVm u v mem = .ok (pageAddress page)
  lookup : pageLookup (pageAddress page) mem.pages = .ok (.ok page)
  frame : ∃ x < frameEnd, pageAddress page = frameAddr x
  held : page ∉ mem.pages.pageFreeQueue

theorem FoundAt.of_entry (h : FoundAt kernelVm u v page mem)
    (ht : mem'.pages.pageTree = mem.pages.pageTree) {w : UInt64} (hw : PageAligned w)
    (hp : (mem'.pmap vm).pte w = entryFor kernelVm vm page) :
    pmapExtract kernelVm vm w mem' = .ok (pageAddress page) ∧
      vmExtractPage kernelVm vm w mem' = .ok page := by
  obtain ⟨x, hx, ha⟩ := h.frame
  have hv : pteValid ((mem'.pmap vm).pte w) := by
    rw [hp]
    exact pteValid_entryFor
  have he : pmapExtract kernelVm vm w mem' = .ok (pageAddress page) := by
    rw [pmapExtract_of_pteValid hw hv, hp, entryFor, ha, tlbloPteToPa_entry hx]
  refine ⟨he, ?_⟩
  rw [vmExtractPage, pageExtract, he]
  dsimp only
  rw [pageLookup_congr ht, h.lookup]
  rfl

def foundPage (kernelVm u : ν) (mem : MemState ν) (v : UInt64) : UInt64 :=
  match pageExtract kernelVm u v mem with
  | .ok (.ok page) => page
  | _ => 0

theorem vmWirePage_found : Yields (vmWirePage kernelVm u v false mem) fun r =>
      r = (mem, foundPage kernelVm u mem v) ∧
        pageExtract kernelVm u v mem = .ok (.ok (foundPage kernelVm u mem v)) := by
  rw [vmWirePage, foundPage]
  cases he : pageExtract kernelVm u v mem with
  | error e => exact yields_error
  | ok r =>
    cases r with
    | error e =>
      rw [ok_bind]
      dsimp only
      rw [if_neg fun hc => Bool.false_ne_true hc.1]
      exact yields_error
    | ok page => exact .ret ⟨rfl, rfl⟩

end Found

/-! ## The loops -/

section Loops

variable {ν ι : Type} [DecidableEq ν] {kernelVm u : ν} {s : VmState ν ι}
  {vaddr kvaddr pages : UInt64} {mem mem' : MemState ν}

/-- **Queues, page tables and the kernel's addresses agree**: the queues agree with the counts; the
entries of the page tables hold addresses of pages, none of which is found among the free pages; and
the kernel's mappings lie in indices in use. -/
structure WireSound (kernelVm : ν) (s : VmState ν ι) : Prop where
  counted : ∃ N others, Counted s.mem.pages N others
  frames : ∀ u v, MappedAt s.mem u v →
    ∃ x < frameEnd, tlbloPteToPa ((s.mem.pmap u).pte v) = frameAddr x
  held : ∀ u v page, MappedAt s.mem u v → pageExtract kernelVm u v s.mem = .ok (.ok page) →
    page ∉ s.mem.pages.pageFreeQueue
  space : ∃ a b, 8192 ∣ a ∧ b < 2 ^ 64 ∧ IndexInv a b (s.index kernelVm)
  covered : ∀ v, MappedAt s.mem kernelVm v → InUseAt (s.index kernelVm) v

theorem WireSound.queue (hs : WireSound kernelVm s) :
    s.mem.pages.pageFreeQueue.Nodup ∧
      ∀ q ∈ s.mem.pages.pageFreeQueue, s.mem.pages.pgRefcnt q = 0 := by
  obtain ⟨N, others, hc⟩ := hs.counted
  refine ⟨(nodup_append.mp hc.nodup).1, fun q hq => ?_⟩
  exact (hc.free_iff q (hc.mem_append.mp (mem_append_left _ hq))).mp hq

theorem WireSound.foundAt (hs : WireSound kernelVm s) {v : UInt64} (hm : MappedAt s.mem u v)
    (h : pageExtract kernelVm u v s.mem = .ok (.ok page)) : FoundAt kernelVm u v page s.mem := by
  obtain ⟨N, others, hc⟩ := hs.counted
  obtain ⟨x, hx, ha⟩ := hs.frames u v hm
  have he : pmapExtract kernelVm u v s.mem = _ := pmapExtract_of_pteValid hm.1 hm.2
  rw [ha] at he
  have hl := h
  rw [pageExtract, he] at hl
  have hp := pageAddress_of_lookup hc.desc hx hl
  refine ⟨?_, ?_, ⟨x, hx, hp⟩, hs.held u v page hm h⟩
  · rw [he, hp]
  · rw [hp]
    exact hl

theorem VmOwned.wireSound {l : Ledger ν} {given : UInt64 → ℕ} (h : VmOwned kernelVm s l given) :
    WireSound kernelVm s := by
  have hc := h.pages.counted
  refine ⟨⟨_, _, hc.counted⟩, fun u v hm => ?_, fun u v page hm he hf => ?_, ?_, fun v hm => ?_⟩
  · obtain ⟨page, hmem⟩ := h.mappedAt_iff.mp hm
    obtain ⟨-, hi, hpte⟩ := h.pages.mapped.entry u v page hmem
    obtain ⟨x, hx, had⟩ := hi.frame
    refine ⟨x, hx, ?_⟩
    rw [hpte, (entryFor_spec kernelVm u hi).2, had]
  · obtain ⟨own, hmem⟩ := h.mappedAt_iff.mp hm
    obtain ⟨-, hi, -⟩ := h.pages.mapped.entry u v own hmem
    obtain ⟨x, hx, had⟩ := hi.frame
    rw [pageExtract, (h.pages.mapped.pmapExtract hmem).2, had] at he
    have hp := pageAddress_of_lookup hc.counted.desc hx he
    obtain ⟨hi', -, hmp, -⟩ := hc.of_mem_free hf
    obtain rfl := hi'.eq_of_pageAddress hc.counted.desc.disjoint hi (hp.trans had.symm)
    have hcn : 0 < (l.maps.map fun m => m.2.2).count page := count_pos_iff.mpr (mem_map_of_mem hmem)
    have hz : l.directs.count page + (l.maps.map fun m => m.2.2).count page = 0 := hmp
    omega
  · obtain ⟨a, b, ha, hb, hinv, -⟩ := h.spaces kernelVm
    exact ⟨a, b, ha, hb, hinv⟩
  · obtain ⟨page, hmem⟩ := h.mappedAt_iff.mp hm
    exact h.covered kernelVm v page hmem

theorem vmWirePages_range (hs : WireSound kernelVm s) (hu : u ≠ kernelVm)
    (hk : PageAligned kvaddr) (hpg : pages.toNat < 2 ^ 51)
    (hmd : ∀ o < pages.toNat, MappedAt s.mem u (pageAt vaddr o)) :
    Yields (vmWirePages kernelVm u vaddr kvaddr pages false s.mem) fun mem' =>
      (∀ o < pages.toNat, FoundAt kernelVm u (pageAt vaddr o)
        (foundPage kernelVm u s.mem (pageAt vaddr o)) s.mem) ∧
      WiredRange kernelVm kvaddr (fun o => foundPage kernelVm u s.mem (pageAt vaddr o)) 0
        pages.toNat s.mem mem' := by
  obtain ⟨hn, hz⟩ := hs.queue
  refine Yields.forRange (I := fun i mem' =>
    (∀ o < i, FoundAt kernelVm u (pageAt vaddr o)
      (foundPage kernelVm u s.mem (pageAt vaddr o)) s.mem) ∧
    WiredRange kernelVm kvaddr (fun o => foundPage kernelVm u s.mem (pageAt vaddr o)) 0 i s.mem
      mem') ?_ ?_
  · rintro i hi mem₁ ⟨hf, hw⟩
    obtain ⟨D, hh⟩ := hw.held
    -- what the kernel has mapped does not change what is found for the user
    have hsm : pageExtract kernelVm u (pageAt vaddr i) mem₁ =
        pageExtract kernelVm u (pageAt vaddr i) s.mem :=
      pageExtract_congr (hw.users u hu) hh.pages.tree
    refine (vmWirePage_found).bind ?_
    rintro _ ⟨rfl, he⟩
    have hp : foundPage kernelVm u mem₁ (pageAt vaddr i) =
        foundPage kernelVm u s.mem (pageAt vaddr i) := by
      rw [foundPage, foundPage, hsm]
    rw [hp, hsm] at he
    rw [hp]
    have hnew := hs.foundAt (hmd i hi) he
    refine (hw.wire hz hnew.held hk (by omega)).mono fun mem₂ hw₂ => ⟨?_, hw₂⟩
    intro o ho
    rcases Nat.lt_succ_iff_lt_or_eq.mp ho with ho | rfl
    · exact hf o ho
    · exact hnew
  · refine ⟨nofun, ⟨[], ?_, rfl⟩, fun _ _ => rfl, fun _ _ _ => rfl, nofun, nofun⟩
    rw [rangeRefs_self]
    exact .refl hn

theorem vmUnwirePages_range {f : ℕ → UInt64} (hk : PageAligned kvaddr) (hp : pages.toNat < 2 ^ 51)
    (hf : ∀ o < pages.toNat, FoundAt kernelVm u (pageAt vaddr o) (f o) mem)
    (hw : WiredRange kernelVm kvaddr f 0 pages.toNat mem mem') :
    Ensures (vmUnwirePages kernelVm kvaddr pages mem')
      (WiredRange kernelVm kvaddr f pages.toNat pages.toNat mem) := by
  refine Ensures.forRange (I := fun i => WiredRange kernelVm kvaddr f i pages.toNat mem) ?_ hw
  intro i hi mem₁ hw₁
  obtain ⟨D, hh⟩ := hw₁.held
  have he := ((hf i hi).of_entry hh.pages.tree (pageAligned_pageAt hk i) (hw₁.entry i le_rfl hi)).2
  rw [he, ok_bind]
  exact hw₁.unwire (hf i hi).held hk hi hp.le

end Loops

/-! ## Addresses -/

theorem floor_offset_add {base : UInt64} (hb : PageAligned base) {n : ℕ}
    (hn : base.toNat + n < 2 ^ 64) :
    pageFloor (base + UInt64.ofNat n) = pageAt base (n / 8192) ∧
      pageOffset (base + UInt64.ofNat n) = UInt64.ofNat (n % 8192) := by
  have ha := hb.toNat
  have hsum : (base + UInt64.ofNat n).toNat = base.toNat + n := by
    rw [UInt64.toNat_add, toNat_ofNat (by omega), Nat.mod_eq_of_lt hn]
  constructor
  · apply UInt64.toNat_inj.mp
    rw [toNat_pageFloor, hsum, toNat_pageAt (by omega)]
    omega
  · apply UInt64.toNat_inj.mp
    rw [toNat_pageOffset, hsum, toNat_ofNat (by omega)]
    omega

theorem floor_add_offset (a : UInt64) : a = pageFloor a + UInt64.ofNat (pageOffset a).toNat := by
  have hf := toNat_pageFloor a
  have ho := toNat_pageOffset a
  have hlt := a.toNat_lt
  apply UInt64.toNat_inj.mp
  rw [UInt64.toNat_add, toNat_ofNat (by omega)]
  omega

section Addresses

variable {ν : Type} [DecidableEq ν] {kernelVm u vm : ν} {mem : MemState ν} {uvaddr len : UInt64}

def physicalAddress (kernelVm vm : ν) (w : UInt64) (mem : MemState ν) : Except Errno UInt64 :=
  (pmapExtract kernelVm vm w mem).map (· + pageOffset w)

def RangeMapped (mem : MemState ν) (u : ν) (uvaddr len : UInt64) : Prop :=
  ∀ i < len.toNat, MappedAt mem u (pageFloor (uvaddr + UInt64.ofNat i))

omit [DecidableEq ν] in
theorem RangeMapped.bound (h : RangeMapped mem u uvaddr len) (hlen : 1 ≤ len.toNat) :
    uvaddr.toNat + len.toNat ≤ 2 ^ 64 ∧ len.toNat ≤ 2 ^ 40 := by
  have hin : ∀ i < len.toNat, ¬ (mem.pmap u).Outside (pageFloor (uvaddr + UInt64.ofNat i)) :=
    fun i hi => pmapFind_inside (pmapFind_of_pteValid (h i hi).2)
  have ha := (mem.pmap u).aligned
  have hbn := (mem.pmap u).bounded
  have hbs := (mem.pmap u).pmBase.toNat_lt
  have hlt := uvaddr.toNat_lt
  have hz := Pmap.inside_iff.mp (hin 0 (by omega))
  rw [toNat_pageFloor, UInt64.toNat_add, toNat_ofNat (by omega)] at hz
  by_contra hl
  -- the first byte behind what a page table can map
  obtain ⟨i, hi⟩ : ∃ i, uvaddr.toNat + i = (mem.pmap u).pmBase.toNat + 2 ^ 40 :=
    ⟨(mem.pmap u).pmBase.toNat + 2 ^ 40 - uvaddr.toNat, by omega⟩
  have hb := Pmap.inside_iff.mp (hin i (by omega))
  rw [toNat_pageFloor, UInt64.toNat_add, toNat_ofNat (by omega), hi] at hb
  omega

omit [DecidableEq ν] in
theorem RangeMapped.pages (h : RangeMapped mem u uvaddr len) (hlen : 1 ≤ len.toNat) :
    (wirePages uvaddr len).toNat = ((pageOffset uvaddr).toNat + len.toNat + 8191) / 8192 ∧
      ∀ o < (wirePages uvaddr len).toNat, MappedAt mem u (pageAt (pageFloor uvaddr) o) := by
  obtain ⟨hw, hl⟩ := h.bound hlen
  have hoff := toNat_pageOffset uvaddr
  have hf := toNat_pageFloor uvaddr
  have hp : (wirePages uvaddr len).toNat = _ := toNat_wirePages (by omega)
  refine ⟨hp, fun o ho => ?_⟩
  -- the first byte of the range in the page
  have hb := h (o * 8192 - (pageOffset uvaddr).toNat) (by omega)
  have hsp : uvaddr + UInt64.ofNat (o * 8192 - (pageOffset uvaddr).toNat) = pageFloor uvaddr +
      UInt64.ofNat ((pageOffset uvaddr).toNat + (o * 8192 - (pageOffset uvaddr).toNat)) := by
    rw [UInt64.ofNat_add, ← UInt64.add_assoc, ← floor_add_offset]
  rw [hsp, (floor_offset_add (pageAligned_floor uvaddr) (by omega)).1] at hb
  have ho' : ((pageOffset uvaddr).toNat + (o * 8192 - (pageOffset uvaddr).toNat)) / 8192 = o := by
    omega
  rwa [ho'] at hb

theorem physicalAddress_add {base paddr : UInt64} (hb : PageAligned base) {n : ℕ}
    (hn : base.toNat + n < 2 ^ 64)
    (h : pmapExtract kernelVm vm (pageAt base (n / 8192)) mem = .ok paddr) :
    physicalAddress kernelVm vm (base + UInt64.ofNat n) mem =
      .ok (paddr + UInt64.ofNat (n % 8192)) := by
  obtain ⟨hf, ho⟩ := floor_offset_add hb hn
  have he : pmapExtract kernelVm vm (base + UInt64.ofNat n) mem = .ok paddr := by
    rw [← h, ← hf]
    simp only [pmapExtract, (pageAligned_floor (base + UInt64.ofNat n)).floor]
  rw [physicalAddress, he, ho]
  rfl

/-- **The kernel sees the bytes of the user**: they have the same physical addresses. -/
def SeesBytes (kernelVm u : ν) (uvaddr len kvaddr off : UInt64) (mem mem' : MemState ν) : Prop :=
  ∀ i < len.toNat, ∃ paddr, physicalAddress kernelVm u (uvaddr + UInt64.ofNat i) mem = .ok paddr ∧
    physicalAddress kernelVm u (uvaddr + UInt64.ofNat i) mem' = .ok paddr ∧
    physicalAddress kernelVm kernelVm (kvaddr + off + UInt64.ofNat i) mem' = .ok paddr

theorem seesBytes_of_pages {mem' : MemState ν} {kvaddr : UInt64} {n : ℕ} {g : ℕ → UInt64}
    (h : RangeMapped mem u uvaddr len) (hlen : 1 ≤ len.toNat)
    (hn : n = ((pageOffset uvaddr).toNat + len.toNat + 8191) / 8192) (hkv : PageAligned kvaddr)
    (hft : kvaddr.toNat + n * 8192 ≤ 2 ^ 64)
    (hold : ∀ o < n, pmapExtract kernelVm u (pageAt (pageFloor uvaddr) o) mem = .ok (g o))
    (hnew : ∀ o < n, pmapExtract kernelVm u (pageAt (pageFloor uvaddr) o) mem' = .ok (g o))
    (hk : ∀ o < n, pmapExtract kernelVm kernelVm (pageAt kvaddr o) mem' = .ok (g o)) :
    SeesBytes kernelVm u uvaddr len kvaddr (pageOffset uvaddr) mem mem' := by
  intro i hi
  obtain ⟨hw, -⟩ := h.bound hlen
  have hoff := toNat_pageOffset uvaddr
  have hf := toNat_pageFloor uvaddr
  have hus : uvaddr + UInt64.ofNat i =
      pageFloor uvaddr + UInt64.ofNat ((pageOffset uvaddr).toNat + i) := by
    rw [UInt64.ofNat_add, ← UInt64.add_assoc, ← floor_add_offset]
  have hkb : kvaddr + pageOffset uvaddr + UInt64.ofNat i =
      kvaddr + UInt64.ofNat ((pageOffset uvaddr).toNat + i) := by
    rw [UInt64.ofNat_add, ← UInt64.add_assoc, UInt64.ofNat_toNat]
  have ho : ((pageOffset uvaddr).toNat + i) / 8192 < n := by omega
  rw [hus, hkb]
  refine ⟨_, physicalAddress_add (pageAligned_floor uvaddr) (by omega) (hold _ ho),
    physicalAddress_add (pageAligned_floor uvaddr) (by omega) (hnew _ ho),
    physicalAddress_add hkv (by omega) (hk _ ho)⟩

end Addresses

/-! ## Wiring and unwiring -/

section Undo

variable {ν ι : Type} [DecidableEq ν] [DecidableEq ι] {kernelVm u : ν} {s : VmState ν ι}
  {new₁ new₂ : Option ι} {uvaddr len : UInt64}

def TakenForTable (mem mem' : MemState ν) (page : UInt64) : Prop :=
  page ∈ mem.pages.pageFreeQueue ∧ pmapMapDirect (pageAddress page) ∈ mem'.ptPages ∧
    mem'.pages.pgRefcnt page = 2

/-- **Nothing is left of the wiring** but the pages of the kernel's page tables: every other page
has its count, the users have their page tables and indices, and the kernel its free addresses and
its mappings. -/
structure WireUndone (kernelVm : ν) (s s' : VmState ν ι) : Prop where
  refs : ∀ page, s'.mem.pages.pgRefcnt page = s.mem.pages.pgRefcnt page ∨
    TakenForTable s.mem s'.mem page
  users : ∀ u ≠ kernelVm, s'.mem.pmap u = s.mem.pmap u ∧ s'.index u = s.index u
  free : ∀ w, FreeAt (s'.index kernelVm) w ↔ FreeAt (s.index kernelVm) w
  mapped : ∀ w, MappedAt s'.mem kernelVm w ↔ MappedAt s.mem kernelVm w

omit [DecidableEq ν] [DecidableEq ι] in
theorem HeldMem.refs_of_zero {mem mem' : MemState ν} (h : HeldMem mem mem' D fun _ => 0)
    (q : UInt64) : mem'.pages.pgRefcnt q = mem.pages.pgRefcnt q ∨ TakenForTable mem mem' q := by
  have hc := h.pages.count q
  by_cases hD : q ∈ D
  · rw [if_pos hD] at hc
    refine .inr ⟨h.pages.taken q hD, ?_, hc⟩
    rw [h.tables]
    exact mem_append_left _ (mem_map_of_mem hD)
  · rw [if_neg hD] at hc
    exact .inl (hc.trans (UInt32.add_zero _))

theorem Taken.giveBack {index index' : IndexMap ι} {a b : ℕ} {kvaddr pages : UInt64}
    (ht : Taken index index' kvaddr pages) (h : IndexInv a b index') (hb : b < 2 ^ 64)
    (hp : 1 ≤ pages.toNat) :
    Ensures (orPanic (vmFreeAddress kvaddr index')) fun index'' =>
      IndexInv a b index'' ∧ ∀ w, InUseAt index'' w ↔ InUseAt index w := by
  have hus : InUseAt index' kvaddr := (ht.inUse kvaddr).mpr (.inr ⟨le_rfl, by omega⟩)
  refine ensures_orPanic ((h.freeAddress_given hb hus).mono ?_)
  rintro p ⟨hinv, ho, hg⟩
  refine ⟨ho, hinv, fun w => ?_⟩
  -- the index that goes is the one that has been taken
  rw [hg, ht.inUse, ht.block]
  have := ht.free w
  tauto

omit [DecidableEq ι] in
theorem FoundAt.seesBytes {mem' : MemState ν} {page : UInt64}
    (hf : FoundAt kernelVm u (pageFloor uvaddr) page s.mem) (hpm : mem'.pmap u = s.mem.pmap u)
    (hmd : RangeMapped s.mem u uvaddr len) (hlen : 1 ≤ len.toNat)
    (hone : 1 = ((pageOffset uvaddr).toNat + len.toNat + 8191) / 8192) :
    SeesBytes kernelVm u uvaddr len (pmapMapDirect (pageAddress page)) (pageOffset uvaddr) s.mem
      mem' := by
  obtain ⟨x, hx, had⟩ := hf.frame
  obtain ⟨ha, -⟩ := pmapMapDirect_frame hx
  rw [← had] at ha
  have hft : (pmapMapDirect (pageAddress page)).toNat + 1 * 8192 ≤ 2 ^ 64 := by
    have := ha.toNat
    have := (pmapMapDirect (pageAddress page)).toNat_lt
    omega
  have hp : ∀ base o, o < 1 → pageAt base o = base := by
    intro base o ho
    obtain rfl : o = 0 := by omega
    simp [pageAt]
  have he := hf.extract
  refine seesBytes_of_pages (g := fun _ => pageAddress page) hmd hlen hone ha
    hft (fun o ho => ?_) (fun o ho => ?_) fun o ho => ?_
  · rw [hp _ o ho]
    exact he
  · rw [hp _ o ho]
    simpa only [pmapExtract, hpm] using he
  · rw [hp _ o ho, had]
    exact pmapExtract_direct hx

variable (hs : WireSound kernelVm s) (hu : u ≠ kernelVm) (hlen : 1 ≤ len.toNat)
  (hmd : RangeMapped s.mem u uvaddr len)
include hs hu hlen hmd

theorem wireUndone_one (ho : wirePages uvaddr len = 1) :
    Yields (vmWire kernelVm new₁ new₂ u uvaddr len false s) fun r =>
      SeesBytes kernelVm u uvaddr len r.2.1 r.2.2 s.mem r.1.mem ∧
      Ensures (vmUnwire kernelVm u uvaddr len r.2.1 r.1) fun s' =>
        WireUndone kernelVm s s' ∧ s'.mem.pages.pgRefcnt = s.mem.pages.pgRefcnt := by
  obtain ⟨hc, hp⟩ := hmd.pages hlen
  have hn : (wirePages uvaddr len).toNat = 1 := by rw [ho]; rfl
  have hz : pageAt (pageFloor uvaddr) 0 = pageFloor uvaddr := by simp [pageAt]
  have hat := hp 0 (by omega)
  rw [hz] at hat
  rw [vmWire, if_neg hu]
  change Yields (if wirePages uvaddr len = 1 then _ else _) _
  rw [if_pos ho]
  refine (vmWirePage_found).bind ?_
  rintro _ ⟨rfl, he⟩
  have hf := hs.foundAt hat he
  generalize foundPage kernelVm u s.mem (pageFloor uvaddr) = page at he hf
  dsimp only
  rw [vmWireDirect, pageMapDirect, if_pos rfl]
  simp only [bind_assoc]
  refine ((Held.refl hs.queue.1).hold hf.held).bind fun p' hh => ?_
  simp only [pure_bind]
  refine .ret ⟨hf.seesBytes rfl hmd hlen (by omega), ?_⟩
  -- the user's page table has not changed, so the same page is found
  have ha : vmExtractPage kernelVm u (pageFloor uvaddr) { s.mem with pages := p' } =
      .ok page := by
    have hsm : pageExtract kernelVm u (pageFloor uvaddr) { s.mem with pages := p' } =
        pageExtract kernelVm u (pageFloor uvaddr) s.mem := pageExtract_congr rfl hh.tree
    rw [vmExtractPage, hsm, he]
    rfl
  rw [vmUnwire, if_neg hu]
  change Ensures (if wirePages uvaddr len = 1 then _ else _) _
  rw [if_pos ho, ha, ok_bind, VmState.onMem, MemState.onPages]
  simp only [bind_assoc]
  refine (hh.drop hf.held).bind fun p'' hd => ?_
  simp only [pure_bind]
  have hr : p''.pgRefcnt = s.mem.pages.pgRefcnt := by
    funext q
    rw [hd.count q, if_neg not_mem_nil]
    exact UInt32.add_zero _
  exact .ret ⟨⟨fun q => .inl (congrFun hr q), fun _ _ => ⟨rfl, rfl⟩,
    fun _ => Iff.rfl, fun _ => Iff.rfl⟩, hr⟩

omit hlen hmd in
theorem unwireUndone_many (hmn : wirePages uvaddr len ≠ 1)
    (hpos : 1 ≤ (wirePages uvaddr len).toNat) {index : IndexMap ι} {kvaddr : UInt64} {a b : ℕ}
    (hb : b < 2 ^ 64) (hinv : IndexInv a b (s.index kernelVm)) (hinv' : IndexInv a b index)
    (ht : Taken (s.index kernelVm) index kvaddr (wirePages uvaddr len)) {f : ℕ → UInt64}
    {mem' : MemState ν}
    (hf : ∀ o < (wirePages uvaddr len).toNat, FoundAt kernelVm u (pageAt (pageFloor uvaddr) o)
      (f o) s.mem)
    (hw : WiredRange kernelVm kvaddr f 0 (wirePages uvaddr len).toNat s.mem mem') :
    Ensures (vmUnwire kernelVm u uvaddr len kvaddr ⟨mem', (s.setIndex kernelVm index).index⟩)
      (WireUndone kernelVm s) := by
  have hft := ht.fits
  rw [vmUnwire, if_neg hu]
  change Ensures (if wirePages uvaddr len = 1 then _ else _) _
  rw [if_neg hmn]
  have hbc : Ensures (vmUnwirePages kernelVm kvaddr (wirePages uvaddr len) mem') _ :=
    vmUnwirePages_range ht.pageAligned (by omega) hf hw
  refine ((onMem_guarded hbc.guarded).ensures trivial).bind ?_
  rintro ⟨mem₂, index₂⟩ ⟨hc, rfl⟩
  rw [vmReleaseAddress]
  rw [s.setIndex_self]
  refine (ht.giveBack hinv' hb hpos).bind ?_
  rintro index₃ ⟨hinv₃, hsm⟩
  refine .ret ⟨?_, fun u' hu' => ⟨hc.users u' hu', ?_⟩, ?_, hc.mapped_iff fun o ho hm => ?_⟩
  · obtain ⟨D, hh⟩ := hc.held
    rw [rangeRefs_self] at hh
    exact hh.refs_of_zero
  · rw [VmState.setIndex_of_ne _ hu']
    exact s.setIndex_of_ne hu' index
  · rw [VmState.setIndex_self]
    exact hinv.freeAt_congr hb hinv₃ hsm
  -- the addresses of the range were free, and nothing is mapped at a free address
  · exact ht.free _ (ht.spans_pageAt ho) (hs.covered _ hm)

theorem wireUndone_many (hm : wirePages uvaddr len ≠ 1)
    (hn : ∀ T, (s.index kernelVm).vmIndex.Represents T → Fresh new₁ new₂ T) :
    Yields (vmWire kernelVm new₁ new₂ u uvaddr len false s) fun r =>
      SeesBytes kernelVm u uvaddr len r.2.1 r.2.2 s.mem r.1.mem ∧
      Ensures (vmUnwire kernelVm u uvaddr len r.2.1 r.1) fun s' => WireUndone kernelVm s s' := by
  obtain ⟨hc, hp⟩ := hmd.pages hlen
  have hpos : 1 ≤ wirePages uvaddr len := by
    rw [UInt64.le_iff_toNat_le, UInt64.toNat_one]
    omega
  obtain ⟨a, b, ha, hb, hinv⟩ := hs.space
  rw [vmWire, if_neg hu]
  change Yields (if wirePages uvaddr len = 1 then _ else _) _
  rw [if_neg hm]
  refine (hinv.allocAddress_taken ha hb hn hpos false).yields.bind ?_
  rintro ⟨index, r⟩ ⟨hinv₁, htk, -⟩
  cases r with
  | error e => exact yields_error
  | ok kvaddr =>
    obtain ⟨ht, -⟩ := htk kvaddr rfl
    have hk := ht.pageAligned
    have hft := ht.fits
    have hl : Yields (vmWirePages kernelVm u (pageFloor uvaddr) kvaddr (wirePages uvaddr len)
        false s.mem) _ := vmWirePages_range hs hu hk (by omega) hp
    refine (onMem_yields (s := s.setIndex kernelVm index) hl).bind ?_
    rintro ⟨mem₁, index₁⟩ ⟨⟨hf, hw⟩, rfl⟩
    dsimp only at hf hw
    obtain ⟨D, hh⟩ := hw.held
    refine .ret ⟨?_, unwireUndone_many hs hu hm (by omega) hb hinv hinv₁ ht hf hw⟩
    refine seesBytes_of_pages hmd hlen hc hk hft.le (fun o ho => (hf o ho).extract)
      (fun o ho => ?_) fun o ho => ?_
    · rw [← (hf o ho).extract]
      simp only [pmapExtract, hw.users u hu]
    · exact ((hf o ho).of_entry hh.pages.tree (pageAligned_pageAt hk o)
        (hw.entry o (Nat.zero_le o) ho)).1

end Undo

end Glatt
