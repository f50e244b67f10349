import Glatt.Vm.PageTree

/-!
# The identity of physical pages

Whether `page_lookup` finds for every page the entry that `page_insert_pages` has linked for it. A
page tree page spans 340 pages also when it has fewer entries, so a lookup beyond its entries finds
an entry that no queue holds, even if a later call has linked another one for that page.

## Main definitions

* `PageRange.Links`, `PageRange.Spills`: the pages with an entry, and those spanned without
* `NothingNewSpilled`: pages that are spanned without an entry have one by an earlier call

## Main results

* `page_lookup_exact_iff`: the lookup is exact if and only if nothing new is spilled over
* `page_lookup_foreign_entry`: two adjacent ranges, and a lookup that finds the wrong entry
-/

namespace Glatt

open Imperative List

def insertRanges : List PageRange → PageState → Outcome PageState
  | [], s => pure s
  | r :: calls, s => do
    let s ← r.insert s
    insertRanges calls s

/-- The number of pages that a call has entries for: all, but a single page at the end is left
out. -/
def linkedPages (pages : ℕ) : ℕ :=
  if pages ≤ 1 then 0 else if pages % 340 = 1 then pages - 1 else pages

def spannedPages (pages : ℕ) : ℕ := (linkedPages pages + 339) / 340 * 340

def PageRange.Links (r : PageRange) (f : ℕ) : Prop :=
  r.first ≤ f ∧ f < r.first + linkedPages r.pages

/-- The last page tree page of the call spans the page without an entry for it. -/
def PageRange.Spills (r : PageRange) (f : ℕ) : Prop :=
  r.first + linkedPages r.pages ≤ f ∧ f < r.first + spannedPages r.pages

def PageRange.Contains (r : PageRange) (f : ℕ) : Prop := r.first ≤ f ∧ f < r.first + r.pages

/-- **Nothing new is spilled over**: a physical page that a call spans without an entry has been
linked by an earlier call. -/
def NothingNewSpilled (calls : List PageRange) : Prop :=
  ∀ pre r post, calls = pre ++ r :: post → ∀ f < frameEnd, r.Spills f → ∃ r' ∈ pre, r'.Links f

/-! ## The page tree pages of a call -/

theorem linkedPages_of_le {pages : ℕ} (h : pages ≤ 1) : linkedPages pages = 0 := if_pos h

variable {pages : ℕ}

theorem linkedPages_step (pages : ℕ) (h : 1 < pages) :
    linkedPages pages = min 340 pages + linkedPages (pages - min 340 pages) := by
  unfold linkedPages
  split_ifs <;> omega

variable {first : ℕ}

theorem links_treePages (h : first + pages ≤ frameEnd) (f : ℕ) :
    (∃ n ∈ treePages first pages h, n.Links f) ↔ first ≤ f ∧ f < first + linkedPages pages := by
  induction first, pages, h using treePages.induct with
  | case1 first pages h hp =>
    rw [treePages, dif_pos hp, linkedPages_of_le hp]
    simp
  | case2 first pages h hp ih =>
    have hs := linkedPages_step pages (by omega)
    rw [treePages, dif_neg hp]
    simp only [mem_cons, exists_eq_or_imp]
    rw [ih]
    simp only [TreePage.Links]
    omega

theorem spills_of_spans (h : first + pages ≤ frameEnd) {f : ℕ} {n : TreePage}
    (hn : n ∈ treePages first pages h) (hs : n.Spans f) (hl : ¬ n.Links f) :
    first + linkedPages pages ≤ f ∧ f < first + spannedPages pages := by
  induction first, pages, h using treePages.induct with
  | case1 first pages h hp =>
    rw [treePages, dif_pos hp] at hn
    cases hn
  | case2 first pages h hp ih =>
    have hst := linkedPages_step pages (by omega)
    rw [treePages, dif_neg hp, mem_cons] at hn
    simp only [spannedPages] at ih ⊢
    rcases hn with rfl | hn
    · simp only [TreePage.Spans, TreePage.Links] at hs hl
      -- only a page tree page with free entries spans more than it links, and it is the last
      have hls : linkedPages (pages - min 340 pages) = 0 := linkedPages_of_le (by omega)
      omega
    · have hr : ¬ pages - min 340 pages ≤ 1 := by
        intro hle
        rw [treePages, dif_pos hle] at hn
        cases hn
      have := ih hn
      omega

theorem exists_spans_of_spills (h : first + pages ≤ frameEnd) {f : ℕ}
    (hf : first + linkedPages pages ≤ f ∧ f < first + spannedPages pages) :
    ∃ n ∈ treePages first pages h, n.Spans f := by
  induction first, pages, h using treePages.induct with
  | case1 first pages h hp =>
    rw [spannedPages, linkedPages_of_le hp] at hf
    omega
  | case2 first pages h hp ih =>
    have hst := linkedPages_step pages (by omega)
    rw [treePages, dif_neg hp]
    simp only [spannedPages] at ih hf
    by_cases hl : linkedPages (pages - min 340 pages) = 0
    · refine ⟨_, mem_cons_self, ?_⟩
      simp only [TreePage.Spans]
      omega
    · have hfl : min 340 pages = 340 := by
        by_contra hne
        exact hl (linkedPages_of_le (by omega))
      obtain ⟨n, hn, hs⟩ := ih (by omega)
      exact ⟨n, mem_cons_of_mem _ hn, hs⟩

theorem linkedPages_le (pages : ℕ) : linkedPages pages ≤ pages := by
  unfold linkedPages
  split_ifs <;> omega

theorem PageRange.Links.contains {r : PageRange} {f : ℕ} (h : r.Links f) : r.Contains f := by
  have := linkedPages_le r.pages
  exact ⟨h.1, by have := h.2; omega⟩

theorem PageRange.links_iff {r : PageRange} {f : ℕ} : r.Links f ↔ ∃ n ∈ r.treePages, n.Links f :=
  (links_treePages r.le_frames f).symm

/-! ## The calls -/

theorem insertRanges_induction {P : List TreePage → PageState → Prop} {calls : List PageRange}
    (hds : calls.Pairwise fun r r' => ∀ f, r.Contains f → ¬ r'.Contains f)
    (hs : ∀ M n s s', P M s → InsertedPage s s' n → Described s' (M ++ [n]) → P (M ++ [n]) s') :
    ∀ {s : PageState} {N : List TreePage}, Described s N → P N s →
      (∀ m ∈ N, ∀ r ∈ calls, ∀ f, m.Links f → ¬ r.Contains f) →
      Ensures (insertRanges calls s) fun s' =>
        Described s' (N ++ calls.flatMap PageRange.treePages) ∧
          P (N ++ calls.flatMap PageRange.treePages) s' := by
  induction calls with
  | nil =>
    intro s N hd hP _
    exact .ret (by simpa using ⟨hd, hP⟩)
  | cons r calls ih =>
    intro s N hd hP hn
    obtain ⟨hr, hc⟩ := pairwise_cons.mp hds
    refine (pageInsertPages_induction hd r (fun m hm => hn m hm r mem_cons_self) hP
      fun M n s s' _ => hs M n s s').bind ?_
    rintro s' ⟨hd', hP'⟩
    rw [flatMap_cons, ← append_assoc]
    refine ih hc hd' hP' fun m hm r' hr' f hf => ?_
    rcases mem_append.mp hm with hm | hm
    · exact hn m hm r' (mem_cons_of_mem _ hr') f hf
    · exact hr r' hr' f (PageRange.links_iff.mpr ⟨m, hm, hf⟩).contains

theorem insertRanges_spec {calls : List PageRange}
    (hds : calls.Pairwise fun r r' => ∀ f, r.Contains f → ¬ r'.Contains f) {s : PageState}
    {N : List TreePage} (hd : Described s N)
    (hn : ∀ m ∈ N, ∀ r ∈ calls, ∀ f, m.Links f → ¬ r.Contains f) :
    Ensures (insertRanges calls s) fun s' =>
      Described s' (N ++ calls.flatMap PageRange.treePages) :=
  (insertRanges_induction (P := fun _ _ => True) hds (fun _ _ _ _ _ _ _ => trivial) hd trivial
    hn).mono fun _ h => h.1

theorem flatMap_eq_append_cons {α β : Type} {g : α → List β} {l : List α} {as bs : List β} {b : β}
    (h : l.flatMap g = as ++ b :: bs) :
    ∃ pre a post as' bs', l = pre ++ a :: post ∧ g a = as' ++ b :: bs' ∧
      as = pre.flatMap g ++ as' := by
  induction l generalizing as with
  | nil => simp at h
  | cons x l ih =>
    rcases append_eq_append_iff.mp h with ⟨zs, rfl, hz⟩ | ⟨zs, hz, hb⟩
    · obtain ⟨pre, a, post, as', bs', rfl, hg, rfl⟩ := ih hz
      exact ⟨x :: pre, a, post, as', bs', rfl, hg, by simp⟩
    · cases zs with
      | nil =>
        obtain ⟨pre, a, post, as', bs', rfl, hg, ha⟩ := @ih [] hb.symm
        refine ⟨x :: pre, a, post, as', bs', rfl, hg, ?_⟩
        rw [flatMap_cons, append_assoc, ← ha, hz]
        simp
      | cons z zs =>
        obtain ⟨rfl, -⟩ := cons_eq_cons.mp (cons_append ▸ hb)
        exact ⟨[], x, l, as, zs, rfl, hz, by simp⟩

theorem first_span_links_iff (calls : List PageRange) :
    (∀ f < frameEnd, ∀ n, (calls.flatMap PageRange.treePages).find? (fun n => n.Spans f) = some n →
      n.Links f) ↔ NothingNewSpilled calls := by
  constructor
  · rintro he pre r post rfl f hf hs
    obtain ⟨n, hn, hsp⟩ := exists_spans_of_spills r.le_frames hs
    -- the first page tree page that spans the page is not behind `n`
    have hfr : ∃ m ∈ pre.flatMap PageRange.treePages ++ r.treePages, m.Links f := by
      rw [flatMap_append, flatMap_cons, ← append_assoc] at he
      cases hfn : (pre.flatMap PageRange.treePages ++ r.treePages).find? fun n => n.Spans f with
      | none => simpa [hsp] using find?_eq_none.mp hfn n (mem_append_right _ hn)
      | some m =>
        refine ⟨m, mem_of_find?_eq_some hfn, he f hf m ?_⟩
        rw [find?_append, hfn, Option.some_or]
    obtain ⟨m, hm, hl⟩ := hfr
    rcases mem_append.mp hm with hm | hm
    · obtain ⟨r', hr', hm⟩ := mem_flatMap.mp hm
      exact ⟨r', hr', PageRange.links_iff.mpr ⟨m, hm, hl⟩⟩
    · have := (PageRange.links_iff.mpr ⟨m, hm, hl⟩).2
      have := hs.1
      omega
  · intro hc f hf n hfn
    obtain ⟨hsp, as, bs, hsl, hb⟩ := find?_eq_some_iff_append.mp hfn
    obtain ⟨pre, r, post, as', bs', rfl, hr, rfl⟩ := flatMap_eq_append_cons hsl
    by_contra hl
    have hn : n ∈ r.treePages := by simp [hr]
    have hs := spills_of_spans r.le_frames hn (by simpa using hsp) hl
    obtain ⟨r', hr', hl'⟩ := hc pre r post rfl f hf hs
    obtain ⟨m, hm, hml⟩ := PageRange.links_iff.mp hl'
    have := hb m (mem_append_left _ (mem_flatMap.mpr ⟨r', hr', hm⟩))
    simp [hml.spans] at this

theorem lookup_exact_iff {s : PageState} {N : List TreePage} (hd : Described s N) :
    (∀ f < frameEnd, ∀ page, pageLookup (frameAddr f) s = .ok (.ok page) ↔
      (page ∈ s.pageFreeQueue ∨ page ∈ s.pageUseQueue) ∧ pageAddress page = frameAddr f) ↔
    ∀ f < frameEnd, ∀ n, N.find? (fun n => n.Spans f) = some n → n.Links f := by
  have hlk : ∀ f < frameEnd, ∀ page, pageLookup (frameAddr f) s = .ok (.ok page) ↔
      ∃ n, N.find? (fun n => n.Spans f) = some n ∧ page = entryOf n.first (f - n.first) := by
    intro f hf page
    rw [pageLookup_eq hd hf]
    cases N.find? fun n => n.Spans f with
    | none => simp
    | some n => simp [eq_comm]
  have hen : ∀ f < frameEnd, ∀ page, ((page ∈ s.pageFreeQueue ∨ page ∈ s.pageUseQueue) ∧
      pageAddress page = frameAddr f) ↔
      ∃ n ∈ N, n.Links f ∧ page = entryOf n.first (f - n.first) := by
    intro f hf page
    rw [hd.queues page]
    exact inserted_iff hf
  constructor
  · intro hex f hf n hfn
    have hs : n.Spans f := by simpa using find?_some hfn
    obtain ⟨m, hm, hl, he⟩ := (hen f hf _).mp ((hex f hf _).mp ((hlk f hf _).mpr ⟨n, hfn, rfl⟩))
    have : n = m := eq_of_entryOf hd.disjoint (mem_of_find?_eq_some hfn) hm hs hl.spans he
    exact this ▸ hl
  · intro hfr f hf page
    rw [hlk f hf, hen f hf]
    constructor
    · rintro ⟨n, hfn, rfl⟩
      exact ⟨n, mem_of_find?_eq_some hfn, hfr f hf n hfn, rfl⟩
    · rintro ⟨n, hn, hl, rfl⟩
      cases hfn : N.find? fun n => n.Spans f with
      | none => simpa [hl.spans] using find?_eq_none.mp hfn n hn
      | some m =>
        have hml := hfr f hf m hfn
        obtain rfl := eq_of_links hd.disjoint (mem_of_find?_eq_some hfn) hn hml hl
        exact ⟨m, rfl, rfl⟩

/-- **The identity of physical pages**: after calls of `page_insert_pages` on disjoint ranges,
`page_lookup` succeeds on exactly the pages for which an entry has been linked into a queue, and
returns that entry, if and only if nothing new is spilled over. -/
theorem page_lookup_exact_iff (s : PageState) (calls : List PageRange)
    (hdisj : calls.Pairwise fun r r' => ∀ f, r.Contains f → ¬ r'.Contains f) :
    Ensures (insertRanges calls (pageInit s)) fun s' =>
      (∀ f < frameEnd, ∀ page, pageLookup (frameAddr f) s' = .ok (.ok page) ↔
        (page ∈ s'.pageFreeQueue ∨ page ∈ s'.pageUseQueue) ∧ pageAddress page = frameAddr f) ↔
      NothingNewSpilled calls := by
  refine (insertRanges_spec hdisj described_pageInit (by simp)).mono fun s' hd => ?_
  rw [lookup_exact_iff hd, nil_append, first_span_links_iff]

def blankPages : PageState := ⟨LinkedTree.empty, [], [], fun _ => 0, fun _ => 0⟩

/-- One page tree page with all its entries spills nothing over. -/
theorem page_lookup_exact_iff_full :
    Ensures (insertRanges [⟨16, 340, by decide⟩] (pageInit blankPages)) fun s' =>
      ∀ f < frameEnd, ∀ page, pageLookup (frameAddr f) s' = .ok (.ok page) ↔
        (page ∈ s'.pageFreeQueue ∨ page ∈ s'.pageUseQueue) ∧ pageAddress page = frameAddr f := by
  refine (page_lookup_exact_iff blankPages _ (pairwise_singleton _ _)).mono fun s' h =>
    h.mpr ?_
  intro pre r post hs f _ hsp
  obtain rfl : r = ⟨16, 340, by decide⟩ := by
    have : r ∈ [(⟨16, 340, by decide⟩ : PageRange)] := by simp [hs]
    simpa using this
  have hsn : spannedPages 340 = 340 := by decide
  have hl : linkedPages 340 = 340 := by decide
  simp only [PageRange.Spills] at hsp
  omega

theorem treePages_pair (h : first + 2 ≤ frameEnd) :
    treePages first 2 h = [⟨first, 2, by decide, by decide, h⟩] := by
  rw [treePages, dif_neg (by decide)]
  simp only [show min 340 2 = 2 from rfl]
  rw [treePages, dif_pos (by decide)]

/-- **The wrong entry**: two pages are inserted at page 16, and then the next two at page 18. The
lookup of page 18 finds entry 2 of the first page tree page, which no queue holds, and not entry 0
of the second one. -/
theorem page_lookup_foreign_entry :
    Ensures (insertRanges [⟨16, 2, by decide⟩, ⟨18, 2, by decide⟩] (pageInit blankPages)) fun s' =>
      (entryOf 18 0 ∈ s'.pageFreeQueue ∨ entryOf 18 0 ∈ s'.pageUseQueue) ∧
      pageAddress (entryOf 18 0) = frameAddr 18 ∧
      pageLookup (frameAddr 18) s' = .ok (.ok (entryOf 16 2)) ∧
      entryOf 16 2 ∉ s'.pageFreeQueue ∧ entryOf 16 2 ∉ s'.pageUseQueue := by
  refine (insertRanges_spec ?_ described_pageInit (by simp)).mono fun s' hd => ?_
  · simp only [pairwise_cons, mem_singleton, forall_eq, PageRange.Contains]
    exact ⟨fun f _ => by omega, by simp⟩
  simp only [nil_append, flatMap_cons, PageRange.treePages, treePages_pair, singleton_append] at hd
  have hf : entryOf 18 0 ∈ TreePage.entries ⟨18, 2, by decide, by decide, by decide⟩ :=
    TreePage.mem_entries.mpr ⟨0, by decide, rfl⟩
  refine ⟨(hd.queues _).mpr ⟨_, by simp, hf⟩, pageAddress_entryOf (by decide) (by decide), ?_, ?_⟩
  · rw [pageLookup_eq hd (by decide), find?_cons_of_pos (by decide)]
    simp only [Nat.reduceSub]
  · rw [← not_or, hd.queues]
    rintro ⟨n, hn, hmem⟩
    obtain ⟨i, hi, he⟩ := TreePage.mem_entries.mp hmem
    have := n.le_entries
    obtain ⟨hf, rfl⟩ := entryOf_inj (by decide) n.first_lt (by decide) (by omega) he
    rcases mem_cons.mp hn with rfl | hn
    · exact absurd hi (by decide)
    · cases mem_singleton.mp hn
      exact absurd hf (by decide)

end Glatt
