import Glatt.Vm.Page

/-!
# The page tree

What `page_insert_pages` builds. A call makes a list of page tree pages, each with up to 340
entries for the pages from its own on. The tree remembers the order in which they were made, and
`page_lookup` finds the first one whose span of 340 pages contains the page, whether or not it has
an entry for it.

Physical pages are numbered; a page table entry holds the page frame number in 24 bits of 4K, so
there are `2 ^ 23` pages.

## Main definitions

* `TreePage`, `PageRange.treePages`: the page tree pages of a range
* `Described`: the tree and the queues are those of page tree pages

## Main results

* `pageInsertTreePage_spec`, `pageInsertPages_induction`: what insertion does to the queues and the
  tree
* `pageLookup_eq`: the lookup finds the first page tree page that spans the page
* `pageLookup_inserted`: the lookup finds the entry of a page that is spanned only once
-/

namespace Glatt

open Imperative BinaryTree LinkedTree List

/-! ## Page numbers -/

def frameEnd : ℕ := 2 ^ 23

def frameAddr (f : ℕ) : UInt64 := UInt64.ofNat (8192 * f)

def ptpOf (b : ℕ) : UInt64 := pmapMapDirect (frameAddr b)

def entryOf (b i : ℕ) : UInt64 := ptpEntry (ptpOf b) (UInt64.ofNat i)

theorem toNat_frameAddr {f : ℕ} (h : f < 2 ^ 51) : (frameAddr f).toNat = 8192 * f :=
  toNat_ofNat (by omega)

theorem frameAddr_add (f k : ℕ) : frameAddr f + pageSize * UInt64.ofNat k = frameAddr (f + k) := by
  rw [frameAddr, frameAddr, Nat.mul_add, UInt64.ofNat_add, UInt64.ofNat_mul 8192 k]
  rfl

theorem toNat_ptpOf {b : ℕ} (h : b < 2 ^ 46) : (ptpOf b).toNat = directBase + 8192 * b := by
  have hb := toNat_frameAddr (f := b) (by omega)
  rw [ptpOf, pmapMapDirect, toNat_xkphysMap (by omega), hb]

theorem toNat_entryOf {b i : ℕ} (hb : b < 2 ^ 46) (hi : i < 340) :
    (entryOf b i).toNat = directBase + 8192 * b + 24 + 24 * i := by
  have hp := toNat_ptpOf hb
  have hn : (UInt64.ofNat i).toNat = i := toNat_ofNat (by omega)
  rw [entryOf, ptpEntry, UInt64.toNat_add, UInt64.toNat_add, UInt64.toNat_mul, hp, hn]
  simp only [sizeofVmPageTree, sizeofVmPage, directBase, UInt64.reduceToNat]
  omega

theorem entryOf_inj {b b' i i' : ℕ} (hb : b < 2 ^ 46) (hb' : b' < 2 ^ 46) (hi : i < 340)
    (hi' : i' < 340) (h : entryOf b i = entryOf b' i') : b = b' ∧ i = i' := by
  have := congrArg UInt64.toNat h
  rw [toNat_entryOf hb hi, toNat_entryOf hb' hi'] at this
  omega

theorem ptpOf_inj {b b' : ℕ} (hb : b < 2 ^ 46) (hb' : b' < 2 ^ 46) (h : ptpOf b = ptpOf b') :
    b = b' := by
  have := congrArg UInt64.toNat h
  rw [toNat_ptpOf hb, toNat_ptpOf hb'] at this
  omega

theorem ptpOf_lt {b b' : ℕ} (hb : b < 2 ^ 46) (hb' : b' < 2 ^ 46) :
    ptpOf b < ptpOf b' ↔ b < b' := by
  rw [UInt64.lt_iff_toNat_lt, toNat_ptpOf hb, toNat_ptpOf hb']
  omega

theorem pageAddress_entryOf {b i : ℕ} (hb : b < 2 ^ 46) (hi : i < 340) :
    pageAddress (entryOf b i) = frameAddr (b + i) := by
  have he := toNat_entryOf hb hi
  have hp := toNat_ptpOf hb
  have hf : pageFloor (entryOf b i) = ptpOf b := by
    apply UInt64.toNat_inj.mp
    rw [toNat_pageFloor, he, hp, directBase]
    omega
  have hin : (entryOf b i - ptpEntry (ptpOf b) 0) / sizeofVmPage = UInt64.ofNat i := by
    have hzr : ptpEntry (ptpOf b) 0 = entryOf b 0 := rfl
    have hz := toNat_entryOf hb (i := 0) (by omega)
    apply UInt64.toNat_inj.mp
    rw [hzr, UInt64.toNat_div, UInt64.toNat_sub_of_le _ _ (UInt64.le_iff_toNat_le.mpr (by omega)),
      he, hz, toNat_ofNat (by omega)]
    simp only [sizeofVmPage, UInt64.reduceToNat]
    omega
  have hex : pmapExtractDirect (ptpOf b) = frameAddr b :=
    xkphysExtract_xkphysMap (by rw [toNat_frameAddr (by omega)]; omega)
  rw [pageAddress, hf, hin, hex, frameAddr_add]

/-! ## Page tree pages -/

/-- A page tree page in the page `first`, with entries for `count` pages. -/
structure TreePage where
  first : ℕ
  count : ℕ
  pos : 0 < count
  le_entries : count ≤ 340
  le_frames : first + count ≤ frameEnd

def TreePage.Links (n : TreePage) (f : ℕ) : Prop := n.first ≤ f ∧ f < n.first + n.count

def TreePage.Spans (n : TreePage) (f : ℕ) : Prop := n.first ≤ f ∧ f < n.first + 340

instance (n : TreePage) (f : ℕ) : Decidable (n.Spans f) := inferInstanceAs (Decidable (_ ∧ _))

def TreePage.ptp (n : TreePage) : UInt64 := ptpOf n.first

def TreePage.entries (n : TreePage) : List UInt64 := (range n.count).map (entryOf n.first)

theorem TreePage.first_lt (n : TreePage) : n.first < 2 ^ 46 := by
  have := n.pos
  have := n.le_frames
  rw [frameEnd] at this
  omega

variable {page : UInt64} {m n : TreePage} {f : ℕ}

theorem TreePage.mem_entries {n : TreePage} :
    page ∈ n.entries ↔ ∃ i < n.count, page = entryOf n.first i := by
  simp [entries, eq_comm]

theorem TreePage.Links.spans {n : TreePage} (h : n.Links f) : n.Spans f := by
  have := n.le_entries
  exact ⟨h.1, by have := h.2; omega⟩

/-- The argument of `page_insert_pages`: a page, and a number of pages. -/
structure PageRange where
  first : ℕ
  pages : ℕ
  le_frames : first + pages ≤ frameEnd

theorem add_two_le_frameEnd : 16 + 2 ≤ frameEnd := by decide

theorem next_add_two_le_frameEnd : 18 + 2 ≤ frameEnd := by decide

theorem add_eight_le_frameEnd : 16 + 8 ≤ frameEnd := by decide

/-- **The page tree pages that one call makes**: they follow one another, all are full but the
last, and a single page at the end is left out. -/
def treePages (first pages : ℕ) (h : first + pages ≤ frameEnd) : List TreePage :=
  if hp : pages ≤ 1 then []
  else ⟨first, min 340 pages, by omega, by omega, by omega⟩ ::
    treePages (first + min 340 pages) (pages - min 340 pages) (by omega)
  termination_by pages

def PageRange.treePages (r : PageRange) : List TreePage :=
  Glatt.treePages r.first r.pages r.le_frames

def PageRange.insert (r : PageRange) (s : PageState) : Outcome PageState :=
  pageInsertPages (frameAddr r.first) (UInt64.ofNat r.pages) s

/-! ## The entries of one page tree page -/

def pageInsertAll (l : List UInt64) (s : PageState) : PageState :=
  l.foldl (fun s page => pageInsert page s) s

section

variable (l : List UInt64) (s : PageState)

@[simp] theorem pageInsertAll_pageTree : (pageInsertAll l s).pageTree = s.pageTree := by
  induction l generalizing s with
  | nil => rfl
  | cons page l ih => exact ih _

@[simp] theorem pageInsertAll_phys : (pageInsertAll l s).phys = s.phys := by
  induction l generalizing s with
  | nil => rfl
  | cons page l ih => exact ih _

@[simp] theorem pageInsertAll_pageUseQueue : (pageInsertAll l s).pageUseQueue = s.pageUseQueue := by
  induction l generalizing s with
  | nil => rfl
  | cons page l ih => exact ih _

@[simp] theorem pageInsertAll_pageFreeQueue :
    (pageInsertAll l s).pageFreeQueue = s.pageFreeQueue ++ l := by
  induction l generalizing s with
  | nil => exact (append_nil _).symm
  | cons page l ih =>
    have : (pageInsertAll l (pageInsert page s)).pageFreeQueue = s.pageFreeQueue ++ [page] ++ l :=
      ih _
    rwa [append_assoc] at this

@[simp] theorem pageInsertAll_pgRefcnt :
    (pageInsertAll l s).pgRefcnt page = if page ∈ l then 0 else s.pgRefcnt page := by
  induction l generalizing s with
  | nil => rfl
  | cons x l ih =>
    have : (pageInsertAll l (pageInsert x s)).pgRefcnt page =
        if page ∈ l then 0 else (pageInsert x s).pgRefcnt page := ih _
    rw [pageInsertAll, foldl_cons, ← pageInsertAll, this]
    by_cases hx : page = x <;> simp [hx, pageInsert, PageState.setRefcnt]

end

variable {s : PageState}

theorem pageInsertEntry_zero (b : ℕ) (hf : entryOf b 0 ∉ s.pageFreeQueue) :
    pageInsertEntry (ptpOf b) 0 s = .ok { s.setRefcnt (entryOf b 0) 1 with
      pageUseQueue := s.pageUseQueue ++ [entryOf b 0] } := by
  have he : (s.pageFreeQueue ++ [entryOf b 0]).erase (entryOf b 0) = s.pageFreeQueue := by
    rw [erase_append_right _ hf]
    simp
  have hr : tailqRemove (entryOf b 0) (s.pageFreeQueue ++ [entryOf b 0]) = .ok s.pageFreeQueue := by
    rw [tailqRemove, if_pos (by simp), he]
    rfl
  have hc : (pageInsert (entryOf b 0) s).pgRefcnt (entryOf b 0) = 0 := by
    simp [pageInsert, PageState.setRefcnt]
  have hq : (pageInsert (entryOf b 0) s).pageFreeQueue = s.pageFreeQueue ++ [entryOf b 0] := rfl
  rw [pageInsertEntry, if_pos rfl, show ptpEntry (ptpOf b) 0 = entryOf b 0 from rfl, pageRefHold,
    if_pos hc, hq, hr, ok_bind]
  simp [pageInsert, PageState.setRefcnt, pure, Except.pure]

theorem pageInsertEntries_eq (b : ℕ) : ∀ (n i f p : ℕ) (s : PageState), 0 < i → 0 < p →
    i + n ≤ 340 → p < 2 ^ 63 →
    pageInsertEntries (ptpOf b) n (UInt64.ofNat i) (frameAddr f) (UInt64.ofNat p) s =
      .ok (frameAddr (f + min n p), UInt64.ofNat (p - min n p),
        pageInsertAll ((range' i (min n p)).map (entryOf b)) s) := by
  intro n
  induction n with
  | zero =>
    intro i f p s _ _ _ _
    simp [pageInsertEntries, pageInsertAll, pure, Except.pure]
  | succ n ih =>
    intro i f p s hi hp hn hb
    have hs : UInt64.ofNat p - 1 = UInt64.ofNat (p - 1) := ofNat_sub hp (by omega)
    have ha : frameAddr f + pageSize = frameAddr (f + 1) := by
      rw [← frameAddr_add f 1]
      rfl
    rw [pageInsertEntries, pageInsertEntry, if_neg (ofNat_ne_zero hi (by omega)), pure_bind, hs, ha]
    by_cases hl : p = 1
    · subst hl
      have hm : min (n + 1) 1 = 1 := by omega
      rw [hm, if_pos (by rfl)]
      rfl
    · have hnx : UInt64.ofNat i + 1 = UInt64.ofNat (i + 1) := by
        rw [UInt64.ofNat_add]
        rfl
      have hm : min (n + 1) p = min n (p - 1) + 1 := by omega
      have hf : f + 1 + min n (p - 1) = f + (min n (p - 1) + 1) := by omega
      have hlf : p - 1 - min n (p - 1) = p - (min n (p - 1) + 1) := by omega
      rw [if_neg (ofNat_ne_zero (by omega) (by omega)), hnx,
        ih (i + 1) (f + 1) (p - 1) _ (by omega) (by omega) (by omega) (by omega), hm,
        range'_succ, hf, hlf]
      rfl

theorem pageInsertEntries_all {p : ℕ} (hp : 1 < p) (hb : p < 2 ^ 63)
    (hc : n.count = min 340 p) (hf : entryOf n.first 0 ∉ s.pageFreeQueue) :
    pageInsertEntries n.ptp vmPageTreeEntries.toNat 0 (frameAddr n.first) (UInt64.ofNat p) s =
      .ok (frameAddr (n.first + n.count), UInt64.ofNat (p - n.count),
        pageInsertAll ((range' 1 (n.count - 1)).map (entryOf n.first))
          { s.setRefcnt (entryOf n.first 0) 1 with
            pageUseQueue := s.pageUseQueue ++ [entryOf n.first 0] }) := by
  have hn : vmPageTreeEntries.toNat = 339 + 1 := by decide
  have hpos := n.pos
  have hm : min 339 (p - 1) = n.count - 1 := by omega
  have hnx : n.first + 1 + (n.count - 1) = n.first + n.count := by omega
  have hl : p - 1 - (n.count - 1) = p - n.count := by omega
  rw [hn, pageInsertEntries, TreePage.ptp, pageInsertEntry_zero _ hf, ok_bind,
    show UInt64.ofNat p - 1 = UInt64.ofNat (p - 1) from ofNat_sub (k := 1) (by omega) (by omega),
    if_neg (ofNat_ne_zero (by omega) (by omega)),
    show frameAddr n.first + pageSize = frameAddr (n.first + 1) from frameAddr_add n.first 1,
    show (0 : UInt64) + 1 = UInt64.ofNat 1 from rfl,
    pageInsertEntries_eq _ 339 1 _ _ _ (by omega) (by omega) (by omega) (by omega), hm, hnx,
    hl]

/-! ## The tree and the queues -/

/-- **The tree and the queues describe the page tree pages** `N`, in the order in which they were
made: each is linked in the tree, the queues hold all their entries, and no page has two. -/
structure Described (s : PageState) (N : List TreePage) : Prop where
  tree : s.pageTree.Represents (build (fun a b => a < b) (N.map TreePage.ptp))
  queues : ∀ page, page ∈ s.pageFreeQueue ∨ page ∈ s.pageUseQueue ↔ ∃ n ∈ N, page ∈ n.entries
  disjoint : N.Pairwise fun m n => ∀ f, m.Links f → ¬ n.Links f

/-- What the insertion of a page tree page does to the queues and the counts: the entries are new,
the first one is in use and the others are free. -/
structure InsertedPage (s s' : PageState) (n : TreePage) : Prop where
  fresh : ∀ page ∈ n.entries, page ∉ s.pageFreeQueue ∧ page ∉ s.pageUseQueue
  free : s'.pageFreeQueue = s.pageFreeQueue ++ n.entries.tail
  use : s'.pageUseQueue = s.pageUseQueue ++ [entryOf n.first 0]
  refcnt : ∀ page, s'.pgRefcnt page = if page = entryOf n.first 0 then 1
    else if page ∈ n.entries then 0 else s.pgRefcnt page
  phys : s'.phys = s.phys

theorem described_pageInit : Described (pageInit s) [] := by
  refine ⟨⟨rfl, nodup_nil, Nat.zero_le _⟩, fun page => ?_, List.Pairwise.nil⟩
  simp [pageInit]

theorem TreePage.entries_eq (n : TreePage) :
    n.entries = entryOf n.first 0 :: (range' 1 (n.count - 1)).map (entryOf n.first) := by
  obtain ⟨k, hk⟩ := Nat.exists_eq_succ_of_ne_zero (Nat.pos_iff_ne_zero.mp n.pos)
  rw [entries, hk, range_eq_range', range'_succ]
  rfl

theorem TreePage.nodup_entries (n : TreePage) : n.entries.Nodup := by
  refine List.Nodup.map_on ?_ nodup_range
  intro i hi j hj he
  have := n.le_entries
  rw [mem_range] at hi hj
  exact (entryOf_inj n.first_lt n.first_lt (by omega) (by omega) he).2

theorem TreePage.first_eq_of_mem (hm : page ∈ m.entries) (hn : page ∈ n.entries) :
    m.first = n.first := by
  obtain ⟨i, hi, rfl⟩ := mem_entries.mp hm
  obtain ⟨j, hj, he⟩ := mem_entries.mp hn
  have := m.le_entries
  have := n.le_entries
  exact (entryOf_inj m.first_lt n.first_lt (by omega) (by omega) he).1

theorem TreePage.links_first (n : TreePage) : n.Links n.first :=
  ⟨Nat.le_refl _, by have := n.pos; omega⟩

variable {N : List TreePage}

theorem eq_of_links (hd : N.Pairwise fun m n => ∀ f, m.Links f → ¬ n.Links f)
    (hm : m ∈ N) (hn : n ∈ N) (hmf : m.Links f) (hnf : n.Links f) : m = n := by
  have : Std.Symm fun m n : TreePage => ∀ f, m.Links f → ¬ n.Links f :=
    ⟨fun _ _ h g hg hg' => h g hg' hg⟩
  by_contra hne
  exact hd.forall hm hn hne f hmf hnf

theorem eq_of_entryOf (hd : N.Pairwise fun m n => ∀ f, m.Links f → ¬ n.Links f)
    (hm : m ∈ N) (hn : n ∈ N) (hmf : m.Spans f) (hnf : n.Spans f)
    (he : entryOf m.first (f - m.first) = entryOf n.first (f - n.first)) : m = n := by
  have hms := hmf.2
  have hns := hnf.2
  have := hmf.1
  have := hnf.1
  obtain ⟨hf, -⟩ := entryOf_inj m.first_lt n.first_lt (by omega) (by omega) he
  refine eq_of_links hd hm hn m.links_first ?_
  rw [hf]
  exact n.links_first

def Inserted (N : List TreePage) (page : UInt64) : Prop := ∃ n ∈ N, page ∈ n.entries

theorem inserted_iff (hf : f < frameEnd) :
    (Inserted N page ∧ pageAddress page = frameAddr f) ↔
      ∃ n ∈ N, n.Links f ∧ page = entryOf n.first (f - n.first) := by
  constructor
  · rintro ⟨⟨n, hn, hmem⟩, ha⟩
    obtain ⟨i, hi, rfl⟩ := TreePage.mem_entries.mp hmem
    have := n.le_entries
    have := n.le_frames
    rw [frameEnd] at this hf
    rw [pageAddress_entryOf n.first_lt (by omega)] at ha
    have := congrArg UInt64.toNat ha
    rw [toNat_frameAddr (by omega), toNat_frameAddr (by omega)] at this
    obtain rfl : f = n.first + i := by omega
    exact ⟨n, hn, ⟨by omega, by omega⟩, by rw [Nat.add_sub_cancel_left]⟩
  · rintro ⟨n, hn, ⟨hle, hlt⟩, rfl⟩
    have := n.le_entries
    refine ⟨⟨n, hn, TreePage.mem_entries.mpr ⟨f - n.first, by omega, rfl⟩⟩, ?_⟩
    rw [pageAddress_entryOf n.first_lt (by omega), Nat.add_sub_cancel' hle]

theorem Inserted.frame (h : Inserted N page) : ∃ f < frameEnd, pageAddress page = frameAddr f := by
  obtain ⟨n, -, hmem⟩ := h
  obtain ⟨i, hi, rfl⟩ := TreePage.mem_entries.mp hmem
  have := n.le_entries
  have := n.le_frames
  exact ⟨n.first + i, by omega, pageAddress_entryOf n.first_lt (by omega)⟩

theorem Inserted.eq_of_pageAddress (hd : N.Pairwise fun m n => ∀ f, m.Links f → ¬ n.Links f)
    {page page' : UInt64} (h : Inserted N page) (h' : Inserted N page')
    (ha : pageAddress page = pageAddress page') :
    page = page' := by
  obtain ⟨f, hf, had⟩ := h.frame
  obtain ⟨m, hm, hml, rfl⟩ := (inserted_iff hf).mp ⟨h, had⟩
  obtain ⟨n, hn, hnl, rfl⟩ := (inserted_iff hf).mp ⟨h', ha ▸ had⟩
  obtain rfl := eq_of_links hd hm hn hml hnl
  rfl

theorem pageInsertTreePage_spec (hd : Described s N) {n : TreePage} {p : ℕ} (hp : 1 < p)
    (hb : p < 2 ^ 63) (hc : n.count = min 340 p) (hnew : ∀ m ∈ N, ∀ f, m.Links f → ¬ n.Links f) :
    Ensures (pageInsertTreePage (frameAddr n.first) (UInt64.ofNat p) s) fun r =>
      r.1 = frameAddr (n.first + n.count) ∧ r.2.1 = UInt64.ofNat (p - n.count) ∧
      InsertedPage s r.2.2 n ∧ Described r.2.2 (N ++ [n]) := by
  have hf : ∀ m ∈ N, m.first ≠ n.first := by
    intro m hm he
    exact hnew m hm m.first m.links_first (he ▸ n.links_first)
  have hfr : ∀ page ∈ n.entries, page ∉ s.pageFreeQueue ∧ page ∉ s.pageUseQueue := by
    intro page hpg
    by_contra hq
    obtain ⟨m, hm, hmem⟩ := (hd.queues page).mp (by tauto)
    exact hf m hm (TreePage.first_eq_of_mem hmem hpg)
  have hz : entryOf n.first 0 ∈ n.entries := by simp [TreePage.entries_eq]
  have hptp : n.ptp ∉ (build (fun a b => a < b) (N.map TreePage.ptp)).inorder := by
    rw [mem_inorder_build, mem_map]
    rintro ⟨m, hm, he⟩
    exact hf m hm (ptpOf_inj m.first_lt n.first_lt he)
  rw [pageInsertTreePage, show pmapMapDirect (frameAddr n.first) = n.ptp from rfl]
  rw [pageInsertEntries_all hp hb hc (s := { s with pageTree := s.pageTree.clear n.ptp })
    (hfr _ hz).1, ok_bind]
  refine (btreeInsert_spec ?_ _ hptp ?_ ?_).bind ?_
  · simpa using hd.tree.clear hptp
  · simp
  · simp
  rintro tree ⟨ht, -⟩
  refine .ret ⟨rfl, rfl, ⟨hfr, ?_, ?_, ?_, ?_⟩, ?_, ?_, ?_⟩
  · simp [TreePage.entries_eq]
  · simp
  · intro page
    have hne := (nodup_cons.mp (n.entries_eq ▸ n.nodup_entries)).1
    by_cases hpg : page = entryOf n.first 0
    · rw [hpg, if_pos rfl, pageInsertAll_pgRefcnt, if_neg hne]
      simp
    · have hmem : page ∈ n.entries ↔ page ∈ (range' 1 (n.count - 1)).map (entryOf n.first) := by
        rw [n.entries_eq, mem_cons]
        exact or_iff_right hpg
      simp only [pageInsertAll_pgRefcnt, setRefcnt_pgRefcnt, hpg, hmem, if_false]
  · simp
  · rw [map_append, map_singleton, build_snoc]
    exact ht
  · intro page
    have hq := hd.queues page
    simp only [mem_append, mem_singleton, or_and_right, exists_or, exists_eq_left, ← hq]
    simp only [pageInsertAll_pageFreeQueue, setRefcnt_pageFreeQueue, pageInsertAll_pageUseQueue,
      mem_append, TreePage.entries_eq, mem_cons, not_mem_nil, or_false]
    -- the first entry is in use, and the others are free
    rw [or_comm (a := page = entryOf n.first 0), or_or_or_comm]
  · exact pairwise_append.mpr ⟨hd.disjoint, pairwise_singleton _ _, fun m hm n' hn' =>
      mem_singleton.mp hn' ▸ hnew m hm⟩

theorem pageInsertPages_induction {P : List TreePage → PageState → Prop} (hd : Described s N)
    (r : PageRange) (hnew : ∀ m ∈ N, ∀ f, m.Links f → ¬ (r.first ≤ f ∧ f < r.first + r.pages))
    (hP : P N s)
    (hs : ∀ M n s s', n ∈ r.treePages → P M s → InsertedPage s s' n → Described s' (M ++ [n]) → P
      (M ++ [n]) s') :
    Ensures (r.insert s) fun s' => Described s' (N ++ r.treePages) ∧ P (N ++ r.treePages) s' := by
  -- the pages from `f` on are left, and what has been made lies before them
  refine Ensures.loop (I := fun k x => ∃ f p M h, k = p ∧ x.1 = frameAddr f ∧
    x.2.1 = UInt64.ofNat p ∧ Described x.2.2 M ∧ P M x.2.2 ∧
    (∀ m ∈ M, ∀ g, m.Links g → ¬ (f ≤ g ∧ g < f + p)) ∧
    (∀ n ∈ treePages f p h, n ∈ r.treePages) ∧ M ++ treePages f p h = N ++ r.treePages) ?_
    ⟨r.first, r.pages, N, r.le_frames, rfl, rfl, rfl, hd, hP, hnew, fun _ hn => hn, rfl⟩ ?_
  · rintro k ⟨base, pages, s⟩ ⟨f, p, M, h, rfl, hb, hp, hd, hP, hnew, hsub, hM⟩
    dsimp only at hb hp hd hP ⊢
    subst hb hp
    have hbig : k < 2 ^ 63 := by
      rw [frameEnd] at h
      omega
    have hgt : UInt64.ofNat k > 1 ↔ 1 < k := by
      rw [gt_iff_lt, UInt64.lt_iff_toNat_lt, toNat_ofNat (by omega)]
      rfl
    by_cases hk : 1 < k
    · rw [if_pos (hgt.mpr hk)]
      rw [treePages, dif_neg (by omega)] at hM hsub
      have hl : ∀ m ∈ M, ∀ g, m.Links g →
          ¬ TreePage.Links ⟨f, min 340 k, by omega, by omega, by omega⟩ g := by
        intro m hm g hg hn
        have := hn.1
        have := hn.2
        exact hnew m hm g hg ⟨hn.1, by dsimp only at this; omega⟩
      refine (pageInsertTreePage_spec hd hk hbig
        rfl hl).bind ?_
      rintro ⟨base, pages, s'⟩ ⟨hb, hp, hins, hd'⟩
      refine .ret ⟨k - min 340 k, by omega, f + min 340 k, k - min 340 k, _, by omega,
        rfl, hb, hp, hd', hs _ _ _ _ (hsub _ mem_cons_self) hP hins hd', ?_,
        fun n hn => hsub n (mem_cons_of_mem _ hn), ?_⟩
      · intro m hm g hg hr
        rcases mem_append.mp hm with hm | hm
        · exact hnew m hm g hg (by omega)
        · cases mem_singleton.mp hm
          have := hg.2
          dsimp only at this
          omega
      · rw [← hM, append_assoc, singleton_append]
    · rw [if_neg (mt hgt.mp hk)]
      rw [treePages, dif_pos (by omega), append_nil] at hM
      exact .ret ⟨hM ▸ hd, hM ▸ hP⟩
  · rw [toNat_ofNat]
    · omega
    · have := r.le_frames
      rw [frameEnd] at this
      omega

/-! ## Lookup -/

theorem pageLookupCmp_eq {x b : ℕ} (hx : x < frameEnd) (hb : b < frameEnd) :
    pageLookupCmp (frameAddr x) (ptpOf b) =
      if x < b then .lt else if x - b < 340 then .eq (entryOf b (x - b)) else .gt := by
  rw [frameEnd] at hx hb
  have hf := toNat_frameAddr (f := x) (by omega)
  have hfb := toNat_frameAddr (f := b) (by omega)
  have hbs : pageAddress (ptpEntry (ptpOf b) 0) = frameAddr b :=
    pageAddress_entryOf (i := 0) (by omega) (by omega)
  have hlt : frameAddr x < frameAddr b ↔ x < b := by
    rw [UInt64.lt_iff_toNat_lt, hf, hfb]
    omega
  rw [pageLookupCmp, hbs]
  by_cases h : x < b
  · rw [if_pos (hlt.mpr h), if_pos h]
  · rw [if_neg (mt hlt.mp h), if_neg h]
    have he : (addrToPage (frameAddr x - frameAddr b)).toUInt32.toUInt64 =
        UInt64.ofNat (x - b) := by
      apply UInt64.toNat_inj.mp
      rw [UInt32.toNat_toUInt64, UInt64.toNat_toUInt32, toNat_addrToPage,
        UInt64.toNat_sub_of_le _ _ (UInt64.le_iff_toNat_le.mpr (by omega)), hf, hfb,
        toNat_ofNat (by omega)]
      omega
    have hc : UInt64.ofNat (x - b) < vmPageTreeEntries ↔ x - b < 340 := by
      rw [UInt64.lt_iff_toNat_lt, toNat_ofNat (by omega)]
      rfl
    rw [he]
    by_cases hs : x - b < 340
    · rw [if_pos (hc.mpr hs), if_pos hs]
      rfl
    · rw [if_neg (mt hc.mp hs), if_neg hs]

theorem TreePage.first_lt_frameEnd (n : TreePage) : n.first < frameEnd := by
  have := n.pos
  have := n.le_frames
  omega

theorem TreePage.cmp_eq (n : TreePage) {x : ℕ} (hx : x < frameEnd) :
    pageLookupCmp (frameAddr x) n.ptp =
      if x < n.first then .lt else if n.Spans x then .eq (entryOf n.first (x - n.first))
      else .gt := by
  rw [ptp, pageLookupCmp_eq hx n.first_lt_frameEnd]
  by_cases h : x < n.first
  · rw [if_pos h, if_pos h]
  · have : x - n.first < 340 ↔ n.Spans x :=
      ⟨fun hs => ⟨by omega, by omega⟩, fun hs => by have := hs.2; omega⟩
    simp only [h, this, if_false]

theorem pageLookup_eq (hd : Described s N) {x : ℕ} (hx : x < frameEnd) :
    pageLookup (frameAddr x) s = .ok (match N.find? fun n => n.Spans x with
      | none => .error .notFound
      | some n => .ok (entryOf n.first (x - n.first))) := by
  have hlt : ∀ n : TreePage, (pageLookupCmp (frameAddr x) n.ptp = .lt) ↔ x < n.first := by
    intro n
    rw [n.cmp_eq hx]
    split_ifs with h <;> simp [h]
  have hh : ∀ n : TreePage, (pageLookupCmp (frameAddr x) n.ptp).page.isSome = true ↔
      n.Spans x := by
    intro n
    rw [n.cmp_eq hx]
    split_ifs with h hs
    · simp only [LookupCmp.page, Option.isSome_none, Bool.false_eq_true, false_iff]
      exact fun hs => by have := hs.1; omega
    · simp [LookupCmp.page, hs]
    · simp [LookupCmp.page, hs]
  -- the comparison is monotone along the tree
  have hf : (build (fun a b => a < b) (N.map TreePage.ptp)).find
      (fun iter => pageLookupCmp (frameAddr x) iter = .lt)
      (fun iter => (pageLookupCmp (frameAddr x) iter).page.isSome) =
      (N.find? fun n => n.Spans x).map TreePage.ptp := by
    rw [find_build, find?_map]
    · congr 2
      funext n
      simp only [Function.comp_apply]
      exact Bool.eq_iff_iff.mpr ((hh n).trans decide_eq_true_iff.symm)
    · rintro _ hy _ hz hl hb
      obtain ⟨m, -, rfl⟩ := mem_map.mp hy
      obtain ⟨n, -, rfl⟩ := mem_map.mp hz
      rw [decide_eq_true_iff, hlt] at hl ⊢
      have := mt (ptpOf_lt n.first_lt m.first_lt).mpr (of_decide_eq_false hb)
      omega
    · rintro _ hy _ hz hsp hb
      obtain ⟨m, -, rfl⟩ := mem_map.mp hy
      obtain ⟨n, -, rfl⟩ := mem_map.mp hz
      rw [hh] at hsp
      have hnm := (ptpOf_lt n.first_lt m.first_lt).mp (of_decide_eq_true hb)
      rw [decide_eq_true_iff, hlt, hh]
      by_cases h : x < m.first
      · exact .inl h
      · exact .inr ⟨by omega, by have := hsp.2; omega⟩
    · rintro _ hy hsp
      obtain ⟨m, -, rfl⟩ := mem_map.mp hy
      rw [hh] at hsp
      rw [decide_eq_false_iff_not, hlt]
      exact fun h => by have := hsp.1; omega
  rw [pageLookup, btreeFind_eq hd.tree, hf, ok_bind]
  cases hn : N.find? fun n => n.Spans x with
  | none => rfl
  | some n =>
    have hsp : n.Spans x := by simpa using find?_some hn
    have : (pageLookupCmp (frameAddr x) n.ptp).page = some (entryOf n.first (x - n.first)) := by
      rw [n.cmp_eq hx, if_neg (by have := hsp.1; omega), if_pos hsp]
      rfl
    simp [this, pure, Except.pure]

theorem pageLookup_inserted (hd : Described s N)
    (hs : N.Pairwise fun m n => ∀ f, n.Links f → ¬ m.Spans f) (h : Inserted N page) :
    pageLookup (pageAddress page) s = .ok (.ok page) := by
  obtain ⟨f, hf, ha⟩ := h.frame
  obtain ⟨n, hn, hl, rfl⟩ := (inserted_iff hf).mp ⟨h, ha⟩
  obtain ⟨as, bs, rfl⟩ := append_of_mem hn
  have hfr : (as ++ n :: bs).find? (fun n => n.Spans f) = some n := by
    refine find?_eq_some_iff_append.mpr ⟨by simpa using hl.spans, as, bs, rfl, ?_⟩
    intro m hm
    simpa using (pairwise_append.mp hs).2.2 m hm n mem_cons_self f hl
  rw [ha, pageLookup_eq hd hf, hfr]

end Glatt
