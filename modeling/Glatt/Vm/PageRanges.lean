import Glatt.Vm.PageLookup
import Glatt.Vm.PageRefs

/-!
# The pages of inserted ranges

What the queues hold after calls of `page_insert_pages`. The entries for the pages lie in the pages
themselves: each page tree page is the page of its own first entry. So that no page is handed out
that is in use as a page tree page or that another entry stands for, entries have to stand for
different pages, and the first one of every page tree page has to be held.

## Main definitions

* `Queued`: an entry is in a queue
* `Unrepresented`: the pages of a range without an entry

## Main results

* `page_insert_sound`: after calls on disjoint ranges the entries in the queues stand for different
  pages of the ranges, those of page tree pages are held, and each range lacks at most one page
-/

namespace Glatt

open Imperative List

def Queued (s : PageState) (page : UInt64) : Prop := page ∈ s.pageFreeQueue ∨ page ∈ s.pageUseQueue

def Unrepresented (s : PageState) (r : PageRange) : Set ℕ :=
  {f | r.Contains f ∧ ∀ page, Queued s page → pageAddress page ≠ frameAddr f}

variable {calls : List PageRange} {s : PageState}

theorem insertRanges_counted
    (hds : calls.Pairwise fun r r' => ∀ f, r.Contains f → ¬ r'.Contains f) :
    Ensures (insertRanges calls (pageInit s)) fun s' =>
      Counted s' (calls.flatMap PageRange.treePages) fun _ => 0 := by
  have hin : Counted (pageInit s) [] fun _ => 0 := by
    refine ⟨described_pageInit, nodup_nil, ?_, ?_⟩
    · rintro page ⟨n, hn, -⟩
      cases hn
    · rintro page ⟨n, hn, -⟩
      cases hn
  refine (insertRanges_induction (P := fun N s => Counted s N fun _ => 0) hds ?_
    described_pageInit hin (by simp)).mono fun s' h => h.2
  exact fun M n s s' h hins hd => h.insertedPage hins hd fun _ _ => rfl

section Sound

variable (hc : Counted s (calls.flatMap PageRange.treePages) fun _ => 0)
include hc

theorem Counted.exists_range {page : UInt64} (hq : Queued s page) :
    ∃ r ∈ calls, ∃ f, r.Contains f ∧ pageAddress page = frameAddr f := by
  have hi : Inserted _ page := (hc.desc.queues page).mp hq
  obtain ⟨f, hf, ha⟩ := hi.frame
  obtain ⟨n, hn, hl, -⟩ := (inserted_iff hf).mp ⟨hi, ha⟩
  obtain ⟨r, hr, hn⟩ := mem_flatMap.mp hn
  exact ⟨r, hr, f, (PageRange.links_iff.mpr ⟨n, hn, hl⟩).contains, ha⟩

theorem Counted.held {ptp : UInt64} {T : BinaryTree UInt64} (hT : s.pageTree.Represents T)
    (hp : ptp ∈ T.inorder) :
    ∃ page, Queued s page ∧ pageAddress page = pmapExtractDirect ptp ∧ 1 ≤ s.pgRefcnt page ∧
      page ∉ s.pageFreeQueue := by
  obtain rfl := hc.desc.tree.unique hT
  rw [BinaryTree.mem_inorder_build, mem_map] at hp
  obtain ⟨n, hn, rfl⟩ := hp
  have hmem : entryOf n.first 0 ∈ n.entries := by
    rw [n.entries_eq]
    exact mem_cons_self
  have hi : Inserted (calls.flatMap PageRange.treePages) (entryOf n.first 0) := ⟨n, hn, hmem⟩
  have hpos : 0 < nodeRefs (calls.flatMap PageRange.treePages) (entryOf n.first 0) :=
    countP_pos_iff.mpr ⟨n, hn, by simp⟩
  have hcn := hc.count _ hi
  have ho : 1 ≤ s.pgRefcnt (entryOf n.first 0) := by
    rw [UInt32.le_iff_toNat_le]
    change 1 ≤ _
    omega
  refine ⟨entryOf n.first 0, (hc.desc.queues _).mpr hi, ?_, ho, fun hf => ?_⟩
  · rw [pageAddress_entryOf n.first_lt (by decide), Nat.add_zero]
    have hlt := n.first_lt
    have ha := toNat_frameAddr (f := n.first) (by omega)
    exact (xkphysExtract_xkphysMap (by omega)).symm
  · rw [(hc.free_iff _ hi).mp hf] at ho
    exact absurd ho (by decide)

theorem Counted.exists_entry {r : PageRange} (hr : r ∈ calls) {f : ℕ} (hf : r.Links f) :
    ∃ page, Queued s page ∧ pageAddress page = frameAddr f := by
  obtain ⟨n, hn, hl⟩ := PageRange.links_iff.mp hf
  have hlt : f < frameEnd := by
    have := hl.2
    have := n.le_frames
    omega
  obtain ⟨hi, ha⟩ := (inserted_iff hlt).mpr ⟨n, mem_flatMap.mpr ⟨r, hr, hn⟩, hl, rfl⟩
  exact ⟨_, (hc.desc.queues _).mpr hi, ha⟩

theorem Counted.unrepresented_eq {r : PageRange} (hr : r ∈ calls) {f : ℕ}
    (hf : f ∈ Unrepresented s r) : f + 1 = r.first + r.pages := by
  obtain ⟨hcn, hn⟩ := hf
  have hnot : ¬ r.Links f := by
    intro hl
    obtain ⟨page, hq, ha⟩ := hc.exists_entry hr hl
    exact hn page hq ha
  have hln : r.pages ≤ linkedPages r.pages + 1 := by
    unfold linkedPages
    split_ifs <;> omega
  simp only [PageRange.Links, PageRange.Contains] at hnot hcn
  omega

end Sound

/-- **No page is handed out twice**: after calls of `page_insert_pages` on disjoint ranges the
entries in the queues are different and stand for different pages of the ranges, the page of every
page tree page has an entry that is held and not free, and of each range at most one page is left
out. -/
theorem page_insert_sound (s : PageState) (calls : List PageRange)
    (hdisj : calls.Pairwise fun r r' => ∀ f, r.Contains f → ¬ r'.Contains f) :
    Ensures (insertRanges calls (pageInit s)) fun s' =>
      ((s'.pageFreeQueue ++ s'.pageUseQueue).Nodup ∧
        Set.InjOn pageAddress {page | Queued s' page}) ∧
      (∀ page, Queued s' page → ∃ r ∈ calls, ∃ f, r.Contains f ∧ pageAddress page = frameAddr f) ∧
      (∃ T, s'.pageTree.Represents T ∧ ∀ ptp ∈ T.inorder,
        ∃ page, Queued s' page ∧ pageAddress page = pmapExtractDirect ptp ∧
          1 ≤ s'.pgRefcnt page ∧ page ∉ s'.pageFreeQueue) ∧
      ∀ r ∈ calls, (Unrepresented s' r).encard ≤ 1 := by
  refine (insertRanges_counted hdisj).mono fun s' hc => ⟨⟨hc.nodup, ?_⟩, ?_, ?_, ?_⟩
  · intro page hp page' hp' ha
    exact Inserted.eq_of_pageAddress hc.desc.disjoint ((hc.desc.queues page).mp hp)
      ((hc.desc.queues page').mp hp') ha
  · exact fun page hq => hc.exists_range hq
  · exact ⟨_, hc.desc.tree, fun ptp hptp => hc.held hc.desc.tree hptp⟩
  · intro r hr
    refine Set.encard_le_one_iff.mpr fun f g hf hg => ?_
    have := hc.unrepresented_eq hr hf
    have := hc.unrepresented_eq hr hg
    omega

/-- Two adjacent ranges, the second with a page that is left out. -/
theorem page_insert_sound_adjacent :
    Ensures (insertRanges [⟨16, 2, by decide⟩, ⟨18, 341, by decide⟩] (pageInit blankPages))
      fun s' => Set.InjOn pageAddress {page | Queued s' page} ∧
        (Unrepresented s' ⟨18, 341, by decide⟩).encard ≤ 1 := by
  refine (page_insert_sound blankPages _ ?_).mono fun s' h => ⟨h.1.2, h.2.2.2 _ (by simp)⟩
  simp only [pairwise_cons, mem_singleton, forall_eq, PageRange.Contains]
  exact ⟨fun f _ => by omega, by simp⟩

end Glatt
