import Glatt.Vm.PageTree

/-!
# Reference counts

What the operations on references do to the queues and the counts. `Counted p N others` says that
every inserted page is in the queue that its count calls for, and that its count is one for a page
tree page that lies in it, plus what `others` counts: the references of the callers.

## Main definitions

* `Counted`: queues and counts agree

## Main results

* `Counted.hold`, `Counted.drop`: taking and dropping a reference
* `Counted.alloc`: allocation takes a page without references
* `Counted.length_free_le`: how many pages are free after a step
* `Counted.insert`: inserted pages come without references, but those with page tree pages
-/

namespace Glatt

open Imperative

def nodeRefs (N : List TreePage) (page : UInt64) : ℕ := N.countP fun n => entryOf n.first 0 = page

def bump (refs : UInt64 → ℕ) (page : UInt64) : UInt64 → ℕ :=
  fun q => refs q + if q = page then 1 else 0

/-- **The queues agree with the counts, and the counts with the references.** -/
structure Counted (p : PageState) (N : List TreePage) (others : UInt64 → ℕ) : Prop where
  desc : Described p N
  nodup : (p.pageFreeQueue ++ p.pageUseQueue).Nodup
  free_iff : ∀ page, Inserted N page → (page ∈ p.pageFreeQueue ↔ p.pgRefcnt page = 0)
  count : ∀ page, Inserted N page → (p.pgRefcnt page).toNat = nodeRefs N page + others page

variable {p : PageState} {N : List TreePage} {others : UInt64 → ℕ} {page : UInt64} {p' : PageState}

section

variable (h : Counted p N others)
include h

theorem Counted.mem_append : page ∈ p.pageFreeQueue ++ p.pageUseQueue ↔ Inserted N page := by
  rw [List.mem_append]
  exact h.desc.queues page

theorem Counted.mem_use (hi : Inserted N page) : page ∈ p.pageUseQueue ↔ p.pgRefcnt page ≠ 0 := by
  rw [← not_iff_not, not_not, ← h.free_iff page hi]
  constructor
  · exact ((h.desc.queues page).mpr hi).resolve_right
  · exact fun hf hu => List.disjoint_of_nodup_append h.nodup hf hu

theorem Counted.of_mem_free (hq : page ∈ p.pageFreeQueue) :
    Inserted N page ∧ nodeRefs N page + others page = 0 := by
  have hi : Inserted N page := h.mem_append.mp (List.mem_append_left _ hq)
  refine ⟨hi, ?_⟩
  rw [← h.count page hi, (h.free_iff page hi).mp hq]
  rfl

theorem Counted.length_free_le {others' : UInt64 → ℕ} (h' : Counted p' N others')
    {D : List UInt64} (hD : ∀ q ∈ p.pageFreeQueue, others' q = 0 ∨ q ∈ D) :
    p.pageFreeQueue.length ≤ p'.pageFreeQueue.length + D.length := by
  have hs : p.pageFreeQueue ⊆ p'.pageFreeQueue ++ D := by
    intro q hq
    obtain ⟨hi, hr⟩ := h.of_mem_free hq
    rcases hD q hq with hz | hD
    · refine List.mem_append_left _ ((h'.free_iff q hi).mpr (UInt32.toNat_inj.mp ?_))
      rw [h'.count q hi, UInt32.toNat_zero]
      omega
    · exact List.mem_append_right _ hD
  have hle := (List.subperm_of_subset (List.nodup_append.mp h.nodup).1 hs).length_le
  rwa [List.length_append] at hle

end

theorem Counted.recount (h : Counted p N others) {others' : UInt64 → ℕ}
    (ht : p'.pageTree = p.pageTree)
    (hq : (p'.pageFreeQueue ++ p'.pageUseQueue).Perm (p.pageFreeQueue ++ p.pageUseQueue))
    (hs : (page ∈ p'.pageFreeQueue ↔ p'.pgRefcnt page = 0) ∧
      (p'.pgRefcnt page).toNat = nodeRefs N page + others' page)
    (ho : ∀ q ≠ page, (q ∈ p'.pageFreeQueue ↔ q ∈ p.pageFreeQueue) ∧
      p'.pgRefcnt q = p.pgRefcnt q ∧ others' q = others q) : Counted p' N others' := by
  refine ⟨⟨ht ▸ h.desc.tree, fun q => ?_, h.desc.disjoint⟩, hq.nodup_iff.mpr h.nodup,
    fun q hq => ?_, fun q hq => ?_⟩
  · rw [← List.mem_append, hq.mem_iff, List.mem_append]
    exact h.desc.queues q
  · by_cases hqp : q = page
    · exact hqp ▸ hs.1
    · rw [(ho q hqp).1, (ho q hqp).2.1, h.free_iff q hq]
  · by_cases hqp : q = page
    · exact hqp ▸ hs.2
    · rw [(ho q hqp).2.1, (ho q hqp).2.2, h.count q hq]

theorem bump_of_ne {q : UInt64} (hq : q ≠ page) : bump others page q = others q := by
  rw [bump, if_neg hq, Nat.add_zero]

theorem tailqRemove_of_mem {q : List UInt64} (h : page ∈ q) :
    tailqRemove page q = .ok (q.erase page) := if_pos h

theorem toNat_add_one {n : UInt32} (h : n.toNat + 1 < 2 ^ 32) : (n + 1).toNat = n.toNat + 1 := by
  rw [UInt32.toNat_add]
  exact Nat.mod_eq_of_lt h

theorem toNat_sub_one {n : UInt32} (h : n ≠ 0) : (n - 1).toNat = n.toNat - 1 := by
  have : n.toNat ≠ 0 := fun h0 => h (UInt32.toNat_inj.mp h0)
  rw [UInt32.toNat_sub_of_le]
  · rfl
  · rw [UInt32.le_iff_toNat_le]
    exact Nat.one_le_iff_ne_zero.mpr this

theorem Counted.hold (h : Counted p N others) (hi : Inserted N page)
    (hc : (p.pgRefcnt page).toNat + 1 < 2 ^ 32) :
    Ensures (pageRefHold page p) fun p' => Counted p' N (bump others page) ∧ p'.phys = p.phys := by
  have hnew := toNat_add_one hc
  have hne : p.pgRefcnt page + 1 ≠ 0 := by
    intro h0
    rw [h0] at hnew
    simp at hnew
  -- in either case the count goes up by one, and the queues hold the same pages
  rw [h.count page hi, Nat.add_assoc] at hnew
  rw [pageRefHold]
  by_cases h0 : p.pgRefcnt page = 0
  · have hf := (h.free_iff page hi).mpr h0
    have hp : (p.pageFreeQueue.erase page ++ (p.pageUseQueue ++ [page])).Perm
        (p.pageFreeQueue ++ p.pageUseQueue) := by
      rw [← List.append_assoc]
      exact (List.perm_append_singleton _ _).trans
        ((List.perm_cons_erase hf).symm.append_right p.pageUseQueue)
    have hn := (List.nodup_append.mp h.nodup).1
    rw [if_pos h0, tailqRemove_of_mem hf]
    refine .ret ⟨h.recount rfl hp ⟨?_, by simpa [bump] using hnew⟩ fun q hq =>
      ⟨List.mem_erase_of_ne hq, by simp [hq], bump_of_ne hq⟩, rfl⟩
    simp [hne, hn.not_mem_erase]
  · rw [if_neg h0]
    refine .ret ⟨h.recount rfl (.refl _) ⟨?_, by simpa [bump] using hnew⟩ fun q hq =>
      ⟨Iff.rfl, by simp [hq], bump_of_ne hq⟩, rfl⟩
    simp [hne, h.free_iff page hi, h0]

theorem Counted.drop (h : Counted p N (bump others page)) (hi : Inserted N page) :
    Ensures (pageRefDrop page p) fun p' => Counted p' N others ∧ p'.phys = p.phys := by
  have hc := h.count page hi
  rw [bump, if_pos rfl] at hc
  have hpos : p.pgRefcnt page ≠ 0 := by
    intro h0
    rw [h0] at hc
    simp at hc
  have hn : (p.pgRefcnt page - 1).toNat = nodeRefs N page + others page := by
    rw [toNat_sub_one hpos, hc]
    rfl
  have hu := (h.mem_use hi).mpr hpos
  have hnot : page ∉ p.pageFreeQueue := fun hf => hpos ((h.free_iff page hi).mp hf)
  rw [pageRefDrop]
  simp only [setRefcnt_pgRefcnt, if_pos, setRefcnt_pageUseQueue]
  by_cases h0 : p.pgRefcnt page - 1 = 0
  · have hp : ((p.pageFreeQueue ++ [page]) ++ p.pageUseQueue.erase page).Perm
        (p.pageFreeQueue ++ p.pageUseQueue) := by
      rw [List.append_assoc]
      exact (List.perm_cons_erase hu).symm.append_left p.pageFreeQueue
    rw [if_pos h0, tailqRemove_of_mem hu]
    exact .ret ⟨h.recount rfl hp ⟨by simp [h0], by simpa using hn⟩ fun q hq =>
      ⟨by simp [hq], by simp [hq], (bump_of_ne hq).symm⟩, rfl⟩
  · rw [if_neg h0]
    exact .ret ⟨h.recount rfl (.refl _) ⟨by simp [h0, hnot], by simpa using hn⟩
      fun q hq => ⟨Iff.rfl, by simp [hq], (bump_of_ne hq).symm⟩, rfl⟩

theorem Counted.zero (h : Counted p N others) : Counted (pmapZero page p) N others :=
  ⟨⟨h.desc.tree, h.desc.queues, h.desc.disjoint⟩, h.nodup, h.free_iff, h.count⟩

theorem Counted.alloc (h : Counted p N others) (flags : UInt32) :
    Ensures (pageAlloc flags p) fun r => (r = (p, .error .exhausted) ∧ p.pageFreeQueue = []) ∨
      ∃ page, r.2 = .ok page ∧ p.pageFreeQueue.head? = some page ∧ Inserted N page ∧
        nodeRefs N page + others page = 0 ∧ Counted r.1 N (bump others page) := by
  unfold pageAlloc
  split
  · exact .ret (.inl ⟨rfl, ‹_›⟩)
  · rename_i page rest hq
    have hf : page ∈ p.pageFreeQueue := by simp [hq]
    have hi : Inserted N page := h.mem_append.mp (List.mem_append_left _ hf)
    have h0 := (h.free_iff page hi).mp hf
    have hr := h.count page hi
    rw [h0] at hr
    refine (h.hold hi (by rw [h0]; decide)).bind fun p' hp' => ?_
    split
    · exact .ret (.inr ⟨page, rfl, by simp [hq], hi, hr.symm, hp'.1.zero⟩)
    · exact .ret (.inr ⟨page, rfl, by simp [hq], hi, hr.symm, hp'.1⟩)

/-! ## Insertion -/

theorem nodeRefs_append (M : List TreePage) :
    nodeRefs (M ++ N) page = nodeRefs M page + nodeRefs N page := List.countP_append

theorem nodeRefs_singleton (n : TreePage) :
    nodeRefs [n] page = if entryOf n.first 0 = page then 1 else 0 := by
  rw [nodeRefs]
  simp

theorem nodeRefs_eq_zero (h : ¬ Inserted N page) : nodeRefs N page = 0 := by
  rw [nodeRefs, List.countP_eq_zero]
  intro n hn he
  refine h ⟨n, hn, ?_⟩
  rw [← of_decide_eq_true he, n.entries_eq]
  exact List.mem_cons_self

theorem nodeRefs_le_one (hd : N.Pairwise fun m n => ∀ f, m.Links f → ¬ n.Links f) (page : UInt64) :
    nodeRefs N page ≤ 1 := by
  have hn : (N.map fun n => entryOf n.first 0).Nodup := by
    refine List.pairwise_map.mpr (hd.imp fun {m n} hm heq => ?_)
    have hf := (entryOf_inj m.first_lt n.first_lt (by decide) (by decide) heq).1
    exact hm m.first ⟨le_rfl, by have := m.pos; omega⟩ ⟨hf.ge, by have := n.pos; omega⟩
  have hc := List.nodup_iff_count_le_one.mp hn page
  rw [List.count, List.countP_map] at hc
  refine le_of_eq_of_le (List.countP_congr fun n _ => ?_) hc
  simp

theorem Counted.insertedPage {n : TreePage} (h : Counted p N others)
    (hins : InsertedPage p p' n) (hd : Described p' (N ++ [n]))
    (hz : ∀ page ∈ n.entries, others page = 0) : Counted p' (N ++ [n]) others := by
  have hf : ∀ page ∈ n.entries, ¬ Inserted N page := by
    intro page hp hi
    have := hins.fresh page hp
    exact ((h.desc.queues page).mpr hi).elim this.1 this.2
  have hfr := (List.nodup_cons.mp (n.entries_eq ▸ n.nodup_entries)).1
  have htl : n.entries.tail = (List.range' 1 (n.count - 1)).map (entryOf n.first) := by
    rw [n.entries_eq, List.tail_cons]
  have hc : n.entries = entryOf n.first 0 :: n.entries.tail := by
    rw [htl, ← n.entries_eq]
  rw [← htl] at hfr
  -- the counts of the old pages stay, and those of the new ones are set
  have hcs : ∀ page, Inserted (N ++ [n]) page →
      (Inserted N page ∧ page ∉ n.entries) ∨ (page ∈ n.entries ∧ ¬ Inserted N page) := by
    rintro page ⟨m, hm, hmem⟩
    rcases List.mem_append.mp hm with hm | hm
    · exact .inl ⟨⟨m, hm, hmem⟩, fun hn => hf page hn ⟨m, hm, hmem⟩⟩
    · cases List.mem_singleton.mp hm
      exact .inr ⟨hmem, hf page hmem⟩
  refine ⟨hd, ?_, ?_, ?_⟩
  · rw [hins.free, hins.use]
    have hpr : (p.pageFreeQueue ++ n.entries.tail ++ (p.pageUseQueue ++ [entryOf n.first 0])).Perm
        ((p.pageFreeQueue ++ p.pageUseQueue) ++ n.entries) := by
      rw [hc, List.tail_cons, List.append_assoc, List.append_assoc,
        ← List.append_assoc n.entries.tail]
      refine List.Perm.append_left _ ?_
      exact (List.perm_append_singleton _ _).trans ((List.perm_append_comm.cons _).trans
        List.perm_middle.symm)
    rw [hpr.nodup_iff]
    refine List.nodup_append.mpr ⟨h.nodup, n.nodup_entries, ?_⟩
    rintro page hq _ hn rfl
    exact hf page hn (h.mem_append.mp hq)
  · intro page hi
    rw [hins.free, hins.refcnt]
    rcases hcs page hi with ⟨hold, hnot⟩ | ⟨hnew, hnot⟩
    · have hne : page ≠ entryOf n.first 0 := by
        rintro rfl
        exact hnot (hc ▸ List.mem_cons_self)
      have : page ∉ n.entries.tail := fun ht => hnot (List.mem_of_mem_tail ht)
      simp [hne, hnot, this, h.free_iff page hold]
    · have hq := (hins.fresh page hnew).1
      by_cases he : page = entryOf n.first 0
      · simp [he, hfr]
        exact he ▸ hq
      · have : page ∈ n.entries.tail := by
          rw [hc] at hnew
          exact (List.mem_cons.mp hnew).resolve_left he
        simp [he, hnew, this]
  · intro page hi
    rw [hins.refcnt, nodeRefs_append, nodeRefs_singleton]
    rcases hcs page hi with ⟨hold, hnot⟩ | ⟨hnew, hnot⟩
    · have hne : page ≠ entryOf n.first 0 := by
        rintro rfl
        exact hnot (hc ▸ List.mem_cons_self)
      rw [if_neg hne, if_neg hnot, if_neg hne.symm, h.count page hold]
      omega
    · rw [nodeRefs_eq_zero hnot, hz page hnew]
      by_cases he : page = entryOf n.first 0
      · simp [he]
      · simp [he, hnew, Ne.symm he]

theorem Counted.insert (h : Counted p N others) (r : PageRange)
    (hnew : ∀ m ∈ N, ∀ f, m.Links f → ¬ (r.first ≤ f ∧ f < r.first + r.pages))
    (hz : ∀ n ∈ r.treePages, ∀ page ∈ n.entries, others page = 0) :
    Ensures (r.insert p) fun p' => Counted p' (N ++ r.treePages) others := by
  refine (pageInsertPages_induction (P := fun M p => Counted p M others) h.desc r hnew h ?_).mono
    fun p' hp' => hp'.2
  intro M n p₁ p₂ hn hp₁ hins hd
  exact hp₁.insertedPage hins hd (hz n hn)

end Glatt
