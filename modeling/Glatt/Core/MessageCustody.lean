import Glatt.Core.MessageFailure
import Glatt.Core.SyscallReturns

/-!
# Who has the page of a message

`ipc_port_send` takes the page out of the address space of the sender before it knows whether the
message can be sent, and releases it if not. So the sender never has the page afterwards: a queue
has it, or it is free. The page is the one that `page_lookup` finds for the address. Where that is
the entry of another page tree page, the references are dropped there, and the page itself is lost.

## Main definitions

* `SinglyMapped`: a page with one mapping and the references of an allocation
* `Consumed`: the page is in a queue or free, and no longer the sender's

## Main results

* `send_consumes_iff`: a send consumes the page if and only if it finds it
* `send_leaks_page`: a send that does not
-/

namespace Glatt

open Imperative Transition List

/-! ## The entry that is found -/

section Lookup

variable {p : PageState} {N : List TreePage} {page q : UInt64}

/-- **The entry of the page comes first**: of the page tree pages that span the page, the one that
was inserted first has the entry that was linked for it. -/
def LinkedFirst (N : List TreePage) (page : UInt64) : Prop :=
  ∀ n, N.find? (fun n => n.Spans ((pageAddress page).toNat / 8192)) = some n → page ∈ n.entries

theorem pageLookup_linked (hd : Described p N) (hi : Inserted N page) :
    ∃ q, pageLookup (pageAddress page) p = .ok (.ok q) ∧ (q = page ↔ LinkedFirst N page) := by
  obtain ⟨f, hf, ha⟩ := hi.frame
  obtain ⟨n, hn, hl, hp⟩ := (inserted_iff hf).mp ⟨hi, ha⟩
  have hfr : (pageAddress page).toNat / 8192 = f := by
    rw [ha, toNat_frameAddr (by rw [frameEnd] at hf; omega)]
    omega
  rw [LinkedFirst, hfr, ha, pageLookup_eq hd hf]
  cases hfn : N.find? fun n => n.Spans f with
  | none =>
    -- the page tree page of the entry spans the page
    exact absurd hl.spans (by simpa using find?_eq_none.mp hfn n hn)
  | some m =>
    have hm : m ∈ N := mem_of_find?_eq_some hfn
    have hs : m.Spans f := by simpa using find?_some hfn
    refine ⟨_, rfl, fun hq k hk => ?_, fun hfs => ?_⟩
    · obtain rfl := Option.some.inj hk
      obtain rfl := eq_of_entryOf hd.disjoint hm hn hs hl.spans (hq.trans hp)
      have := hl.1
      have := hl.2
      exact TreePage.mem_entries.mpr ⟨f - m.first, by omega, hp⟩
    · obtain ⟨k, hk, -, he⟩ := (inserted_iff hf).mp ⟨⟨m, mem_singleton_self m, hfs m rfl⟩, ha⟩
      obtain rfl := mem_singleton.mp hk
      exact he.symm

theorem pageRefDrop_two (h : p.pgRefcnt page = 2) :
    pageRefDrop page p = .ok (p.setRefcnt page 1) := by
  rw [pageRefDrop, setRefcnt_pgRefcnt, if_pos rfl, h]
  rfl

theorem pageRefDrop_last (h : p.pgRefcnt page = 1) (hu : page ∈ p.pageUseQueue) :
    Ensures (pageRefDrop page p) fun p' => page ∈ p'.pageFreeQueue := by
  rw [pageRefDrop, setRefcnt_pgRefcnt, if_pos rfl, h, setRefcnt_pageUseQueue, tailqRemove_of_mem hu]
  exact .ret (mem_append_right _ (mem_singleton_self page))

theorem pageRefDrop_others (hne : page ≠ q) :
    Yields (pageRefDrop q p) fun p' => p'.pgRefcnt page = p.pgRefcnt page ∧
      (page ∈ p'.pageFreeQueue ↔ page ∈ p.pageFreeQueue) := by
  have hc : (p.setRefcnt q (p.pgRefcnt q - 1)).pgRefcnt page = p.pgRefcnt page := by
    rw [setRefcnt_pgRefcnt, if_neg hne]
  rw [pageRefDrop]
  split
  · refine yields_bind_of_forall fun _ => ?_
    refine .ret ⟨hc, ?_⟩
    rw [mem_append, mem_singleton, or_iff_left hne]
    exact Iff.rfl
  · exact .ret ⟨hc, Iff.rfl⟩

end Lookup

/-! ## Sending -/

section Sending

variable {ν ι τ : Type} [DecidableEq ν] [DecidableEq ι] [LinearOrder τ] {kernelVm u : ν}
  {N : List TreePage} {vpage page q : UInt64} {current : τ} {mem : Bool} {ipch : IpcHeader}

/-- **Counts and addresses agree**: the queues of pages agree with the counts, and the indices of
every address space tile addresses that its page table can map. -/
structure SendSound (N : List TreePage) (s : VmState ν ι) : Prop where
  counted : ∃ others, Counted s.mem.pages N others
  spaces : ∀ u, ∃ a b, 8192 ∣ a ∧ b < 2 ^ 64 ∧ IndexInv a b (s.index u) ∧
    ∀ w, PageAligned w → a ≤ w.toNat → w.toNat < b → ¬ (s.mem.pmap u).Outside w

/-- **The page is mapped singly** at the address: in the page table of a user, in an index in use,
or in the direct map for the kernel. It has a reference for the mapping, and one of its owner. -/
structure SinglyMapped (kernelVm : ν) (N : List TreePage) (u : ν) (vpage page : UInt64)
    (s : VmState ν ι) : Prop where
  inserted : Inserted N page
  nonnull : vpage ≠ 0
  refs : s.mem.pages.pgRefcnt page = 2
  user : u ≠ kernelVm → MappedAt s.mem u vpage ∧ InUseAt (s.index u) vpage ∧
    pmapExtract kernelVm u vpage s.mem = .ok (pageAddress page)
  kernel : u = kernelVm → vpage = pmapMapDirect (pageAddress page)

/-- **Nothing is left at the address**: no page table entry, no index in use, and for a user a free
address. -/
structure PageGone (kernelVm u : ν) (vpage : UInt64) (s : VmState ν ι) : Prop where
  unmapped : ¬ MappedAt s.mem u vpage
  unused : ¬ InUseAt (s.index u) vpage
  free : u ≠ kernelVm → FreeAt (s.index u) vpage

/-- **The page has been consumed**: nothing is left at the address; if the message has been sent,
its page has the one reference of the message, and if not, the page is free. -/
structure Consumed (kernelVm u : ν) (vpage page : UInt64) (current : τ) (ipch : IpcHeader)
    (s : System ν ι τ) (r : System ν ι τ × Except Errno Unit) : Prop where
  gone : PageGone kernelVm u vpage r.1.vm
  sent : r.2 = .ok () → SentOne current ⟨ipch, some page⟩ s.ipc r.1.ipc ∧
    r.1.vm.mem.pages.pgRefcnt page = 1
  failed : ∀ e, r.2 = .error e → r.1.ipc = s.ipc ∧ page ∈ r.1.vm.mem.pages.pageFreeQueue

omit [DecidableEq ι] in
theorem VmOwned.sendSound {s : VmState ν ι} {l : Ledger ν} {held : UInt64 → ℕ}
    (h : VmOwned kernelVm s l held) : SendSound l.treePages s :=
  ⟨⟨_, h.pages.counted.counted⟩, h.spaces⟩

omit [DecidableEq ι] in
theorem VmOwned.linkedFirst {s : VmState ν ι} {l : Ledger ν} {held : UInt64 → ℕ}
    (h : VmOwned kernelVm s l held) (hi : Inserted l.treePages page) :
    LinkedFirst l.treePages page := by
  obtain ⟨q, hl, hiff⟩ := pageLookup_linked h.pages.counted.counted.desc hi
  rw [pageLookup_inserted h.pages.counted.counted.desc h.pages.spans hi] at hl
  exact hiff.mp (Except.ok.inj (Except.ok.inj hl)).symm

section Memory

variable {s : VmState ν ι}

omit [DecidableEq ι] in
theorem SinglyMapped.pmapExtract (hm : SinglyMapped kernelVm N u vpage page s) :
    pmapExtract kernelVm u vpage s.mem = .ok (pageAddress page) := by
  by_cases hu : u = kernelVm
  · obtain ⟨f, hf, ha⟩ := hm.inserted.frame
    rw [hm.kernel hu, hu, ha]
    exact pmapExtract_direct hf
  · exact (hm.user hu).2.2

omit [DecidableEq ν] [DecidableEq ι] in
theorem SendSound.pageGone_direct (hs : SendSound N s) (hi : Inserted N page)
    (hu : u = kernelVm) : PageGone kernelVm u (pmapMapDirect (pageAddress page)) s := by
  obtain ⟨f, hf, had⟩ := hi.frame
  obtain ⟨ha, hd⟩ := pmapMapDirect_frame hf
  rw [had]
  refine ⟨fun hm => ?_, fun hus => ?_, fun hne => absurd hu hne⟩
  · exact Pmap.not_direct (pmapFind_inside (pmapFind_of_pteValid hm.2)) hd
  · obtain ⟨a, b, -, hb, hinv, hin⟩ := hs.spaces u
    obtain ⟨hl, hh⟩ := hinv.bounds_of_inUse hb hus
    exact Pmap.not_direct (hin _ ha hl hh) hd

theorem ipcTakePage_found (hs : SendSound N s) (hm : SinglyMapped kernelVm N u vpage page s)
    (hq : pageExtract kernelVm u vpage s.mem = .ok (.ok q)) :
    Guarded (∃ p, pageRefDrop q s.mem.pages = .ok p) (ipcTakePage kernelVm u vpage s) fun r =>
      r.2 = .ok q ∧ PageGone kernelVm u vpage r.1 ∧
        pageRefDrop q s.mem.pages = .ok r.1.mem.pages := by
  have hd : Guarded (∃ p, pageRefDrop q s.mem.pages = .ok p) (pageRefDrop q s.mem.pages)
      fun p => pageRefDrop q s.mem.pages = .ok p := ⟨fun _ hp => hp, id⟩
  rw [ipcTakePage, hq, ok_bind]
  dsimp only
  by_cases hu : u = kernelVm
  · rw [if_pos hu]
    -- the kernel sends from the direct map: only the reference of the address goes
    refine (onMem_guarded (onPages_guarded hd)).bind ?_
    rintro ⟨mem, index⟩ ⟨⟨hpg, hpm, -⟩, rfl⟩
    have hg := hs.pageGone_direct hm.inserted hu
    rw [← hm.kernel hu] at hg
    refine guarded_pure ⟨rfl, ⟨?_, hg.unused, hg.free⟩, hpg⟩
    rw [MappedAt, hpm]
    exact hg.unmapped
  · obtain ⟨hmp, hus, -⟩ := hm.user hu
    obtain ⟨a, b, -, hb, hinv, -⟩ := hs.spaces u
    rw [if_neg hu]
    have hum : Guarded (∃ p, pageRefDrop q s.mem.pages = .ok p)
        (orPanic (pageUnmap u vpage q s.mem)) fun mem =>
          pageRefDrop q s.mem.pages = .ok mem.pages ∧ PteSet s.mem mem u vpage 0 := by
      refine guarded_orPanic ((pageUnmap_mapped hmp.1 hmp.2 hd).mono ?_)
      rintro r ⟨hr, hpg, -, hset⟩
      exact ⟨fun _ => ⟨hpg, hset⟩, fun _ => hr⟩
    refine (onMem_guarded hum).bind ?_
    rintro ⟨mem, index⟩ ⟨⟨hpg, hset⟩, rfl⟩
    -- the index at the address is in use
    have hgi : Ensures (orPanic (vmFreeAddress vpage (s.index u))) fun index =>
        IndexInv a b index ∧ ¬ InUseAt index vpage := by
      refine ensures_orPanic ((hinv.freeAddress_given hb hus).mono ?_)
      rintro r ⟨hinv', ho, hgv⟩
      refine ⟨ho, hinv', fun ha => ((hgv vpage).mp ha).2 ?_⟩
      obtain ⟨T, x, hT, hx, -, hc⟩ := hus
      exact ⟨T, x, hT, hx, hc, hc⟩
    rw [vmReleaseAddress, bind_assoc]
    refine hgi.guarded.bind ?_
    rintro index ⟨hinv', hun⟩
    refine guarded_pure ⟨rfl, ⟨?_, ?_, fun _ => ?_⟩, hpg⟩
    · rintro ⟨hv, hvl⟩
      change pteValid ((mem.pmap u).pte vpage) at hvl
      rw [hset.pte u vpage hv, if_pos ⟨rfl, rfl⟩] at hvl
      exact not_pteValid_zero hvl
    · rw [VmState.setIndex_self]
      exact hun
    · rw [VmState.setIndex_self]
      exact (hinv'.freeAt_iff hb).mpr ⟨hinv.bounds_of_inUse hb hus, hun⟩

end Memory

variable {s : System ν ι τ}

omit [DecidableEq ν] [DecidableEq ι] in
theorem ipcSendTaken_found {P : VmState ν ι → Prop} (mem : Bool) (current : τ) (ipch : IpcHeader)
    (hP : ∀ s', s'.index = s.vm.index → s'.mem.pmap = s.vm.mem.pmap → P s') :
    Guarded (mem = true ∧ ∃ p, pageRefDrop q s.vm.mem.pages = .ok p)
      (ipcSendTaken mem current ipch (some q) s) fun r => P r.1.vm ∧
        (r.2 = .ok () ∧ SentOne current ⟨ipch, some q⟩ s.ipc r.1.ipc ∧
            r.1.vm.mem.pages = s.vm.mem.pages ∨
          (∃ e, r.2 = .error e) ∧ r.1.ipc = s.ipc ∧
            pageRefDrop q s.vm.mem.pages = .ok r.1.vm.mem.pages) := by
  have hs := ipcPortSendPage_sends mem current ipch (some q) s.ipc
  rw [ipcSendTaken]
  refine Guarded.bind ⟨hs.yields, fun hQ => hs.returns hQ.1⟩ ?_
  rintro ⟨ipc, r⟩ (⟨e, hr⟩ | ⟨ho, hsn⟩)
  · obtain ⟨rfl, rfl⟩ := Prod.mk.inj hr
    -- the message is refused: `page_release` drops the reference that it would have kept
    have hd : Guarded (mem = true ∧ ∃ p, pageRefDrop q s.vm.mem.pages = .ok p)
        (pageRelease q s.vm.mem.pages) fun p => pageRefDrop q s.vm.mem.pages = .ok p :=
      ⟨fun _ hp => hp, And.right⟩
    refine (onMem_guarded (onPages_guarded hd)).bind ?_
    rintro vm ⟨⟨hpg, hpm, -⟩, hin⟩
    exact guarded_pure ⟨hP vm hin hpm, .inr ⟨⟨e, rfl⟩, rfl, hpg⟩⟩
  · subst ho
    exact guarded_pure ⟨hP _ rfl rfl, .inl ⟨rfl, hsn, rfl⟩⟩

theorem ipcPortSend_found (hs : SendSound N s.vm) (hm : SinglyMapped kernelVm N u vpage page s.vm)
    (hq : pageExtract kernelVm u vpage s.vm.mem = .ok (.ok q)) (mem : Bool) (current : τ)
    (ipch : IpcHeader) :
    Guarded (mem = true ∧ ∃ p₁ p₂, pageRefDrop q s.vm.mem.pages = .ok p₁ ∧
        pageRefDrop q p₁ = .ok p₂) (ipcPortSend kernelVm mem current u ipch vpage s) fun r =>
      PageGone kernelVm u vpage r.1.vm ∧ ∃ p₁, pageRefDrop q s.vm.mem.pages = .ok p₁ ∧
        (r.2 = .ok () ∧ SentOne current ⟨ipch, some q⟩ s.ipc r.1.ipc ∧ r.1.vm.mem.pages = p₁ ∨
          (∃ e, r.2 = .error e) ∧ r.1.ipc = s.ipc ∧ pageRefDrop q p₁ = .ok r.1.vm.mem.pages) := by
  have ht := ipcTakePage_found hs hm hq
  rw [ipcPortSend, if_neg hm.nonnull]
  refine Guarded.bind ⟨ht.yields, ?_⟩ ?_
  · rintro ⟨-, p₁, -, hp₁, -⟩
    exact ht.returns ⟨p₁, hp₁⟩
  rintro ⟨vm, r⟩ ⟨hr, hg, hd⟩
  subst hr
  have hl := ipcSendTaken_found (q := q) (s := { s with vm }) (P := PageGone kernelVm u vpage)
    mem current ipch fun s' hin hpm => by
      refine ⟨?_, ?_, ?_⟩
      · rw [MappedAt, hpm]
        exact hg.unmapped
      · rw [hin]
        exact hg.unused
      · rw [hin]
        exact hg.free
  refine Guarded.mono ⟨hl.yields, ?_⟩ fun r hr => ⟨hr.1, _, hd, hr.2⟩
  rintro ⟨hmem, p₁, p₂, hp₁, hp₂⟩
  obtain rfl := Except.ok.inj (hd.symm.trans hp₁)
  exact hl.returns ⟨hmem, p₂, hp₂⟩

theorem consumed_of_found (hs : SendSound N s.vm) (hm : SinglyMapped kernelVm N u vpage page s.vm)
    (hq : pageExtract kernelVm u vpage s.vm.mem = .ok (.ok page)) :
    Guarded (mem = true) (ipcPortSend kernelVm mem current u ipch vpage s)
      (Consumed kernelVm u vpage page current ipch s) := by
  obtain ⟨others, hc⟩ := hs.counted
  -- of the two references the first drop takes the mapping's, a second one would free the page
  have hf := pageRefDrop_two hm.refs
  have ho : (s.vm.mem.pages.setRefcnt page 1).pgRefcnt page = 1 := by
    rw [setRefcnt_pgRefcnt, if_pos rfl]
  have hu : page ∈ s.vm.mem.pages.pageUseQueue := by
    rw [hc.mem_use hm.inserted, hm.refs]
    decide
  obtain ⟨p₂, hl, hfr⟩ := pageRefDrop_last ho hu
  have hsn := ipcPortSend_found hs hm hq mem current ipch
  refine Guarded.mono ⟨hsn.yields, fun hmem => hsn.returns ⟨hmem, _, p₂, hf, hl⟩⟩ ?_
  rintro ⟨s', r⟩ ⟨hg, p₁, hp₁, hcs⟩
  obtain rfl := Except.ok.inj (hf.symm.trans hp₁)
  rcases hcs with ⟨hok, hst, hpg⟩ | ⟨⟨e, he⟩, hipc, hd⟩
  · refine ⟨hg, fun _ => ⟨hst, ?_⟩, fun e he => ?_⟩
    · rw [hpg]
      exact ho
    · rw [hok] at he
      cases he
  · obtain rfl := Except.ok.inj (hl.symm.trans hd)
    refine ⟨hg, fun hok => ?_, fun _ _ => ⟨hipc, hfr⟩⟩
    rw [he] at hok
    cases hok

theorem not_consumed_of_other (hs : SendSound N s.vm)
    (hm : SinglyMapped kernelVm N u vpage page s.vm)
    (hq : pageExtract kernelVm u vpage s.vm.mem = .ok (.ok q)) (hne : page ≠ q) :
    ¬ Ensures (ipcPortSend kernelVm true current u ipch vpage s)
      (Consumed kernelVm u vpage page current ipch s) := by
  obtain ⟨others, hc⟩ := hs.counted
  have hh : page ∉ s.vm.mem.pages.pageFreeQueue := by
    rw [hc.free_iff page hm.inserted, hm.refs]
    decide
  rintro ⟨⟨s', r⟩, hrun, hcn⟩
  obtain ⟨-, p₁, hp₁, hcs⟩ := (ipcPortSend_found hs hm hq true current ipch).yields _ hrun
  -- neither drop reaches the entry of the page, so its count and its queue are the old ones
  obtain ⟨hct₁, hf₁⟩ := pageRefDrop_others hne p₁ hp₁
  rcases hcs with ⟨hok, -, hpg⟩ | ⟨⟨e, he⟩, -, hd⟩
  · obtain ⟨-, ho⟩ := hcn.sent hok
    rw [hpg, hct₁, hm.refs] at ho
    exact absurd ho (by decide)
  · obtain ⟨-, hf⟩ := hcn.failed e he
    obtain ⟨-, hf₂⟩ := pageRefDrop_others hne _ hd
    exact hh (hf₁.mp (hf₂.mp hf))

/-- **A send consumes the page if and only if it finds it**: where page and address are mapped
singly, `ipc_port_send` leaves nothing at the address, the page with the message or free, exactly if
the entry of the page comes first. Where no page is found, nothing changes. -/
theorem send_consumes_iff (hs : SendSound N s.vm) :
    (∀ mem current u ipch vpage e, vpage ≠ 0 →
      pageExtract kernelVm u vpage s.vm.mem = .ok (.error e) →
      ipcPortSend kernelVm mem current u ipch vpage s = .ok (s, .error e)) ∧
    ∀ current u ipch vpage page, SinglyMapped kernelVm N u vpage page s.vm →
      ((∀ mem, Guarded (mem = true) (ipcPortSend kernelVm mem current u ipch vpage s)
        (Consumed kernelVm u vpage page current ipch s)) ↔ LinkedFirst N page) := by
  refine ⟨fun mem current u ipch vpage e hne he => ?_, fun current u ipch vpage page hm => ?_⟩
  · rw [ipcPortSend, if_neg hne, ipcTakePage, he]
    rfl
  · obtain ⟨others, hc⟩ := hs.counted
    obtain ⟨q, hl, hiff⟩ := pageLookup_linked hc.desc hm.inserted
    have hq : pageExtract kernelVm u vpage s.vm.mem = .ok (.ok q) := by
      rw [pageExtract, hm.pmapExtract]
      exact hl
    rw [← hiff]
    constructor
    · intro hcn
      by_contra hne
      exact not_consumed_of_other hs hm hq (symm hne) ((hcn true).ensures rfl)
    · rintro rfl mem
      exact consumed_of_found hs hm hq

end Sending

/-- A user sends its page, whatever the message. -/
theorem send_consumes_iff_user : ∃ (s : System ℕ ℕ ℕ) (page : UInt64),
    KernelStep 0 (fun _ => 1) bootSystem getPage s ∧
    ∀ ipch mem, Guarded (mem = true) (ipcPortSend 0 mem 7 1 ipch 8192 s)
      (Consumed 0 1 8192 page 7 ipch s) := by
  obtain ⟨s, page, hs, hmp, he, hr⟩ : ∃ (s : System ℕ ℕ ℕ) (page : UInt64),
      KernelStep 0 (fun _ => 1) bootSystem getPage s ∧ MappedAt s.vm.mem 1 8192 ∧
      pageExtract 0 1 8192 s.vm.mem = .ok (.ok page) ∧ s.vm.mem.pages.pgRefcnt page = 2 :=
    ⟨_, _, .syscall userCall_userEnv rfl, ⟨rfl, by decide⟩, rfl, by decide +kernel⟩
  obtain ⟨l, held, h, -⟩ := booted_bootSystem.pagesSound.step getPage_met hs
  -- the page that is found is the one that the ledger has
  obtain ⟨q, hm⟩ := h.mappedAt_iff.mp hmp
  rw [h.pages.pageExtract hm] at he
  obtain rfl : q = page := by simpa using he
  obtain ⟨-, hi, -⟩ := h.pages.mapped.entry 1 8192 q hm
  refine ⟨s, q, hs, fun ipch => ((send_consumes_iff h.sendSound).2 7 1 ipch 8192 q
    ⟨hi, by decide, hr, fun _ => ?_, fun hk => absurd hk Nat.one_ne_zero⟩).mpr
    (h.linkedFirst hi)⟩
  exact ⟨hmp, h.covered 1 8192 q hm, (h.pages.mapped.pmapExtract hm).2⟩

/-- **A page is lost on its way.** After `directRun` the kernel sends page 19 in a message that is
refused. Its entry keeps two references and is not free: those that have been dropped are of another
entry. -/
theorem send_leaks_page : ∃ (h : List (PageMachine ℕ × PageCall ℕ)) (m : PageMachine ℕ)
    (s s' : System ℕ ℕ ℕ), Run (PageStep 0) (PageMachine.boot 0 blankPages) h m ∧
    s = { bootSystem with vm := { bootSystem.vm with mem := m.mem } } ∧
    SinglyMapped 0 m.ledger.treePages 0 (pmapMapDirect (frameAddr 19)) (entryOf 18 1) s.vm ∧
    ipcPortSend 0 true 7 0 ⟨0, 0, 0, 0, 0, 0⟩ (pmapMapDirect (frameAddr 19)) s =
      .ok (s', .error .invalid) ∧
    s'.vm.mem.pages.pgRefcnt (entryOf 18 1) = 2 ∧
    entryOf 18 1 ∉ s'.vm.mem.pages.pageFreeQueue := by
  obtain ⟨h, m, s', hr, hrn, hrf, hs, hrf', hf'⟩ : ∃ h m s',
      Run (PageStep 0) (PageMachine.boot 0 blankPages) h m ∧
      m.ledger.ranges = [⟨16, 2, by decide⟩, ⟨18, 2, by decide⟩] ∧
      m.mem.pages.pgRefcnt (entryOf 18 1) = 2 ∧
      ipcPortSend 0 true 7 0 ⟨0, 0, 0, 0, 0, 0⟩ (pmapMapDirect (frameAddr 19))
        { bootSystem with vm := { bootSystem.vm with mem := m.mem } } =
        .ok (s', .error .invalid) ∧
      s'.vm.mem.pages.pgRefcnt (entryOf 18 1) = 2 ∧ s'.vm.mem.pages.pageFreeQueue = [] :=
    ⟨_, _, _, directRun.2, rfl, rfl, rfl, rfl, rfl⟩
  have ha : pageAddress (entryOf 18 1) = frameAddr 19 := pageAddress_entryOf (by decide) (by decide)
  refine ⟨h, m, _, s', hr, rfl, ⟨?_, by decide, hrf, fun hu => absurd rfl hu, fun _ => ?_⟩,
    hs, hrf', ?_⟩
  · rw [Ledger.treePages_pairs hrn]
    exact ⟨_, mem_cons_of_mem _ (mem_singleton_self _),
      TreePage.mem_entries.mpr ⟨1, by decide, rfl⟩⟩
  · rw [ha]
  · rw [hf']
    exact not_mem_nil

end Glatt
