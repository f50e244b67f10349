import Glatt.Core.SyscallReturns

/-!
# Memory of users

What a user can reach. A page of memory has one owner: the page tree, a page table, an address of a
user, or a message on its way. So whatever users make the kernel do, no two of them share a page,
none has a page of the kernel's or a free one, and a page that has been sent is out of the reach of
its sender and of everyone else until it is received.

## Main results

* `user_pages_isolated`: the pages of users, of page tables and of messages are distinct, in every
  state that users lead to
-/

namespace Glatt

open Imperative Transition List

variable {ν ι τ : Type} [DecidableEq ν] [LinearOrder τ] {kernelVm u u' : ν} {v v' page : UInt64}

section Owners

variable {s : VmState ν ι} {l : Ledger ν} {held : UInt64 → ℕ} (h : VmOwned kernelVm s l held)
include h

theorem VmOwned.owned_once (page : UInt64) :
    (userPages kernelVm l.maps).count page + held page ≤ 1 := by
  have ho := h.owned page
  by_cases hp : page ∈ l.allocs
  · have := (h.pages.pgRefcnt hp).1
    omega
  · rw [count_eq_zero_of_not_mem hp] at ho
    omega

theorem VmOwned.maps_inj (hu : u ≠ kernelVm) (hu' : u' ≠ kernelVm) (hm : (u, v, page) ∈ l.maps)
    (hm' : (u', v', page) ∈ l.maps) : u = u' ∧ v = v' := by
  by_contra hne
  have hin : page ∈ userPages kernelVm (l.maps.erase (u, v, page)) := by
    refine mem_userPages hu' ((mem_erase_of_ne fun heq => hne ?_).mpr hm')
    cases heq
    exact ⟨rfl, rfl⟩
  -- both mappings are counted
  have hc := (userPages_erase kernelVm hm).count_eq page
  rw [if_neg hu, count_cons_self] at hc
  have hpos := count_pos_iff.mpr hin
  have := h.owned_once page
  omega

theorem VmOwned.not_free (hp : page ∈ l.allocs) : page ∉ s.mem.pages.pageFreeQueue := by
  have hc := (h.pages.pgRefcnt hp).2
  rw [h.pages.counted.counted.free_iff page (h.pages.allocs page hp), ← UInt32.toNat_inj, hc]
  simp

theorem VmOwned.not_table (hp : page ∈ l.allocs) :
    pmapMapDirect (pageAddress page) ∉ s.mem.ptPages := by
  intro ht
  have hh := h.pages.counted.holders page (h.pages.allocs page hp)
  have hc : 0 < ptRefs s.mem page := count_pos_iff.mpr ht
  have := (h.pages.pgRefcnt hp).1
  dsimp only [Ledger.allocRefs] at hh
  omega

end Owners

theorem QueuedPages.count_eq {ipc : IpcState τ} {q : List (UInt32 × UInt64)} {port : UInt32}
    {m : IpcMessage} (hq : QueuedPages ipc q) (hm : m ∈ queueOf ipc port)
    (hp : m.ipcmsgPage = some page) (ho : heldBy q page ≤ 1) (port' : UInt32) :
    ((queueOf ipc port').filterMap IpcMessage.ipcmsgPage).count page =
      if port' = port then 1 else 0 := by
  have hpm := perm_cons_erase (hq.mem hm hp)
  -- the rest of the list has the page nowhere
  have hz : (port', page) ∉ q.erase (port, page) := by
    intro hin
    have hrest : page ∈ (q.erase (port, page)).map Prod.snd := mem_map.mpr ⟨_, hin, rfl⟩
    have hpos := count_pos_iff.mpr hrest
    have hc := (hpm.map Prod.snd).count_eq page
    rw [map_cons, count_cons_self] at hc
    rw [heldBy] at ho
    omega
  rw [← hq.count, hpm.count_eq, count_cons, count_eq_zero_of_not_mem hz]
  by_cases hport : port' = port
  · simp [hport]
  · simp [hport, Ne.symm hport]

variable [DecidableEq ι] {s s₀ : System ν ι τ} {taskVm : τ → ν}

/-- **Memory is isolated.** After every run of calls and faults of users that had what they need, a
page at an address of a user is at no other address of any user, in no page table, not free, and in
no message; and the page of a message is not free, and no other message has it. -/
theorem user_pages_isolated (hboot : Booted kernelVm s₀)
    {h : List (System ν ι τ × KernelEvent ι τ)} (hr : Run (KernelStep kernelVm taskVm) s₀ h s)
    (hmet : ∀ e ∈ h, e.2.Met kernelVm taskVm e.1) :
    (∀ u v pa, u ≠ kernelVm → MappedAt s.vm.mem u v →
      pmapExtract kernelVm u v s.vm.mem = .ok pa →
      (∀ u' v', u' ≠ kernelVm → MappedAt s.vm.mem u' v' →
        pmapExtract kernelVm u' v' s.vm.mem = .ok pa → u' = u ∧ v' = v) ∧
      pmapMapDirect pa ∉ s.vm.mem.ptPages ∧
      (∀ page ∈ s.vm.mem.pages.pageFreeQueue, pageAddress page ≠ pa) ∧
      ∀ port, ∀ m ∈ queueOf s.ipc port, ∀ page, m.ipcmsgPage = some page →
        pageAddress page ≠ pa) ∧
    ∀ port, ∀ m ∈ queueOf s.ipc port, ∀ page, m.ipcmsgPage = some page →
      page ∉ s.vm.mem.pages.pageFreeQueue ∧
      ∀ port', ((queueOf s.ipc port').filterMap IpcMessage.ipcmsgPage).count page =
        if port' = port then 1 else 0 := by
  obtain ⟨l, q, hown, hq⟩ := PagesSound.run hboot hr hmet
  refine ⟨fun u v pa hu hv ha => ?_, fun port m hm page hp => ⟨?_, ?_⟩⟩
  · obtain ⟨page, hmp⟩ := hown.mappedAt_iff.mp hv
    obtain rfl : pa = pageAddress page :=
      Except.ok.inj (ha.symm.trans (hown.pages.mapped.pmapExtract hmp).2)
    have hal := hown.mem_allocs hu hmp
    -- a page is known by its address
    have hid : ∀ p, Inserted l.treePages p → pageAddress p = pageAddress page → p = page :=
      fun p hi => hi.eq_of_pageAddress hown.pages.counted.counted.desc.disjoint
        (hown.pages.allocs page hal)
    refine ⟨fun u' v' hu' hv' ha' => ?_, hown.not_table hal, fun p hp he => ?_,
      fun port m hm p hp he => ?_⟩
    · obtain ⟨p, hmp'⟩ := hown.mappedAt_iff.mp hv'
      obtain rfl := hid p (hown.pages.mapped.entry u' v' p hmp').2.1
        (Except.ok.inj ((hown.pages.mapped.pmapExtract hmp').2.symm.trans ha'))
      exact hown.maps_inj hu' hu hmp' hmp
    · obtain rfl := hid p ((hown.pages.counted.counted.desc.queues p).mp (.inl hp)) he
      exact hown.not_free hal hp
    · have hpos := hq.heldBy_pos hm hp
      obtain rfl := hid p (hown.pages.allocs p (hown.mem_allocs_of_held hpos)) he
      have := hown.owned_once p
      have := count_pos_iff.mpr (mem_userPages hu hmp)
      omega
  · exact hown.not_free (hown.mem_allocs_of_held (hq.heldBy_pos hm hp))
  · have := hown.owned_once page
    exact hq.count_eq hm hp (by omega)

/-- The page that a user has got is at no other address. -/
theorem user_pages_isolated_get : ∃ s : System ℕ ℕ ℕ,
    KernelStep 0 (fun _ => 1) bootSystem getPage s ∧ MappedAt s.vm.mem 1 8192 ∧
      ∀ u v pa, u ≠ 0 → MappedAt s.vm.mem u v → pmapExtract 0 1 8192 s.vm.mem = .ok pa →
        pmapExtract 0 u v s.vm.mem = .ok pa → u = 1 ∧ v = 8192 := by
  obtain ⟨s, hst, hs⟩ := getPage_step
  have hm := hs.freeable.mapped 0 Nat.one_pos
  refine ⟨s, hst, hm, fun u v pa hu hv ha ha' => ?_⟩
  exact ((user_pages_isolated booted_bootSystem (Run.nil.snoc hst)
    (forall_mem_singleton.mpr getPage_met)).1 1 8192 pa Nat.one_ne_zero hm ha).1 u v hu hv ha'

end Glatt
