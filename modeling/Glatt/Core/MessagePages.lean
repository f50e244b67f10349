import Glatt.Core.Syscall
import Glatt.Ipc.SendOnce
import Glatt.Vm.Wiring

/-!
# Pages in messages

A page that is sent leaves the address space of its sender, is held by the queue of a port, and is
mapped for its receiver. The pages that the queues hold are allocated, and no user has them mapped;
the ports that messages come from are registered, so that rights can be inserted there.

## Main definitions

* `QueuedPages`: the pages that the queues hold
* `UserChange`: what a call does to the ledger of a user

## Main results

* `VmOwned.ipcTakePage`, `VmOwned.ipcMapPage`: a page between an address space and a message
* `ipcPortSend_owned`, `ipcPortReceive_owned`: the calls on messages with their pages
-/

namespace Glatt

open Imperative List

variable {τ : Type} [LinearOrder τ] {m : IpcMessage} {current : τ} {port : UInt32}
  {ipch : IpcHeader}

/-! ## The calls on ports return -/

section Ports

variable {s s' : IpcState τ} {p : UInt32}

def Registered (s : IpcState τ) (p : UInt32) : Prop := s.ipcPorts p ≠ none

def KeepsPorts (s s' : IpcState τ) : Prop := ∀ p, Registered s p → Registered s' p

theorem keepsPorts_setPort (q : UInt32) (ipcp : IpcPort τ) : KeepsPorts s (s.setPort q ipcp) := by
  intro p hp
  rw [Registered, setPort_ipcPorts]
  split
  · exact Option.some_ne_none _
  · exact hp

theorem Holds.registered {t : τ} {i : ℕ} (h : Holds s t p i) : Registered s p := by
  obtain ⟨ipcp, hp, -⟩ := h
  rw [Registered, hp]
  exact Option.some_ne_none _

theorem ipcPortSendPage_returns (current : τ) (page : Option UInt64) :
    Ensures (ipcPortSendPage true current ipch page s) fun r => KeepsPorts s r.1 := by
  refine ((ipcPortSendPage_cases current).ensures rfl).mono ?_
  rintro ⟨-, r⟩ (⟨rfl, -, -⟩ | ⟨-, -, -, -, -, -, -, ⟨-, -, rfl⟩ | ⟨-, -, rfl⟩⟩)
  · exact fun _ hp => hp
  · exact keepsPorts_setPort _ _
  · exact keepsPorts_setPort _ _

theorem ipcPortDequeue_returns (current : τ) :
    Ensures (ipcPortDequeue current port s) fun r => KeepsPorts s r.1 := by
  rcases ipcPortDequeue_cases current with ⟨⟨e, hc⟩, -⟩ | ⟨ipcp, m, msgs, -, -, -, hc⟩
  · exact ⟨_, hc, fun _ hp => hp⟩
  · exact ⟨_, hc, keepsPorts_setPort _ _⟩

theorem ipcPortAccept_returns (hs : Registered s m.ipcmsgHeader.ipchdrSrc) :
    Ensures (ipcPortAccept true current m s) fun s' => KeepsPorts s s' := by
  rw [ipcPortAccept]
  split
  · obtain ⟨ipcp, hip⟩ := Option.ne_none_iff_exists'.mp hs
    rw [hip]
    refine ((ipcPortRightInsert_spec ipcp).ensures rfl).bind fun _ _ => ?_
    exact .ret (keepsPorts_setPort _ _)
  · exact .ret fun _ hp => hp

theorem ipcPortAllocate_returns (task : τ) (flags : UInt32) (hp : ipcPortUnreservedStart ≤ p)
    (hf : s.ipcPorts p = none) :
    Ensures (ipcPortAllocate true task flags s) fun r => KeepsPorts s r.1 := by
  rw [ipcPortAllocate]
  rw [ipcPortAlloc, if_pos rfl]
  refine ((ipcPortRightInsert_spec _).ensures rfl).bind fun ipcp _ => ?_
  refine (ipcPortNumber_returns hp hf).bind ?_
  rintro ⟨port, next⟩ ⟨hn, -⟩
  simp only [ipcPortRegister, hn]
  exact .ret (keepsPorts_setPort port _)

end Ports

/-! ## Pages in queues -/

/-- **The list has the pages in the queues**, with the ports, and the source ports of all messages
are registered. -/
structure QueuedPages (ipc : IpcState τ) (q : List (UInt32 × UInt64)) : Prop where
  count : ∀ port page, q.count (port, page) =
    ((queueOf ipc port).filterMap IpcMessage.ipcmsgPage).count page
  source : ∀ port, ∀ m ∈ queueOf ipc port, Registered ipc m.ipcmsgHeader.ipchdrSrc

def heldBy (q : List (UInt32 × UInt64)) (page : UInt64) : ℕ := (q.map Prod.snd).count page

theorem heldBy_cons (page : UInt64) (q : List (UInt32 × UInt64)) :
    heldBy ((port, page) :: q) = bump (heldBy q) page := by
  funext p
  rw [heldBy, map_cons, count_cons, bump, heldBy]
  simp only [beq_iff_eq, eq_comm (a := page)]

def entriesOf (port : UInt32) : Option UInt64 → List (UInt32 × UInt64)
  | none => []
  | some page => [(port, page)]

section Queues

variable {ipc ipc' : IpcState τ} {q : List (UInt32 × UInt64)} {port : UInt32}

theorem QueuedPages.of_queueOf (h : QueuedPages ipc q) (hq : ∀ p, queueOf ipc' p = queueOf ipc p)
    (hk : KeepsPorts ipc ipc') : QueuedPages ipc' q := by
  refine ⟨fun p page => ?_, fun p m hm => ?_⟩
  · rw [hq]
    exact h.count p page
  · rw [hq] at hm
    exact hk _ (h.source p m hm)

theorem QueuedPages.enqueue (h : QueuedPages ipc q)
    (hq : ∀ p, queueOf ipc' p = if p = port then queueOf ipc p ++ [m] else queueOf ipc p)
    (hk : KeepsPorts ipc ipc') (hs : Registered ipc m.ipcmsgHeader.ipchdrSrc) :
    QueuedPages ipc' (entriesOf port m.ipcmsgPage ++ q) := by
  refine ⟨fun p page => ?_, fun p m' hm => ?_⟩
  · rw [count_append, h.count, hq]
    obtain ⟨-, page'⟩ := m
    by_cases hp : p = port
    · subst hp
      cases page' with
      | none => simp [entriesOf]
      | some page' => simp [entriesOf, count_cons, Nat.add_comm]
    · cases page' with
      | none => simp [entriesOf, hp]
      | some page' => simp [entriesOf, hp, Ne.symm hp]
  · rw [hq] at hm
    split at hm
    · rcases mem_append.mp hm with hm | hm
      · exact hk _ (h.source p m' hm)
      · rw [mem_singleton.mp hm]
        exact hk _ hs
    · exact hk _ (h.source p m' hm)

theorem QueuedPages.dequeue (h : QueuedPages ipc q)
    (hpr : queueOf ipc port = m :: queueOf ipc' port)
    (hq : ∀ p ≠ port, queueOf ipc' p = queueOf ipc p) (hk : KeepsPorts ipc ipc') :
    ∃ q', q.Perm (entriesOf port m.ipcmsgPage ++ q') ∧ QueuedPages ipc' q' := by
  obtain ⟨ipch, page⟩ := m
  have hs : ∀ p, ∀ m ∈ queueOf ipc' p, Registered ipc' m.ipcmsgHeader.ipchdrSrc := by
    intro p m hm
    by_cases hp : p = port
    · subst hp
      exact hk _ (h.source p m (hpr ▸ mem_cons_of_mem _ hm))
    · rw [hq p hp] at hm
      exact hk _ (h.source p m hm)
  cases page with
  | none =>
    refine ⟨q, .refl _, fun p page => ?_, hs⟩
    rw [h.count]
    by_cases hp : p = port
    · subst hp
      rw [hpr]
      rfl
    · rw [hq p hp]
  | some page =>
    have hpg : (queueOf ipc port).filterMap IpcMessage.ipcmsgPage =
        page :: (queueOf ipc' port).filterMap IpcMessage.ipcmsgPage := by
      rw [hpr]
      rfl
    have hc := h.count port page
    rw [hpg, count_cons_self] at hc
    have hmem : (port, page) ∈ q := count_pos_iff.mp (by omega)
    refine ⟨q.erase (port, page), perm_cons_erase hmem, fun p page' => ?_, hs⟩
    have hb := h.count p page'
    rw [(perm_cons_erase hmem).count_eq, count_cons] at hb
    by_cases hp : p = port
    · subst hp
      rw [hpg, count_cons] at hb
      simp only [beq_iff_eq, Prod.mk.injEq, true_and] at hb
      omega
    · rw [hq p hp]
      simp only [beq_iff_eq, Prod.mk.injEq, Ne.symm hp, false_and, if_false] at hb
      omega

theorem QueuedPages.mem (h : QueuedPages ipc q) (hm : m ∈ queueOf ipc port) {page : UInt64}
    (hp : m.ipcmsgPage = some page) : (port, page) ∈ q := by
  have hmem : page ∈ (queueOf ipc port).filterMap IpcMessage.ipcmsgPage :=
    mem_filterMap.mpr ⟨m, hm, hp⟩
  exact count_pos_iff.mp (h.count port page ▸ count_pos_iff.mpr hmem)

theorem QueuedPages.heldBy_pos (h : QueuedPages ipc q) (hm : m ∈ queueOf ipc port) {page : UInt64}
    (hp : m.ipcmsgPage = some page) : 0 < heldBy q page :=
  count_pos_iff.mpr (mem_map.mpr ⟨_, h.mem hm hp, rfl⟩)

end Queues

/-! ## Pages between address spaces and messages -/

section Pages

variable {ν ι : Type} [DecidableEq ν] [DecidableEq ι] {kernelVm u : ν} {v page : UInt64}
  {l : Ledger ν} {s s' : VmState ν ι} {held : UInt64 → ℕ}

/-- **A change to the pages of users** leaves the kernel's mappings and addresses. -/
structure UserChange (kernelVm : ν) (s s' : VmState ν ι) (l l' : Ledger ν) : Prop where
  kernel : KernelSame kernelVm l l'
  index : s'.index kernelVm = s.index kernelVm

theorem VmOwned.ipcTakePage (h : VmOwned kernelVm s l held) (hu : u ≠ kernelVm)
    (hwh : MappedAt s.mem u (pageFloor v) → PageAligned v ∧ Releasable s u v 1) :
    Ensures (ipcTakePage kernelVm u v s) fun r =>
      (∃ e, r = (s, .error e) ∧ ¬ MappedAt s.mem u (pageFloor v)) ∨
      ∃ page, r.2 = .ok page ∧ (u, v, page) ∈ l.maps ∧
        VmOwned kernelVm r.1 { l with maps := l.maps.erase (u, v, page) } (bump held page) ∧
        (∀ u' ≠ u, r.1.index u' = s.index u') ∧ s.mem.freePages ≤ r.1.mem.freePages := by
  by_cases hmp : MappedAt s.mem u (pageFloor v)
  · obtain ⟨hv, hr⟩ := hwh hmp
    rw [hv.floor] at hmp
    obtain ⟨page, hm⟩ := h.mappedAt_iff.mp hmp
    rw [Glatt.ipcTakePage, h.pages.pageExtract hm, ok_bind]
    dsimp only
    rw [if_neg hu]
    have hun := h.unmapPage hm (bump held page) fun q => ?_
    · refine ((onMem_guarded hun.guarded).ensures trivial).bind ?_
      rintro ⟨mem₁, -⟩ ⟨⟨h₁, hf⟩, rfl⟩
      refine (h₁.releaseAddress (fun w q hw hone => ?_) (h.covered u v page hm)).bind ?_
      -- nothing else was mapped in the index of the page
      · obtain ⟨T, x, hT, hx, hcov, hcov'⟩ := hone
        have hw' := mem_of_mem_erase hw
        obtain ⟨o, ho, rfl⟩ := (hr T x hT hx ⟨hcov.1, .inr hcov.2⟩).2 w
          (h.mappedAt_iff.mpr ⟨q, hw'⟩) hcov'
        obtain rfl : o = 0 := by omega
        have hz : pageFloor (pageAt v 0) = v := by
          rw [(pageAligned_pageAt hv 0).floor]
          simp [pageAt]
        rw [hz] at hw
        exact h.not_mem_erase hm q hw
      · rintro s₂ ⟨h₂, hmem₂, hot, -⟩
        refine .ret (.inr ⟨page, rfl, hm, h₂, hot, ?_⟩)
        rw [hmem₂]
        exact hf
    · -- the mapping that goes is the one that the message gets
      have hown := h.owned q
      have hc := (userPages_erase kernelVm hm).count_eq q
      rw [if_neg hu, count_cons] at hc
      rw [bump]
      simp only [beq_iff_eq, eq_comm (a := page)] at hc
      omega
  · obtain ⟨e, he⟩ : ∃ e, pmapExtract kernelVm u v s.mem = .error e :=
      pmapExtract_unmapped hu fun hvl => hmp ⟨pageAligned_floor v, hvl⟩
    rw [Glatt.ipcTakePage, pageExtract, he]
    exact .ret (.inl ⟨e, rfl, hmp⟩)

theorem VmOwned.ipcMapPage (h : VmOwned kernelVm s l (bump held page)) (hu : u ≠ kernelVm)
    {new₁ new₂ : Option ι} (hnew : ∀ T, (s.index u).vmIndex.Represents T → Fresh new₁ new₂ T)
    (hsl : l.Slack 2) (hf : 2 ≤ s.mem.freePages) :
    Ensures (ipcMapPage kernelVm new₁ new₂ u page s) fun r => ∃ l',
      VmOwned kernelVm r.1 l' held ∧ UserChange kernelVm s r.1 l l' ∧
      (∀ m ∈ l.maps, m ∈ l'.maps) ∧
      ((∃ e, r.2 = .user (.error e) (.ok ()) ∧
          (¬ HasRoom (s.index u) 1 ∨ new₁ = none ∨ new₂ = none)) ∨
        ∃ vaddr, r.2 = .user (.ok vaddr) (.ok ())) := by
  rw [Glatt.ipcMapPage, if_neg hu]
  refine (h.allocAddress hnew (by decide) false).bind ?_
  rintro ⟨index, r⟩ ⟨hs, htk, he⟩
  have hk : (s.setIndex u index).index kernelVm = s.index kernelVm := s.setIndex_of_ne hu.symm index
  cases r with
  | error e =>
    refine hs.pageRelease.bind ?_
    rintro s₁ ⟨h₁, hin, -⟩
    refine .ret ⟨_, h₁, ⟨(KernelSame.refl kernelVm l).allocs, ?_⟩, fun _ hm => hm,
      .inl ⟨e, rfl, (he e rfl).2⟩⟩
    rw [hin]
    exact hk
  | ok vaddr =>
    obtain ⟨ht, -, hn⟩ := htk vaddr rfl
    have hz : pageAt vaddr 0 = vaddr := by simp [pageAt]
    have huse : InUseAt ((s.setIndex u index).index u) vaddr := by
      rw [s.setIndex_self, ← hz]
      exact ht.inUse_pageAt (by decide)
    have hn₀ : ∀ q, (u, vaddr, q) ∉ l.maps := by
      rw [← hz]
      exact hn 0 (by decide)
    have hp : page ∈ l.allocs := hs.mem_allocs_of_held (by rw [bump, if_pos rfl]; omega)
    have hmap := hs.pageMap (Q := True) ht.pageAligned huse hn₀ hp hsl (fun _ => hf)
      (show ∀ q, (userPages kernelVm ((u, vaddr, page) :: l.maps)).count q + held q ≤
        l.allocs.count q from fun q => ?_)
    · refine (hmap.ensures trivial).bind ?_
      rintro ⟨mem, r⟩ ⟨hr, h₁, -⟩
      subst hr
      exact .ret ⟨_, h₁, ⟨(KernelSame.refl kernelVm l).map hu, hk⟩,
        fun m hm => mem_cons_of_mem _ hm, .inr ⟨vaddr, rfl⟩⟩
    · have ho := hs.owned q
      rw [bump] at ho
      rw [userPages_cons, if_neg hu, count_cons]
      simp only [beq_iff_eq, eq_comm (a := page)]
      omega

end Pages

/-! ## Sending and receiving -/

section Messages

variable {ν ι : Type} [DecidableEq ν] [DecidableEq ι] {kernelVm u : ν} {l : Ledger ν}
  {s : System ν ι τ} {q : List (UInt32 × UInt64)}

theorem heldBy_entriesOf (port' : UInt32) (page : Option UInt64) :
    heldBy (entriesOf port page ++ q) = heldBy (entriesOf port' page ++ q) := by
  cases page with
  | none => rfl
  | some page => rw [entriesOf, entriesOf, singleton_append, singleton_append,
      heldBy_cons, heldBy_cons]

omit [DecidableEq ι] in
theorem ipcSendTaken_owned {port : UInt32} {page : Option UInt64}
    (h : VmOwned kernelVm s.vm l (heldBy (entriesOf port page ++ q))) (hq : QueuedPages s.ipc q)
    (current : τ) (ipch : IpcHeader) :
    Ensures (ipcSendTaken true current ipch page s) fun r => ∃ l' q',
      VmOwned kernelVm r.1.vm l' (heldBy q') ∧ QueuedPages r.1.ipc q' ∧ KernelSame kernelVm l l' ∧
      l'.maps = l.maps ∧ (r.2 = .ok () → l'.allocs = l.allocs) ∧ r.1.vm.index = s.vm.index ∧
      ∃ ipc', ipcPortSendPage true current ipch page s.ipc = .ok (ipc', r.2) := by
  rw [ipcSendTaken]
  obtain ⟨⟨ipc, r⟩, hs, hk⟩ := ipcPortSendPage_returns current page
  obtain ⟨-, hsrc, hqu⟩ := ipcPortSendPage_spec _ hs
  rw [hs]
  cases r with
  | ok u =>
    refine .ret ⟨l, entriesOf ipch.ipchdrDst page ++ q, ?_, ?_, .refl kernelVm l, rfl,
      fun _ => rfl, rfl, ipc, rfl⟩
    · rw [heldBy_entriesOf port]
      exact h
    · refine hq.enqueue (m := ⟨ipch, page⟩) (fun p => ?_) hk (hsrc rfl).registered
      rw [hqu]
      simp only [true_and]
  | error e =>
    have hq' : QueuedPages ipc q := by
      refine hq.of_queueOf (fun p => ?_) hk
      rw [hqu, if_neg]
      rintro ⟨ho, -⟩
      cases ho
    cases page with
    | none =>
      exact .ret ⟨l, q, h, hq', .refl kernelVm l, rfl, fun _ => rfl, rfl, ipc, rfl⟩
    | some page =>
      rw [entriesOf, singleton_append, heldBy_cons] at h
      refine h.pageRelease.bind ?_
      rintro vm ⟨h', hin, -⟩
      refine .ret ⟨_, q, h', hq', (KernelSame.refl kernelVm l).allocs, rfl, ?_, hin, ipc, rfl⟩
      intro ho
      cases ho

theorem ipcPortSend_owned (h : VmOwned kernelVm s.vm l (heldBy q)) (hq : QueuedPages s.ipc q)
    (hu : u ≠ kernelVm) (current : τ) (ipch : IpcHeader) {vpage : UInt64}
    (hw : vpage ≠ 0 → MappedAt s.vm.mem u (pageFloor vpage) →
      PageAligned vpage ∧ Releasable s.vm u vpage 1) :
    Ensures (ipcPortSend kernelVm true current u ipch vpage s) fun r => ∃ l' q',
      VmOwned kernelVm r.1.vm l' (heldBy q') ∧ QueuedPages r.1.ipc q' ∧
      UserChange kernelVm s.vm r.1.vm l l' ∧
      (∀ w page, (u, w, page) ∈ l.maps → (vpage ≠ 0 → w ≠ vpage) → (u, w, page) ∈ l'.maps) ∧
      (∀ m ∈ l'.maps, m ∈ l.maps) ∧ (r.2 = .ok () → l'.allocs = l.allocs) ∧
      ∀ e, r.2 = .error e → vpage ≠ 0 ∧ ¬ MappedAt s.vm.mem u (pageFloor vpage) ∨
        ∃ page ipc', (page = none ↔ vpage = 0) ∧
          ipcPortSendPage true current ipch page s.ipc = .ok (ipc', .error e) := by
  rw [ipcPortSend]
  by_cases hz : vpage = 0
  · rw [if_pos hz]
    have hn : VmOwned kernelVm s.vm l (heldBy (entriesOf 0 none ++ q)) := h
    refine (ipcSendTaken_owned hn hq current ipch).mono ?_
    rintro ⟨s', r⟩ ⟨l', q', h', hq', hs, hmp, ha, hin, ipc, hsn⟩
    refine ⟨l', q', h', hq', ⟨hs, by rw [hin]⟩, fun w page hm _ => hmp ▸ hm,
      fun m hm => hmp ▸ hm, ha, ?_⟩
    rintro e rfl
    exact .inr ⟨none, ipc, ⟨fun _ => hz, fun _ => rfl⟩, hsn⟩
  · rw [if_neg hz]
    refine (h.ipcTakePage hu (hw hz)).bind ?_
    rintro ⟨vm, r⟩ (⟨e, heq, hun⟩ | ⟨page, hr, hm, h₁, ho, -⟩)
    · cases heq
      exact .ret ⟨l, q, h, hq, ⟨.refl kernelVm l, rfl⟩, fun _ _ hm _ => hm,
        fun _ hm => hm, fun _ => rfl, fun _ _ => .inl ⟨hz, hun⟩⟩
    · subst hr
      have hh : VmOwned kernelVm vm { l with maps := l.maps.erase (u, vpage, page) }
          (heldBy (entriesOf 0 (some page) ++ q)) := by
        rw [entriesOf, singleton_append, heldBy_cons]
        exact h₁
      refine (ipcSendTaken_owned (s := { s with vm }) hh hq current ipch).mono ?_
      rintro ⟨s', r⟩ ⟨l', q', h', hq', hs, hmp, ha, hin, ipc, hsn⟩
      refine ⟨l', q', h', hq', ⟨?_, ?_⟩, fun w page' hm' hne => ?_, fun m hm => ?_, ha, ?_⟩
      · exact ((KernelSame.refl kernelVm l).unmap hu hm).trans hs
      · rw [hin]
        exact ho kernelVm hu.symm
      · rw [hmp]
        refine (mem_erase_of_ne fun heq => hne hz ?_).mpr hm'
        exact congrArg (fun m => m.2.1) heq
      · rw [hmp] at hm
        exact mem_of_mem_erase hm
      · rintro e rfl
        have hp : some page = none ↔ vpage = 0 := iff_of_false (Option.some_ne_none page) hz
        exact .inr ⟨some page, ipc, hp, hsn⟩

theorem ipcPortReceive_owned (h : VmOwned kernelVm s.vm l (heldBy q)) (hq : QueuedPages s.ipc q)
    (hu : u ≠ kernelVm) (current : τ) (port : UInt32) {supply : Supply ι} (hmem : supply.mem = true)
    (hn : ∀ T, (s.vm.index u).vmIndex.Represents T → Fresh supply.user₁ supply.user₂ T)
    (hs : l.Slack 2) (hf : 2 ≤ s.vm.mem.freePages) :
    Ensures (ipcPortReceive kernelVm supply current u port s) fun r => ∃ l' q',
      VmOwned kernelVm r.1.vm l' (heldBy q') ∧ QueuedPages r.1.ipc q' ∧
      UserChange kernelVm s.vm r.1.vm l l' ∧ (∀ m ∈ l.maps, m ∈ l'.maps) ∧
      ∀ e, r.2 = .error e → (∃ ipc', ipcPortDequeue current port s.ipc = .ok (ipc', .error e)) ∨
        (∃ m ∈ (queueOf s.ipc port).head?, m.ipcmsgPage ≠ none) ∧
          (¬ HasRoom (s.vm.index u) 1 ∨ supply.user₁ = none ∨ supply.user₂ = none) := by
  rw [ipcPortReceive, hmem]
  obtain ⟨⟨ipc, r⟩, hd, hk⟩ := ipcPortDequeue_returns current
  obtain ⟨-, hok, ho⟩ := ipcPortDequeue_spec _ hd
  rw [hd, ok_bind]
  cases r with
  | error e =>
    refine .ret ⟨l, q, h, hq.of_queueOf (fun p => ho p (.inr ⟨e, rfl⟩)) hk,
      ⟨.refl kernelVm l, rfl⟩, fun _ hm => hm, ?_⟩
    rintro _ ⟨⟩
    exact .inl ⟨ipc, rfl⟩
  | ok m =>
    obtain ⟨-, hpr⟩ := hok m rfl
    have hsrc : Registered ipc m.ipcmsgHeader.ipchdrSrc :=
      hk _ (hq.source port m (hpr ▸ mem_cons_self))
    obtain ⟨q', hpm, hq'⟩ := hq.dequeue hpr (fun p hp => ho p (.inl hp)) hk
    obtain ⟨ipc', ha, hk'⟩ := ipcPortAccept_returns hsrc
    obtain ⟨-, -, -, hqu'⟩ := ipcPortAccept_spec m _ ha
    have hq'' : QueuedPages ipc' q' := hq'.of_queueOf hqu' hk'
    have hh : heldBy q = heldBy (entriesOf port m.ipcmsgPage ++ q') := by
      funext p
      exact (hpm.map Prod.snd).count_eq p
    rw [hh] at h
    dsimp only
    rw [ha]
    obtain ⟨ipch, page⟩ := m
    cases page with
    | none =>
      refine .ret ⟨l, q', h, hq'', ⟨.refl kernelVm l, rfl⟩, fun _ hm => hm, ?_⟩
      intro e he
      cases he
    | some page =>
      rw [entriesOf, singleton_append, heldBy_cons] at h
      rw [ipcReceivePage]
      dsimp only
      obtain ⟨⟨vm, reply⟩, hmap, l', h', hc, hkp, hrp⟩ := h.ipcMapPage hu hn hs hf
      rw [hmap]
      rcases hrp with ⟨e, hr, hw⟩ | ⟨vaddr, hr⟩
      -- the page is released by `ipc_port_receive` itself
      · dsimp only at hr
        subst hr
        refine .ret ⟨l', q', h', hq'', hc, hkp, fun _ _ => .inr ⟨?_, hw⟩⟩
        exact ⟨⟨ipch, some page⟩, by rw [hpr]; rfl, Option.some_ne_none page⟩
      · subst hr
        refine .ret ⟨l', q', h', hq'', hc, hkp, ?_⟩
        intro e he
        cases he

end Messages

end Glatt
