import Glatt.Core.Dispatch
import Glatt.Core.MessagePages
import Glatt.Core.SyscallMapping

/-!
# The handlers on pages

What each handler of a system call does to pages, addresses and the ledger, and what it needs to
return. The kernel panics when a user names memory that is not there or there is no memory left; the
conditions here say what has to be there.

## Main definitions

* `Freeable`, `HeaderReady`: what the handlers need of memory

## Main results

* `VmOwned.vmFreeRange`, `VmOwned.syscallThreadCreate`, `VmOwned.syscallVmAllocRange`: the handlers
  on one address space
* `syscallVmAllocRange_fails`: an allocation of a range never succeeds
* `syscallIpcPortSend_owned`, `syscallIpcPortReceive_owned`: the handlers on messages
-/

namespace Glatt

open Imperative

variable {ν ι τ : Type} [DecidableEq ν] [DecidableEq ι] [LinearOrder τ] {kernelVm u : ν}
  {l l₁ l₂ : Ledger ν} {s s₁ s₂ : VmState ν ι} {held : UInt64 → ℕ} {env : SyscallEnv ι}

/-! ## Ranges -/

/-- **A range that can be freed**: it begins at an address in use, all its pages are mapped, and no
other page is mapped in the index. -/
structure Freeable (s : VmState ν ι) (u : ν) (vaddr : UInt64) (n : ℕ) : Prop where
  aligned : PageAligned vaddr
  inUse : InUseAt (s.index u) vaddr
  mapped : ∀ o < n, MappedAt s.mem u (pageAt vaddr o)
  whole : Releasable s u vaddr n

section

variable (h : VmOwned kernelVm s l held)
include h

theorem VmOwned.vmFreeRange (hu : u ≠ kernelVm)
    {vaddr size : UInt64} (hf : Freeable s u vaddr (pageCount size).toNat) :
    Ensures (Glatt.vmFree kernelVm u size vaddr s) fun r => ∃ l', VmOwned kernelVm r.1 l' held := by
  refine (h.vmFree hu hf.aligned hf.whole fun _ => ⟨hf.inUse, ?_⟩).ensures trivial
  exact fun o ho => h.mappedAt_iff.mp (hf.mapped o ho)

omit [DecidableEq ι] in
theorem VmOwned.tlbWiredWire {kstack : UInt64} {n : ℕ}
    (hm : ∀ o < n, ∃ page, (kernelVm, pageAt kstack o, page) ∈ l.maps) :
    Ensures (s.onMem fun mem => forRange
      (fun o mem => Glatt.tlbWiredWire kernelVm (pageAt kstack o) mem) n mem) (· = s) := by
  have hl : Ensures (forRange
      (fun o mem => Glatt.tlbWiredWire kernelVm (pageAt kstack o) mem) n s.mem) (· = s.mem) := by
    refine (Guarded.forRange (I := fun _ mem => mem = s.mem) ?_ rfl).ensures trivial
    rintro o ho _ rfl
    have ha := h.mappedAt_iff.mpr (hm o ho)
    rw [Glatt.tlbWiredWire, ha.1.floor, pmapFind_of_pteValid ha.2]
    exact guarded_pure rfl
  obtain ⟨mem, hrun, rfl⟩ := hl
  rw [VmState.onMem, hrun]
  exact .ret rfl

theorem VmOwned.syscallThreadCreate (hu : u ≠ kernelVm)
    (hkr : ∀ T, (s.index kernelVm).vmIndex.Represents T → Fresh env.kernel₁ env.kernel₂ T)
    (hur : ∀ T, (s.index u).vmIndex.Represents T → Fresh env.user₁ env.user₂ T)
    (hrm : env.thread = true → HasRoom (s.index kernelVm) 2 ∧ HasRoom (s.index u) 128 ∧
      env.kernel₁ ≠ none ∧ env.kernel₂ ≠ none ∧ env.user₁ ≠ none ∧ env.user₂ ≠ none ∧
      6 ≤ s.mem.freePages) :
    Ensures (Glatt.syscallThreadCreate kernelVm env u s) fun r =>
      ∃ l', VmOwned kernelVm r.1 l' held := by
  rw [Glatt.syscallThreadCreate]
  cases ht : env.thread with
  | false => exact .ret ⟨l, h⟩
  | true =>
    obtain ⟨hrm₁, hrm₂, hk₁, hk₂, hu₁, hu₂, hf⟩ := hrm ht
    suffices hst : Ensures (cpuThreadSetup kernelVm env.toSupply u s) fun r =>
        r.2 = .ok () ∧ ∃ l', VmOwned kernelVm r.1 l' held by
      obtain ⟨r, hrun, hr, hl⟩ := hst
      exact (ensures_orPanic ⟨r, hrun, hr, hl⟩).bind fun s' hs' => .ret hs'
    rw [cpuThreadSetup]
    have hp : 1 ≤ pageCount kstackSize := by decide
    refine ((h.vmAlloc hkr hp (fun _ => by decide) fun _ _ => hf).ensures
      trivial).bind ?_
    rintro ⟨s₁, r⟩ ⟨⟨l₁, h₁, hm⟩, ho, he, -⟩
    cases r with
    | error e =>
      rcases he e rfl with hno | hno | hno
      · exact absurd hrm₁ hno
      · exact absurd hno hk₁
      · exact absurd hno hk₂
    | ok kstack =>
      refine (h₁.tlbWiredWire (hm kstack rfl)).bind ?_
      rintro _ rfl
      have hin := ho u hu
      have hus : 1 ≤ ustackSize / pageSize := by decide
      refine (h₁.allocAddress (by rw [hin]; exact hur) hus true).bind ?_
      rintro ⟨index, r⟩ ⟨h₂, -, he₂⟩
      cases r with
      | error e =>
        rcases (he₂ e rfl).2 with hno | hno | hno
        · exact absurd (hin ▸ hrm₂) hno
        · exact absurd hno hu₁
        · exact absurd hno hu₂
      | ok ustack => exact .ret ⟨rfl, l₁, h₂⟩

omit h in
theorem syscallVmAllocRange_fails {a b : ℕ} (h : IndexInv a b (s.index u)) (ha : 8192 ∣ a)
    (hb : b < 2 ^ 64) (hu : u ≠ kernelVm)
    (hus : ∀ T, (s.index u).vmIndex.Represents T → Fresh env.user₁ env.user₂ T)
    (begin end_ : UInt64) :
    Ensures (Glatt.syscallVmAllocRange kernelVm env u begin end_ s) fun r =>
      ∃ index e, r = (s.setIndex u index, .error e) ∧ IndexInv a b index ∧
        ∀ v, InUseAt (s.index u) v → InUseAt index v := by
  unfold syscallVmAllocRange
  split_ifs with hbad
  · have hs : s.setIndex u (s.index u) = s := by
      rw [VmState.setIndex, Function.update_eq_self]
    exact .ret ⟨s.index u, .invalid, by rw [hs], h, fun _ hv => hv⟩
  rw [not_or, not_or, not_not, not_not, UInt64.not_le] at hbad
  obtain ⟨hbg, hend, hlt⟩ := hbad
  have hbg : 8192 ∣ begin.toNat := Nat.dvd_of_mod_eq_zero (PageAligned.toNat hbg)
  have hend : 8192 ∣ end_.toNat := Nat.dvd_of_mod_eq_zero (PageAligned.toNat hend)
  refine (h.allocRange_taken ha hb hus hbg hend hlt).bind ?_
  rintro ⟨index, r⟩ ⟨hinv, htk, hs⟩
  cases r with
  | error e =>
    exact .ret ⟨index, e, rfl, hinv, fun v hv => (hs e rfl v).mpr hv⟩
  | ok _ =>
    have ht := htk rfl
    have huse : InUseAt index begin := by
      refine (ht.inUse begin).mpr (.inr ⟨le_rfl, ?_⟩)
      have hle := UInt64.le_iff_toNat_le.mp (UInt64.le_of_lt hlt)
      rw [UInt64.lt_iff_toNat_lt] at hlt
      rw [toNat_addrToPage, UInt64.toNat_sub_of_le _ _ (UInt64.le_iff_toNat_le.mpr hle)]
      omega
    dsimp only
    rw [hinv.allocRange_inUse hb hbg huse]
    exact .ret ⟨index, .notFree, rfl, hinv, fun v hv => (ht.inUse v).mpr (.inl hv)⟩

theorem VmOwned.syscallVmAllocRange (hu : u ≠ kernelVm)
    (hus : ∀ T, (s.index u).vmIndex.Represents T → Fresh env.user₁ env.user₂ T)
    (begin end_ : UInt64) :
    Ensures (Glatt.syscallVmAllocRange kernelVm env u begin end_ s) fun r =>
      VmOwned kernelVm r.1 l held := by
  obtain ⟨a, b, ha, hb, hinv, hin⟩ := h.spaces u
  refine (syscallVmAllocRange_fails hinv ha hb hu hus begin end_).mono ?_
  rintro _ ⟨index, e, rfl, hinv', hk⟩
  refine h.setIndex ⟨a, b, ha, hb, hinv', hin⟩ fun v page hm => ?_
  exact hk v (h.covered u v page hm)

end

/-! ## Headers -/

theorem wirePages_header (uvaddr : UInt64) :
    1 ≤ wirePages uvaddr sizeofIpcHeader ∧ (wirePages uvaddr sizeofIpcHeader).toNat ≤ 2 := by
  have ho := toNat_pageOffset uvaddr
  have hs : sizeofIpcHeader.toNat = 32 := rfl
  have hc : (wirePages uvaddr sizeofIpcHeader).toNat = _ := toNat_wirePages (by omega)
  refine ⟨?_, by omega⟩
  rw [UInt64.le_iff_toNat_le]
  change 1 ≤ _
  omega

/-- **The memory of a header can be wired**: its pages are mapped, or faulted in where an index is
in use; the kernel has addresses for two pages, and pages for them and for page tables; and no count
is at its end. -/
structure HeaderReady (kernelVm u : ν) (supply : Supply ι) (uvaddr : UInt64) (fault : Bool)
    (s : VmState ν ι) : Prop where
  wirable : ∀ o < (wirePages uvaddr sizeofIpcHeader).toNat,
    MappedAt s.mem u (pageAt (pageFloor uvaddr) o) ∨
      fault = true ∧ InUseAt (s.index u) (pageAt (pageFloor uvaddr) o)
  room : wirePages uvaddr sizeofIpcHeader ≠ 1 →
    HasRoom (s.index kernelVm) (wirePages uvaddr sizeofIpcHeader) ∧
      supply.kernel₁ ≠ none ∧ supply.kernel₂ ≠ none
  counts : ∀ page, (s.mem.pages.pgRefcnt page).toNat + 4 ≤ 2 ^ 32
  free : 5 * (wirePages uvaddr sizeofIpcHeader).toNat + 2 ≤ s.mem.freePages

structure HeaderWired (kernelVm u : ν) (uvaddr kvaddr : UInt64) (s s₁ : VmState ν ι)
    (l l₁ : Ledger ν) : Prop where
  wired : Wired kernelVm u (pageFloor uvaddr) (wirePages uvaddr sizeofIpcHeader) kvaddr s s₁ l l₁
  faulted : FaultedIn u l l₁
  mapped : ∀ o < (wirePages uvaddr sizeofIpcHeader).toNat,
    ∃ page, (u, pageAt (pageFloor uvaddr) o, page) ∈ l₁.maps

/-- **Nothing is left of the wiring** of a header: the kernel has the mappings and the addresses
that it had, no page of the header has been freed, and the pages that have been faulted in had no
mappings. -/
structure Restored (kernelVm u : ν) (uvaddr : UInt64) (s s' : VmState ν ι) (l l' : Ledger ν) :
    Prop where
  kernel : KernelSame kernelVm l l'
  inUse : ∀ w, InUseAt (s'.index kernelVm) w ↔ InUseAt (s.index kernelVm) w
  allocs : ∀ o < (wirePages uvaddr sizeofIpcHeader).toNat, ∀ page,
    (u, pageAt (pageFloor uvaddr) o, page) ∈ l.maps → page ∈ l'.allocs
  new : ∀ o < (wirePages uvaddr sizeofIpcHeader).toNat, ∀ page,
    (u, pageAt (pageFloor uvaddr) o, page) ∈ l'.maps →
      (u, pageAt (pageFloor uvaddr) o, page) ∈ l.maps ∨ l.mapRefs page = 0

section Header

variable {uvaddr kvaddr : UInt64} {supply : Supply ι}

theorem VmOwned.wireHeader (h : VmOwned kernelVm s l held) (hu : u ≠ kernelVm) {fault : Bool}
    (hk : ∀ T, (s.index kernelVm).vmIndex.Represents T → Fresh supply.kernel₁ supply.kernel₂ T)
    (hr : HeaderReady kernelVm u supply uvaddr fault s) :
    Ensures (Glatt.vmWire kernelVm supply.kernel₁ supply.kernel₂ u uvaddr sizeofIpcHeader fault s)
      fun r => ∃ l₁, VmOwned kernelVm r.1 l₁ held ∧
        HeaderWired kernelVm u uvaddr r.2.1 s r.1 l l₁ ∧ l₁.Slack 2 ∧
        (∀ u' ≠ kernelVm, r.1.index u' = s.index u') ∧ 2 ≤ r.1.mem.freePages := by
  obtain ⟨hone, ht⟩ := wirePages_header uvaddr
  have hs : l.Slack 4 := by
    intro page hp
    have hc := (h.pages.pgRefcnt hp).2
    have hb := hr.counts page
    omega
  have hf := hr.free
  refine (h.vmWire hu hk hone (fun o ho => ?_) hr.room (hs.mono (by omega)) (by omega)
    (by omega)).mono ?_
  · exact (hr.wirable o ho).imp_left h.mappedAt_iff.mp
  · rintro ⟨s₁, kvaddr, off⟩ ⟨l₁, h₁, hw, hin, ha, hs₁, hot, hf₁⟩
    exact ⟨l₁, h₁, ⟨hw, hin, ha⟩, hs₁, hot, by omega⟩

theorem VmOwned.unwireHeader {held₀ : UInt64 → ℕ} (h : VmOwned kernelVm s l held₀)
    (hu : u ≠ kernelVm) (hw : HeaderWired kernelVm u uvaddr kvaddr s s₁ l l₁)
    (h₂ : VmOwned kernelVm s₂ l₂ held) (hc : UserChange kernelVm s₁ s₂ l₁ l₂)
    (hs : wirePages uvaddr sizeofIpcHeader = 1 → ∀ page,
      (u, pageFloor uvaddr, page) ∈ l₁.maps → (u, pageFloor uvaddr, page) ∈ l₂.maps)
    (ha : ∀ v page, (u, v, page) ∈ l₁.maps → page ∈ l₂.allocs)
    (hb : ∀ o < (wirePages uvaddr sizeofIpcHeader).toNat, ∀ page,
      (u, pageAt (pageFloor uvaddr) o, page) ∈ l₂.maps →
        (u, pageAt (pageFloor uvaddr) o, page) ∈ l₁.maps) :
    Ensures (Glatt.vmUnwire kernelVm u uvaddr sizeofIpcHeader kvaddr s₂) fun s₃ => ∃ l₃,
      VmOwned kernelVm s₃ l₃ held ∧ Restored kernelVm u uvaddr s s₃ l l₃ := by
  refine (h.vmUnwire hu (wirePages_header uvaddr).1 hw.wired h₂ hc.kernel hc.index hs).mono ?_
  rintro s₃ ⟨l₃, h₃, hsm, hl₃, hmp, -, hin⟩
  refine ⟨l₃, h₃, hsm, hin, fun o _ page hm => ?_, fun o ho page hm => ?_⟩
  · rw [hl₃]
    exact ha _ page (hw.faulted.keeps _ hm)
  · exact hw.faulted.new _ page (hb o ho page ((hmp u hu _ page).mp hm))

end Header

/-! ## Messages -/

section Messages

variable {s : System ν ι τ} {q : List (UInt32 × UInt64)} {supply : Supply ι} {uvaddr : UInt64}

theorem syscallIpcPortSend_owned (h : VmOwned kernelVm s.vm l (heldBy q)) (hq : QueuedPages s.ipc q)
    (hu : u ≠ kernelVm) (current : τ) (hmem : supply.mem = true)
    (hk : ∀ T, (s.vm.index kernelVm).vmIndex.Represents T → Fresh supply.kernel₁ supply.kernel₂ T)
    (hr : HeaderReady kernelVm u supply uvaddr false s.vm) {vpage : UInt64}
    (hwh : vpage ≠ 0 → MappedAt s.vm.mem u (pageFloor vpage) → PageAligned vpage ∧
      Releasable s.vm u vpage 1)
    (han : wirePages uvaddr sizeofIpcHeader = 1 → vpage ≠ 0 → pageFloor uvaddr ≠ vpage)
    (ipch : IpcHeader) :
    Ensures (syscallIpcPortSend kernelVm supply current u uvaddr vpage ipch s) fun r => ∃ l' q',
      VmOwned kernelVm r.1.vm l' (heldBy q') ∧ QueuedPages r.1.ipc q' ∧
      (∀ x, r.2 = .ok x → Restored kernelVm u uvaddr s.vm r.1.vm l l') ∧
      ∀ e, r.2 = .error e → vpage ≠ 0 ∧ ¬ MappedAt s.vm.mem u (pageFloor vpage) ∨
        ∃ page ipc', (page = none ↔ vpage = 0) ∧
          ipcPortSendPage true current ipch page s.ipc = .ok (ipc', .error e) := by
  rw [syscallIpcPortSend, hmem]
  refine ((h.wireHeader hu hk hr).and (vmWire_adds false)).bind ?_
  rintro ⟨v, kvaddr, off⟩ ⟨⟨l₁, h₁, hw, -, ho, -⟩, ha, -⟩
  -- nothing is faulted in for a header that is read
  have ha : Adds kernelVm s.vm.mem v.mem fun _ _ => False :=
    ha.mono fun _ _ hA => absurd hA.1 Bool.false_ne_true
  have hb : ∀ w, MappedAt v.mem u w → MappedAt s.vm.mem u w :=
    fun w hm => (ha u hu w hm).resolve_right id
  refine (ipcPortSend_owned (s := { s with vm := v }) h₁ hq hu current ipch
    fun hz hm => (hwh hz (hb _ hm)).imp_right fun hrel =>
      hrel.of_adds hu ha (ho u hu)).bind ?_
  rintro ⟨s₂, r⟩ ⟨l₂, q₂, h₂, hq₂, hc, hkp, hbc, hal, he⟩
  cases r with
  | error e =>
    refine .ret ⟨l₂, q₂, h₂, hq₂, (fun _ h => by cases h), ?_⟩
    rintro e' ⟨⟩
    refine (he e rfl).imp_left (And.imp_right fun hun hm => hun ?_)
    obtain ⟨page, hp⟩ := h.mappedAt_iff.mp hm
    exact h₁.mappedAt_iff.mpr ⟨page, hw.faulted.keeps _ hp⟩
  | ok _ =>
    refine (h.unwireHeader hu hw h₂ hc (fun hone page hm => ?_) (fun w page hm => ?_)
      fun o _ page hm => hbc _ hm).bind ?_
    · exact hkp _ page hm (han hone)
    · rw [hal rfl]
      exact h₁.mem_allocs hu hm
    · rintro s₃ ⟨l₃, h₃, hrs⟩
      exact .ret ⟨l₃, q₂, h₃, hq₂, fun _ _ => hrs, fun _ h => by cases h⟩

theorem syscallIpcPortReceive_owned (h : VmOwned kernelVm s.vm l (heldBy q))
    (hq : QueuedPages s.ipc q) (hu : u ≠ kernelVm) (current : τ) (hmem : supply.mem = true)
    (hkr : ∀ T, (s.vm.index kernelVm).vmIndex.Represents T → Fresh supply.kernel₁ supply.kernel₂ T)
    (hus : ∀ T, (s.vm.index u).vmIndex.Represents T → Fresh supply.user₁ supply.user₂ T)
    (hr : HeaderReady kernelVm u supply uvaddr true s.vm) (port : UInt32) :
    Ensures (syscallIpcPortReceive kernelVm supply current u port uvaddr s) fun r => ∃ l' q',
      VmOwned kernelVm r.1.vm l' (heldBy q') ∧ QueuedPages r.1.ipc q' ∧
      (∀ x, r.2 = .ok x → Restored kernelVm u uvaddr s.vm r.1.vm l l') ∧
      ∀ e, r.2 = .error e → (∃ ipc', ipcPortDequeue current port s.ipc = .ok (ipc', .error e)) ∨
        (∃ m ∈ (queueOf s.ipc port).head?, m.ipcmsgPage ≠ none) ∧
          (¬ HasRoom (s.vm.index u) 1 ∨ supply.user₁ = none ∨ supply.user₂ = none) := by
  rw [syscallIpcPortReceive]
  refine (h.wireHeader hu hkr hr).bind ?_
  rintro ⟨v, kvaddr, off⟩ ⟨l₁, h₁, hw, hs, hot, hf⟩
  have hin := hot u hu
  refine (ipcPortReceive_owned (s := { s with vm := v }) h₁ hq hu current port hmem
    (by rw [hin]; exact hus) hs hf).bind ?_
  rintro ⟨s₂, r⟩ ⟨l₂, q₂, h₂, hq₂, hc, hk, he⟩
  rw [hin] at he
  cases r with
  | error e =>
    refine .ret ⟨l₂, q₂, h₂, hq₂, (fun _ h => by cases h), ?_⟩
    rintro e' ⟨⟩
    exact he e rfl
  | ok p =>
    refine (h.unwireHeader hu hw h₂ hc (fun _ page hm => hk _ hm)
      (fun w page hm => h₂.mem_allocs hu (hk _ hm)) fun o ho page hm => ?_).bind ?_
    -- nothing else is mapped there
    · obtain ⟨page', hm'⟩ := hw.mapped o ho
      rw [h₂.eq_of_mem_maps hm (hk _ hm')]
      exact hm'
    · rintro s₃ ⟨l₃, h₃, hrs⟩
      exact .ret ⟨l₃, q₂, h₃, hq₂, fun _ _ => hrs, fun _ h => by cases h⟩

end Messages

end Glatt
