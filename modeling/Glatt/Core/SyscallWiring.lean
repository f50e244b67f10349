import Glatt.Core.SyscallReturns

/-!
# What a system call leaves wired

The header of a message is wired while `syscall_ipc_port_send` and `syscall_ipc_port_receive` work
on it. They unwire it when they succeed, and return without that when they do not: the pages of the
header then keep a reference, and the kernel the addresses, of a mapping that no one knows of.

The references that the kernel holds to a page are what its count has besides the reference of the
allocation and those of the users' mappings.

## Main definitions

* `WiringSame`: nothing more is wired than before
* `Deliverable`, `Receivable`: calls that are not refused

## Main results

* `wiring_given_back`: a call that is not refused leaves nothing wired, after every run
* `refused_send_stays_wired`: a call that is refused does
-/

namespace Glatt

open Imperative Transition List

variable {ν ι τ : Type} [DecidableEq ν] [DecidableEq ι] [LinearOrder τ] {kernelVm u : ν}
  {v page : UInt64} {l l' : Ledger ν} {s s' : VmState ν ι} {held held' : UInt64 → ℕ}

/-! ## References from the kernel -/

def MapsTo (kernelVm : ν) (mem : MemState ν) (u : ν) (v page : UInt64) : Prop :=
  MappedAt mem u v ∧ pageExtract kernelVm u v mem = .ok (.ok page)

def userPlaces (kernelVm : ν) (mem : MemState ν) (page : UInt64) : Set (ν × UInt64) :=
  {m | m.1 ≠ kernelVm ∧ MapsTo kernelVm mem m.1 m.2 page}

/-- **The references to a page from the kernel's mappings**: what its count has besides the
reference of the allocation and those of users. -/
noncomputable def kernelRefs (kernelVm : ν) (mem : MemState ν) (page : UInt64) : ℤ :=
  (mem.pages.pgRefcnt page).toNat - 1 - (userPlaces kernelVm mem page).ncard

section

variable (h : VmOwned kernelVm s l held)
include h

omit [DecidableEq ι] in
theorem VmOwned.mapsTo_iff : MapsTo kernelVm s.mem u v page ↔ (u, v, page) ∈ l.maps := by
  constructor
  · rintro ⟨hmp, he⟩
    obtain ⟨q, hq⟩ := h.mappedAt_iff.mp hmp
    rw [h.pages.pageExtract hq] at he
    obtain rfl : q = page := by simpa using he
    exact hq
  · exact fun hm => ⟨h.mappedAt_iff.mpr ⟨page, hm⟩, h.pages.pageExtract hm⟩

omit h in
theorem Ledger.mapRefs_eq (kernelVm : ν) (l : Ledger ν) (page : UInt64) :
    l.mapRefs page = l.kernelRefs kernelVm page + (userPages kernelVm l.maps).count page := by
  have hs := (filter_append_perm (fun m => decide (m.1 = kernelVm)) l.maps).map fun m => m.2.2
  have hc := hs.count_eq page
  rw [map_append, count_append] at hc
  have hu : (l.maps.filter fun m => !decide (m.1 = kernelVm)) =
      l.maps.filter fun m => decide (m.1 ≠ kernelVm) := by
    simp only [decide_not]
  rw [hu] at hc
  rw [mapRefs, kernelRefs, kernelMaps, userPages]
  omega

omit [DecidableEq ι] in
theorem VmOwned.ncard_userPlaces :
    (userPlaces kernelVm s.mem page).ncard = (userPages kernelVm l.maps).count page := by
  let places := (l.maps.filter fun m => decide (m.1 ≠ kernelVm ∧ m.2.2 = page)).map
    fun m => (m.1, m.2.1)
  have hn : places.Nodup := by
    refine (h.pages.mapped.nodup.filter _).map_on ?_
    rintro ⟨u, v, p⟩ hm ⟨u', v', p'⟩ hm' heq
    obtain ⟨-, -, rfl⟩ : _ ∧ u ≠ kernelVm ∧ p = page := by simpa using hm
    obtain ⟨-, -, rfl⟩ : _ ∧ u' ≠ kernelVm ∧ p' = p := by simpa using hm'
    obtain ⟨rfl, rfl⟩ := Prod.mk.inj heq
    rfl
  have hs : userPlaces kernelVm s.mem page = ↑places.toFinset := by
    ext ⟨u, v⟩
    rw [userPlaces, Set.mem_ofPred_eq, h.mapsTo_iff]
    simp [places, and_comm]
  rw [hs, Set.ncard_coe_finset, toFinset_card_of_nodup hn, length_map, userPages,
    count, countP_map, countP_filter, ← countP_eq_length_filter]
  refine countP_congr fun m _ => ?_
  simp [and_comm]

omit [DecidableEq ι] in
theorem VmOwned.kernelRefs_eq (hp : page ∈ l.allocs) :
    kernelRefs kernelVm s.mem page = l.kernelRefs kernelVm page := by
  have hc := (h.pages.pgRefcnt hp).2
  rw [l.mapRefs_eq kernelVm] at hc
  rw [kernelRefs, h.ncard_userPlaces]
  omega

/-- **The wiring of a header is as before**: the kernel's references to its pages, where pages that
have been faulted in count as pages without any, and the kernel's addresses in use. -/
structure WiringSame (kernelVm u : ν) (uvaddr : UInt64) (s s' : VmState ν ι) : Prop where
  refs : ∀ o < (wirePages uvaddr sizeofIpcHeader).toNat, ∀ page,
    MapsTo kernelVm s.mem u (pageAt (pageFloor uvaddr) o) page →
      kernelRefs kernelVm s'.mem page = kernelRefs kernelVm s.mem page
  new : ∀ o < (wirePages uvaddr sizeofIpcHeader).toNat, ∀ page,
    ¬ MappedAt s.mem u (pageAt (pageFloor uvaddr) o) →
    MapsTo kernelVm s'.mem u (pageAt (pageFloor uvaddr) o) page →
      kernelRefs kernelVm s'.mem page = 0
  inUse : ∀ w, InUseAt (s'.index kernelVm) w ↔ InUseAt (s.index kernelVm) w

omit [DecidableEq ι] in
theorem Restored.wiringSame {uvaddr : UInt64} (hr : Restored kernelVm u uvaddr s s' l l')
    (hu : u ≠ kernelVm) (h' : VmOwned kernelVm s' l' held') :
    WiringSame kernelVm u uvaddr s s' := by
  refine ⟨fun o ho page hm => ?_, fun o ho page hn hm => ?_, hr.inUse⟩
  · rw [h.mapsTo_iff] at hm
    rw [h'.kernelRefs_eq (hr.allocs o ho page hm), h.kernelRefs_eq (h.mem_allocs hu hm),
      hr.kernel.kernelRefs]
  · rw [h'.mapsTo_iff] at hm
    rw [h'.kernelRefs_eq (h'.mem_allocs hu hm), hr.kernel.kernelRefs]
    rcases hr.new o ho page hm with hold | hz
    · exact absurd (h.mappedAt_iff.mpr ⟨page, hold⟩) hn
    · rw [l.mapRefs_eq kernelVm] at hz
      omega

end

theorem kernelRefs_sub (kernelVm : ν) {mem mem' : MemState ν} (hpm : mem'.pmap = mem.pmap)
    (ht : mem'.pages.pageTree = mem.pages.pageTree) (page : UInt64) :
    kernelRefs kernelVm mem' page - kernelRefs kernelVm mem page =
      (mem'.pages.pgRefcnt page).toNat - (mem.pages.pgRefcnt page).toNat := by
  have hp : userPlaces kernelVm mem' page = userPlaces kernelVm mem page := by
    simp only [userPlaces, MapsTo, MappedAt, pageExtract, pmapExtract, pageLookup, hpm, ht]
  rw [kernelRefs, kernelRefs, hp]
  omega

/-! ## Messages that are not refused -/

section Messages

variable {s : System ν ι τ} {current : τ} {ipch : IpcHeader} {ipc : IpcState τ}

/-- **A message that can be sent**: one without a type has no page, the task may receive on its
source port, and the destination lets it in. A page has to be mapped. -/
structure Deliverable (u : ν) (current : τ) (ipch : IpcHeader) (vpage : UInt64)
    (s : System ν ι τ) : Prop where
  typed : ipch.ipchdrMsg = ipcMsgNone → vpage = 0
  source : Holds s.ipc current ipch.ipchdrSrc receiveBit
  dest : ∃ dstp, s.ipc.ipcPorts ipch.ipchdrDst = some dstp ∧
    (dstp.ipcpFlags &&& ipcPortFlagPublic ≠ 0 ∨ ipch.ipchdrMsg = ipcMsgNone ∨
      dstp.HasRight current sendBit ∨ dstp.HasRight current sendOnceBit ∨
      dstp.HasRight current receiveBit)
  mapped : vpage ≠ 0 → MappedAt s.vm.mem u (pageFloor vpage)

/-- **A message can be received**: the task may receive on the port, there is a message, and there
is room for its page. -/
structure Receivable (u : ν) (supply : Supply ι) (current : τ) (port : UInt32)
    (s : System ν ι τ) : Prop where
  right : Holds s.ipc current port receiveBit
  queued : queueOf s.ipc port ≠ []
  room : ∀ m ∈ (queueOf s.ipc port).head?, m.ipcmsgPage ≠ none →
    HasRoom (s.vm.index u) 1 ∧ supply.user₁ ≠ none ∧ supply.user₂ ≠ none

omit [DecidableEq ν] [DecidableEq ι] in
theorem Deliverable.sends {vpage : UInt64} (h : Deliverable u current ipch vpage s)
    {page : Option UInt64} (hp : page = none ↔ vpage = 0) :
    Yields (ipcPortSendPage true current ipch page s.ipc) fun r => r.2 = .ok () := by
  obtain ⟨dstp, hd, hm⟩ := h.dest
  refine ipcPortSendPage_ok_iff.mono fun r hr => hr.mpr ?_
  refine ⟨fun hn => hp.mpr (h.typed hn), h.source, dstp, hd, ?_⟩
  rcases hm with hpub | hn | hi | hi | hi
  · exact .inl (.inr (.inl hpub))
  · exact .inl (.inl hn)
  · exact .inl (.inr (.inr (.inr hi)))
  · exact .inr hi
  · exact .inl (.inr (.inr (.inl hi)))

omit [DecidableEq ν] [DecidableEq ι] in
theorem Receivable.dequeues {supply : Supply ι} {port : UInt32}
    (h : Receivable u supply current port s) :
    Yields (ipcPortDequeue current port s.ipc) fun r => ∃ m, r.2 = .ok m := by
  rcases ipcPortDequeue_cases current with ⟨-, he⟩ | ⟨_, m, _, -, -, -, hc⟩
  · exact absurd (he h.right) h.queued
  · rw [hc]
    exact .ret ⟨m, rfl⟩

end Messages

/-! ## Every run -/

section Runs

variable {s₀ s : System ν ι τ} {taskVm : τ → ν} {task : τ} {env : SyscallEnv ι}

theorem PagesSound.send_restores (hs : PagesSound kernelVm s)
    (hc : UserCall kernelVm taskVm s task env) {uvaddr vpage : UInt64}
    (hm : SyscallHandler.ipcPortSend.Met kernelVm (taskVm task) env (uvaddr, vpage) s)
    (hsn : Deliverable (taskVm task) task env.ipch vpage s) :
    Ensures (Glatt.syscall kernelVm env task (taskVm task) 0x11 2 (uvaddr, vpage) s) fun r =>
      r.2 = .returned none 0 uvaddr ∧ WiringSame kernelVm (taskVm task) uvaddr s.vm r.1.vm := by
  obtain ⟨l, q, h, hq⟩ := hs
  obtain ⟨hmem, hr, hw, ha⟩ := hm
  have hrun := syscallIpcPortSend_owned h hq hc.user task hmem hc.freshKernel hr hw ha env.ipch
  obtain ⟨⟨s', r⟩, ho, l', q', h', -, hrs, he⟩ := hrun
  have hh : SyscallHandler.ipcPortSend.run kernelVm env task (taskVm task) (uvaddr, vpage) s =
      .ok (s', r.map fun _ => uvaddr) := by
    rw [SyscallHandler.run, Syscall.run, ho]
    rfl
  cases r with
  | error e =>
    -- neither the page nor the message is refused
    rcases he e rfl with ⟨hz, hu⟩ | ⟨page, ipc', hp, hst⟩
    · exact absurd (hsn.mapped hz) hu
    · cases hsn.sends hp _ hst
  | ok x =>
    change Ensures (SyscallHandler.ipcPortSend.run kernelVm env task (taskVm task) (uvaddr, vpage) s
      >>= _) _
    rw [hh]
    exact .ret ⟨rfl, (hrs x rfl).wiringSame h hc.user h'⟩

theorem PagesSound.receive_restores (hs : PagesSound kernelVm s)
    (hc : UserCall kernelVm taskVm s task env) {port uvaddr : UInt64}
    (hmet : SyscallHandler.ipcPortReceive.Met kernelVm (taskVm task) env (port, uvaddr) s)
    (hr : Receivable (taskVm task) env.toSupply task port.toUInt32 s) :
    Ensures (Glatt.syscall kernelVm env task (taskVm task) 0x13 2 (port, uvaddr) s) fun r =>
      (∃ param, r.2 = .returned none 1 param) ∧
        WiringSame kernelVm (taskVm task) uvaddr s.vm r.1.vm := by
  obtain ⟨l, q, h, hq⟩ := hs
  obtain ⟨hmem, hrd⟩ := hmet
  have hrun := syscallIpcPortReceive_owned h hq hc.user task hmem hc.freshKernel
    hc.freshUser hrd port.toUInt32
  obtain ⟨⟨s', r⟩, ho, l', q', h', -, hrs, he⟩ := hrun
  cases r with
  | error e =>
    rcases he e rfl with ⟨ipc', hrf⟩ | ⟨⟨m, hm, hp⟩, hno⟩
    · obtain ⟨m, hm⟩ := hr.dequeues _ hrf
      cases hm
    · obtain ⟨hrm, hu₁, hu₂⟩ := hr.room m hm hp
      rcases hno with hno | hno | hno
      · exact absurd hrm hno
      · exact absurd hno hu₁
      · exact absurd hno hu₂
  | ok x =>
    change Ensures (syscallIpcPortReceive kernelVm env.toSupply task (taskVm task) port.toUInt32
      uvaddr s >>= _) _
    rw [ho]
    exact .ret ⟨⟨x, rfl⟩, (hrs x rfl).wiringSame h hc.user h'⟩

end Runs

/-! ## A user with a page and a port -/

def selfEnv : SyscallEnv ℕ := { emptyEnv with ipch := ⟨3, 3, 0, 1, 0, 0⟩ }

theorem userCall_selfEnv (s : System ℕ ℕ ℕ) : UserCall 0 (fun _ => 1) s 7 selfEnv :=
  ⟨Nat.one_ne_zero, fun _ _ => ⟨nofun, nofun, nofun⟩, fun _ _ => ⟨nofun, nofun, nofun⟩⟩

def getPort : KernelEvent ℕ ℕ := .syscall 7 emptyEnv 0x10 1 (0, 0)

theorem getPort_met {s : System ℕ ℕ ℕ} (hs : OnePage s) : getPort.Met 0 (fun _ => 1) s := by
  intro sv hsv _
  obtain rfl := Option.some.inj hsv
  exact ⟨rfl, 3, UInt32.le_refl 3, by rw [hs.ports]; rfl⟩

theorem getPort_step {s : System ℕ ℕ ℕ} (hs : OnePage s) :
    ∃ s', KernelStep 0 (fun _ => 1) s getPort s' ∧ s'.vm = s.vm ∧ Holds s'.ipc 7 3 receiveBit := by
  obtain ⟨vm, ipc⟩ := s
  obtain rfl : ipc = bootSystem.ipc := hs.ports
  exact ⟨_, .syscall (userCall_emptyEnv _) rfl, rfl, _, rfl, by decide⟩

theorem headerReady_onePage {s : System ℕ ℕ ℕ} (hs : OnePage s) (supply : Supply ℕ) :
    HeaderReady 0 1 supply 8192 false s.vm := by
  have hone : wirePages 8192 sizeofIpcHeader = 1 := by decide
  refine ⟨fun o ho => .inl ?_, fun hne => absurd hone hne, fun p => ?_, ?_⟩
  · exact hs.freeable.mapped o ho
  · have := hs.counts p
    omega
  · rw [hone]
    exact hs.free

section Runs

variable {s₀ s : System ν ι τ} {taskVm : τ → ν} {task : τ} {env : SyscallEnv ι}

/-- **Nothing is left wired**: after every run of calls and faults of users that had what they need,
a message that can be sent or received is, and the kernel has the references to the pages of the
header and the addresses in use that it had before. -/
theorem wiring_given_back (hboot : Booted kernelVm s₀)
    {h : List (System ν ι τ × KernelEvent ι τ)} (hr : Run (KernelStep kernelVm taskVm) s₀ h s)
    (hmet : ∀ e ∈ h, e.2.Met kernelVm taskVm e.1) (hcall : UserCall kernelVm taskVm s task env) :
    (∀ uvaddr vpage, SyscallHandler.ipcPortSend.Met kernelVm (taskVm task) env (uvaddr, vpage) s →
      Deliverable (taskVm task) task env.ipch vpage s →
      ∃ s', syscall kernelVm env task (taskVm task) 0x11 2 (uvaddr, vpage) s =
          .ok (s', .returned none 0 uvaddr) ∧
        WiringSame kernelVm (taskVm task) uvaddr s.vm s'.vm) ∧
    ∀ port uvaddr, SyscallHandler.ipcPortReceive.Met kernelVm (taskVm task) env (port, uvaddr) s →
      Receivable (taskVm task) env.toSupply task port.toUInt32 s →
      ∃ s' param, syscall kernelVm env task (taskVm task) 0x13 2 (port, uvaddr) s =
          .ok (s', .returned none 1 param) ∧
        WiringSame kernelVm (taskVm task) uvaddr s.vm s'.vm := by
  have hs : PagesSound kernelVm s := PagesSound.run hboot hr hmet
  refine ⟨fun uvaddr vpage hm hsn => ?_, fun port uvaddr hm hrc => ?_⟩
  · obtain ⟨⟨s', r⟩, hrun, hret, hsm⟩ := hs.send_restores hcall hm hsn
    subst hret
    exact ⟨s', hrun, hsm⟩
  · obtain ⟨⟨s', r⟩, hrun, ⟨param, hret⟩, hsm⟩ := hs.receive_restores hcall hm hrc
    subst hret
    exact ⟨s', param, hrun, hsm⟩

end Runs

/-- A message of the user to itself leaves nothing wired. -/
theorem wiring_given_back_self : ∃ s s' : System ℕ ℕ ℕ,
    syscall 0 selfEnv 7 1 0x11 2 (8192, 0) s = .ok (s', .returned none 0 8192) ∧
      WiringSame 0 1 8192 s.vm s'.vm := by
  obtain ⟨s₁, hst₁, hs₁⟩ := getPage_step
  obtain ⟨s, hst, hvm, hr⟩ := getPort_step hs₁
  have hm : ∀ e ∈ ([] ++ [(bootSystem, getPage)]) ++ [(s₁, getPort)], e.2.Met 0 (fun _ => 1) e.1 :=
    forall_mem_append.mpr ⟨forall_mem_singleton.mpr getPage_met,
      forall_mem_singleton.mpr (getPort_met hs₁)⟩
  obtain ⟨ipcp, hp, hh⟩ := hr
  refine ⟨s, (wiring_given_back booted_bootSystem ((Run.nil.snoc hst₁).snoc hst) hm
    (userCall_selfEnv s)).1 8192 0 ⟨rfl, ?_, fun h => absurd rfl h, fun _ h => absurd rfl h⟩
    ⟨fun _ => rfl, ⟨ipcp, hp, hh⟩, ⟨ipcp, hp, ?_⟩, fun h => absurd rfl h⟩⟩
  · rw [hvm]
    exact headerReady_onePage hs₁ _
  · exact .inr (.inr (.inr (.inr hh)))

/-- **A send that is refused stays wired**: the header names no port. The call returns an error, and
the page of the header has a reference more, though no user has mapped it again. -/
theorem refused_send_stays_wired : Booted 0 bootSystem ∧ ∃ s s' : System ℕ ℕ ℕ,
    KernelStep 0 (fun _ => 1) bootSystem getPage s ∧ UserCall 0 (fun _ => 1) s 7 emptyEnv ∧
      syscall 0 emptyEnv 7 1 0x11 2 (8192, 0) s = .ok (s', .returned (some .invalid) 0 8192) ∧
      ¬ WiringSame 0 1 8192 s.vm s'.vm := by
  obtain ⟨s, s', hs, hrun, hp, ht, page, hm, hc, hc'⟩ : ∃ s s',
      KernelStep 0 (fun _ => 1) bootSystem getPage s ∧
      syscall 0 emptyEnv 7 1 0x11 2 (8192, 0) s = .ok (s', .returned (some .invalid) 0 8192) ∧
      s'.vm.mem.pmap = s.vm.mem.pmap ∧ s'.vm.mem.pages.pageTree = s.vm.mem.pages.pageTree ∧
      ∃ page, MapsTo 0 s.vm.mem 1 8192 page ∧ (s.vm.mem.pages.pgRefcnt page).toNat = 2 ∧
        (s'.vm.mem.pages.pgRefcnt page).toNat = 3 :=
    ⟨_, _, .syscall userCall_userEnv rfl, rfl, rfl, rfl, _, ⟨⟨rfl, by decide⟩, rfl⟩,
      by decide +kernel, by decide +kernel⟩
  refine ⟨booted_bootSystem, s, s', hs, userCall_emptyEnv s, hrun, fun hsm => ?_⟩
  have hr := hsm.refs 0 (by decide) page hm
  have hsub := kernelRefs_sub 0 hp ht page
  omega

end Glatt
