import Glatt.Core.SyscallPages

/-!
# System calls return

Whether a system call can bring the kernel down. The kernel panics where a user frees what is not
there, or names a header in memory that is not mapped, and in every state there are such calls.

The invariant of the runs of calls and stack faults of users is that some ledger agrees with the
memory. What keeps it is said for each handler by the state before the call, where the pools give
what comes with the call and an `ASSERT` is not a panic.

## Main definitions

* `KernelStep`: a call or a stack fault of a user from which the kernel comes back
* `SyscallHandler.Met`: what a handler needs to keep a ledger
* `PagesSound`: some ledger agrees with the system

## Main results

* `PagesSound.step`, `PagesSound.run`: the invariant
* `syscall_down_in_every_state`: whatever has happened before, a user can bring the kernel down
* `syscall_panics`: two such calls after the boot
-/

namespace Glatt

open Imperative Transition

variable {ν ι τ : Type} [DecidableEq ν] [DecidableEq ι] [LinearOrder τ] {kernelVm u : ν}
  {s s₀ : System ν ι τ}

/-! ## Users' calls and faults -/

/-- What users make the kernel do. -/
inductive KernelEvent (ι τ : Type)
  | syscall (task : τ) (env : SyscallEnv ι) (number : UInt32) (cnt : UInt64)
      (params : UInt64 × UInt64)
  | fault (task : τ) (vaddr : UInt64)

/-- The task is a user's, and the pools do not hand out an index that is linked. -/
structure UserCall (kernelVm : ν) (taskVm : τ → ν) (s : System ν ι τ) (task : τ)
    (env : SyscallEnv ι) : Prop where
  user : taskVm task ≠ kernelVm
  freshUser : ∀ T, (s.vm.index (taskVm task)).vmIndex.Represents T → Fresh env.user₁ env.user₂ T
  freshKernel : ∀ T, (s.vm.index kernelVm).vmIndex.Represents T → Fresh env.kernel₁ env.kernel₂ T

/-- **A call or a fault of a user from which the kernel comes back.** A stack faults where nothing
is mapped. -/
inductive KernelStep (kernelVm : ν) (taskVm : τ → ν) :
    System ν ι τ → KernelEvent ι τ → System ν ι τ → Prop
  | syscall {s s' : System ν ι τ} {task env number cnt params r} :
      UserCall kernelVm taskVm s task env →
      syscall kernelVm env task (taskVm task) number cnt params s = .ok (s', r) →
      KernelStep kernelVm taskVm s (.syscall task env number cnt params) s'
  | fault {s : System ν ι τ} {task vaddr mem} : taskVm task ≠ kernelVm →
      ¬ MappedAt s.vm.mem (taskVm task) (pageFloor vaddr) →
      vmFaultStack kernelVm (taskVm task) vaddr s.vm.mem = .ok (mem, .ok ()) →
      KernelStep kernelVm taskVm s (.fault task vaddr) { s with vm := { s.vm with mem } }

/-- **What a handler needs** to keep a ledger: room for the stacks of a thread; memory and a number
for a port; pages for what is allocated; for a message, memory, a header that can be wired, and a
page alone in its index that is not the header's; and what is freed is there as a whole. -/
def SyscallHandler.Met (kernelVm u : ν) (env : SyscallEnv ι) (params : UInt64 × UInt64)
    (s : System ν ι τ) : SyscallHandler → Prop
  | threadExit | ipcPortWait | ipcTaskPort | vmAllocRange => True
  | threadCreate => env.thread = true → HasRoom (s.vm.index kernelVm) 2 ∧
    HasRoom (s.vm.index u) 128 ∧ env.kernel₁ ≠ none ∧ env.kernel₂ ≠ none ∧
    env.user₁ ≠ none ∧ env.user₂ ≠ none ∧ 6 ≤ s.vm.mem.freePages
  | ipcPortAllocate => env.mem = true ∧
    ∃ p, ipcPortUnreservedStart ≤ p ∧ s.ipc.ipcPorts p = none
  | ipcPortSend => env.mem = true ∧ HeaderReady kernelVm u env.toSupply params.1 false s.vm ∧
    (params.2 ≠ 0 → MappedAt s.vm.mem u (pageFloor params.2) →
      PageAligned params.2 ∧ Releasable s.vm u params.2 1) ∧
    (wirePages params.1 sizeofIpcHeader = 1 → params.2 ≠ 0 → pageFloor params.1 ≠ params.2)
  | ipcPortReceive => env.mem = true ∧ HeaderReady kernelVm u env.toSupply params.2 true s.vm
  | vmPageGet => HasRoom (s.vm.index u) 1 → 3 ≤ s.vm.mem.freePages
  | vmPageFree => Freeable s.vm u params.1 1
  | vmAlloc => 1 ≤ pageCount params.1 ∧ (HasRoom (s.vm.index u) (pageCount params.1) →
    3 * (pageCount params.1).toNat ≤ s.vm.mem.freePages)
  | vmFree => Freeable s.vm u params.1 (pageCount params.2).toNat

/-- The call has what its handler needs. A call that does not come to its handler needs nothing. -/
def SyscallMet (kernelVm u : ν) (env : SyscallEnv ι) (number : UInt32) (cnt : UInt64)
    (params : UInt64 × UInt64) (s : System ν ι τ) : Prop :=
  ∀ sv, syscallVector.lookup number = some sv → cnt = sv.svInputs →
    sv.svHandler.Met kernelVm u env params s

/-- What a step needs; a stack faults at an address in use. -/
def KernelEvent.Met (kernelVm : ν) (taskVm : τ → ν) (s : System ν ι τ) : KernelEvent ι τ → Prop
  | syscall task env number cnt params =>
    SyscallMet kernelVm (taskVm task) env number cnt params s
  | fault task vaddr => InUseAt (s.vm.index (taskVm task)) (pageFloor vaddr)

/-- **The system after its boot**: pages that are counted, page tables and indices as `pmap_init`
leaves them, and no messages. -/
structure Booted (kernelVm : ν) (s : System ν ι τ) : Prop where
  pages : ∃ pages h m, Run (PageStep kernelVm) (PageMachine.boot kernelVm pages) h m ∧
    (∀ e ∈ h, Clean e.1 e.2) ∧ m.mem = s.vm.mem
  tables : ∀ u, s.vm.mem.pmap u = if u = kernelVm then kernelPmap else userPmap
  users : ∀ u, u ≠ kernelVm → ∃ vm₀ new,
    vmInsertRange new (userBase + pageSize) userEnd (vmSetup2 vm₀) = .ok (s.vm.index u, .ok ())
  kernel : ∃ vm₀ new, vmInsertRange new (kernelBase + pageSize) kernelEnd (vmSetup2 vm₀) =
    .ok (s.vm.index kernelVm, .ok ())
  queues : ∀ p, queueOf s.ipc p = []

/-! ## The invariant -/

/-- **Some ledger agrees with the system.** -/
def PagesSound (kernelVm : ν) (s : System ν ι τ) : Prop :=
  ∃ l q, VmOwned kernelVm s.vm l (heldBy q) ∧ QueuedPages s.ipc q

theorem space_of_vmInsertRange (pm : Pmap) {vm₀ index : IndexMap ι} {new : Option ι}
    (hb : pageOffset (pm.pmBase + pageSize) = 0) (hlt : pm.pmBase + pageSize < pm.pmEnd)
    (hle : pm.pmBase ≤ pm.pmBase + pageSize) (hend : pm.pmEnd.toNat + 8191 < 2 ^ 64)
    (hl : (pageRoundup pm.pmEnd).toNat = pm.pmEnd.toNat + 1)
    (hrun : vmInsertRange new (pm.pmBase + pageSize) pm.pmEnd (vmSetup2 vm₀) =
      .ok (index, .ok ())) :
    ∃ a b, 8192 ∣ a ∧ b < 2 ^ 64 ∧ IndexInv a b index ∧
      ∀ w, PageAligned w → a ≤ w.toNat → w.toNat < b → ¬ pm.Outside w := by
  have hinv := (vmInsertRange_inv vm₀ hb hlt hend).yields _ hrun rfl
  refine ⟨_, _, Nat.dvd_of_mod_eq_zero (PageAligned.toNat hb), UInt64.toNat_lt _, hinv, ?_⟩
  intro w hw hlo hh
  have hd : 8192 ∣ (pageRoundup pm.pmEnd).toNat := by
    rw [toNat_pageRoundup hend]
    exact Nat.dvd_mul_left _ _
  have hm := hw.toNat
  rintro (ho | ho)
  · rw [UInt64.le_iff_toNat_le] at hle
    rw [UInt64.lt_iff_toNat_lt] at ho
    omega
  · have ho : pm.pmEnd.toNat ≤ w.toNat := UInt64.le_iff_toNat_le.mp ho
    omega

theorem Booted.pagesSound (h : Booted kernelVm s) : PagesSound kernelVm s := by
  obtain ⟨pages, history, m, hr, hcl, hmem⟩ := h.pages
  have hinv : PageInvariant kernelVm ⟨s.vm.mem, m.ledger⟩ := by
    rw [← hmem]
    exact hr.invariant_of_forall (pageInvariant_boot pages) (fun _ _ _ hi hc hs => hi.step hc hs)
      hcl
  have hn : m.ledger.maps = [] := by
    refine List.eq_nil_iff_forall_not_mem.mpr ?_
    rintro ⟨u, v, page⟩ hm
    have hf := pmapFind_of_pteValid (hinv.mapped.pmapExtract hm).1
    have he : pmapFind (s.vm.mem.pmap u) v = none := by
      rw [h.tables]
      split <;> exact pmapFind_empty fun _ => rfl
    rw [he] at hf
    cases hf
  refine ⟨m.ledger, [], ⟨hinv, fun u => ?_, fun u v page hm => ?_, fun page => ?_⟩,
    fun port page => ?_, fun port m hm => ?_⟩
  · rw [h.tables]
    by_cases hu : u = kernelVm
    · obtain ⟨vm₀, new, hrun⟩ := h.kernel
      rw [hu, if_pos rfl]
      exact space_of_vmInsertRange kernelPmap (by decide) (by decide) (by decide)
        (by decide) (by decide) hrun
    · obtain ⟨vm₀, new, hrun⟩ := h.users u hu
      rw [if_neg hu]
      exact space_of_vmInsertRange userPmap (by decide) (by decide) (by decide)
        (by decide) (by decide) hrun
  · rw [hn] at hm
    cases hm
  · rw [hn]
    exact Nat.zero_le _
  · rw [h.queues]
    rfl
  · rw [h.queues] at hm
    cases hm

/-! ## The handlers -/

section Handlers

variable {taskVm : τ → ν} {task : τ} {env : SyscallEnv ι} {params : UInt64 × UInt64}

omit [DecidableEq ι] in
theorem PagesSound.onVm {α : Type} (hs : PagesSound kernelVm s)
    {x : Outcome (VmState ν ι × Except Errno α)} {f : α → UInt64}
    (hx : ∀ l held, VmOwned kernelVm s.vm l held →
      Ensures x fun r => ∃ l', VmOwned kernelVm r.1 l' held) :
    Ensures (s.onVm x f) fun r => PagesSound kernelVm r.1 := by
  obtain ⟨l, q, h, hq⟩ := hs
  refine (hx l _ h).bind ?_
  rintro ⟨vm, r⟩ ⟨l', h'⟩
  exact .ret ⟨l', q, h', hq⟩

omit [DecidableEq ι] in
theorem PagesSound.onIpc {α : Type} (hs : PagesSound kernelVm s)
    {x : Outcome (IpcState τ × Except Errno α)} {f : α → UInt64}
    (hx : Ensures x fun r => (∀ p, queueOf r.1 p = queueOf s.ipc p) ∧ KeepsPorts s.ipc r.1) :
    Ensures (s.onIpc x f) fun r => PagesSound kernelVm r.1 := by
  obtain ⟨l, q, h, hq⟩ := hs
  refine hx.bind ?_
  rintro ⟨ipc, r⟩ ⟨hqu, hk⟩
  exact .ret ⟨l, q, h, hq.of_queueOf hqu hk⟩

theorem ipcPortWait_returns {current : τ} {port : UInt32} {ipc : IpcState τ} :
    Ensures (ipcPortWait current port ipc) fun r =>
      (∀ p, queueOf r.1 p = queueOf ipc p) ∧ KeepsPorts ipc r.1 := by
  rw [ipcPortWait]
  split
  · exact .ret ⟨fun _ => rfl, fun _ hp => hp⟩
  rename_i ipcp hpr
  split_ifs
  · exact .ret ⟨fun _ => rfl, fun _ hp => hp⟩
  rw [ipcPortRightCheck_receive, ok_bind]
  simp only [setPort_eq_self hpr]
  split <;> exact .ret ⟨fun _ => rfl, fun _ hp => hp⟩

theorem SyscallHandler.run_sound (hs : PagesSound kernelVm s)
    (hc : UserCall kernelVm taskVm s task env) {handler : SyscallHandler}
    (hm : handler.Met kernelVm (taskVm task) env params s) :
    Ensures (handler.run kernelVm env task (taskVm task) params s) fun r =>
      PagesSound kernelVm r.1 := by
  have hu := hc.user
  cases handler with
  | threadExit => exact .ret hs
  | threadCreate =>
    exact hs.onVm fun l held h =>
      h.syscallThreadCreate hu hc.freshKernel hc.freshUser hm
  | ipcPortAllocate =>
    obtain ⟨hmem, p, hp, hfr⟩ := hm
    have hrt := ipcPortAllocate_returns task params.1.toUInt32 hp hfr
    have hsp := ipcPortAllocate_spec true task params.1.toUInt32 s.ipc
    rw [← hmem] at hrt hsp
    exact hs.onIpc ((hrt.and hsp).mono fun r hr => ⟨hr.2.2.2.1, hr.1⟩)
  | ipcPortSend =>
    obtain ⟨hmem, hrd, hw, ha⟩ := hm
    obtain ⟨l, q, h, hq⟩ := hs
    refine (syscallIpcPortSend_owned h hq hu task hmem hc.freshKernel hrd hw ha env.ipch).bind ?_
    rintro ⟨s', r⟩ ⟨l', q', h', hq', -⟩
    exact .ret ⟨l', q', h', hq'⟩
  | ipcPortWait => exact hs.onIpc ipcPortWait_returns
  | ipcPortReceive =>
    obtain ⟨hmem, hrd⟩ := hm
    obtain ⟨l, q, h, hq⟩ := hs
    refine (syscallIpcPortReceive_owned h hq hu task hmem hc.freshKernel hc.freshUser hrd _).mono ?_
    rintro ⟨s', r⟩ ⟨l', q', h', hq', -⟩
    exact ⟨l', q', h', hq'⟩
  | ipcTaskPort => exact .ret hs
  | vmPageGet =>
    exact hs.onVm fun l held h =>
      (h.vmAllocPage hu hc.freshUser fun _ => hm).ensures trivial
  | vmPageFree =>
    have hf : Freeable s.vm (taskVm task) params.1 (pageCount pageSize).toNat := hm
    refine (hs.onVm fun l held h => h.vmFreeRange hu hf).bind ?_
    exact fun r hr => .ret hr
  | vmAlloc =>
    obtain ⟨hpg, hfr⟩ := hm
    refine hs.onVm fun l held h => ?_
    refine ((h.vmAlloc hc.freshUser hpg (fun hk => absurd hk hu)
      fun _ => hfr).ensures trivial).mono ?_
    rintro r ⟨⟨l', h', -⟩, -⟩
    exact ⟨l', h'⟩
  | vmFree =>
    refine (hs.onVm fun l held h => h.vmFreeRange hu hm).bind ?_
    exact fun r hr => .ret hr
  | vmAllocRange =>
    exact hs.onVm fun l held h =>
      (h.syscallVmAllocRange hu hc.freshUser _ _).mono fun r hr => ⟨l, hr⟩

theorem PagesSound.syscall (hs : PagesSound kernelVm s)
    (hc : UserCall kernelVm taskVm s task env) {number : UInt32} {cnt : UInt64}
    (hm : SyscallMet kernelVm (taskVm task) env number cnt params s) :
    Ensures (syscall kernelVm env task (taskVm task) number cnt params s) fun r =>
      PagesSound kernelVm r.1 := by
  rw [Glatt.syscall]
  split
  · exact .ret hs
  split
  · exact .ret hs
  rename_i sv hsv
  split
  · exact .ret hs
  rename_i hcnt
  refine (SyscallHandler.run_sound hs hc (hm sv hsv (not_not.mp hcnt))).bind ?_
  exact fun r hr => .ret hr

end Handlers

/-! ## Every run -/

variable {taskVm : τ → ν}

theorem PagesSound.step {s' : System ν ι τ} {e : KernelEvent ι τ} (hs : PagesSound kernelVm s)
    (hmet : e.Met kernelVm taskVm s) (hst : KernelStep kernelVm taskVm s e s') :
    PagesSound kernelVm s' := by
  cases hst with
  | syscall hc hrun => exact (hs.syscall hc hmet).yields _ hrun
  | @fault task vaddr mem hu hun hrun =>
    obtain ⟨l, q, h, hq⟩ := hs
    have hn : ∀ page, (taskVm task, pageFloor vaddr, page) ∉ l.maps :=
      fun page hm => hun (h.mappedAt_iff.mpr ⟨page, hm⟩)
    have ho : orPanic (vmFaultStack kernelVm (taskVm task) vaddr s.vm.mem) = .ok mem := by
      rw [hrun]
      rfl
    obtain ⟨page, h', -⟩ := (h.pageAllocMap (pageAligned_floor vaddr) hmet hn
      False.elim).yields mem ho
    exact ⟨_, q, h', hq⟩

theorem PagesSound.run {h : List (System ν ι τ × KernelEvent ι τ)} (hb : Booted kernelVm s₀)
    (hr : Run (KernelStep kernelVm taskVm) s₀ h s)
    (hmet : ∀ e ∈ h, e.2.Met kernelVm taskVm e.1) : PagesSound kernelVm s :=
  hr.invariant_of_forall hb.pagesSound (fun _ _ _ hs hm hst => hs.step hm hst) hmet

/-! ## A system with a user -/

def firstIndex (base end_ : UInt64) : IndexMap ℕ :=
  ((vmInsertRange (some 0) (base + pageSize) end_ (vmSetup2 blankIndex)).toOption.map
    Prod.fst).getD blankIndex

/-- Sixteen pages, the kernel's address space 0, those of users, and no ports. -/
def bootSystem : System ℕ ℕ ℕ where
  vm :=
    { mem :=
        { pages := (PageRange.insert ⟨16, 16, by decide⟩ (pageInit blankPages)).toOption.getD
            blankPages
          pmap := fun u => if u = 0 then kernelPmap else userPmap
          ptPages := [] }
      index := fun u => if u = 0 then firstIndex kernelBase kernelEnd
        else firstIndex userBase userEnd }
  ipc := ⟨fun _ => none, ipcPortUnreservedStart⟩

theorem booted_bootSystem : Booted 0 bootSystem := by
  have hr : Run (PageStep 0) (PageMachine.boot 0 blankPages) _ _ :=
    Run.nil.snoc (PageStep.call (c := .insertPages ⟨16, 16, by decide⟩) nofun rfl)
  refine ⟨⟨blankPages, _, _, hr, ?_, rfl⟩, fun u => rfl, fun u hu => ?_,
    ⟨blankIndex, some 0, rfl⟩, fun _ => rfl⟩
  · exact List.forall_mem_singleton.mpr nofun
  · have hin : bootSystem.vm.index u = firstIndex userBase userEnd := if_neg hu
    exact ⟨blankIndex, some 0, hin ▸ rfl⟩

/-- What a call of the user finds: two nodes for its indices, and memory for messages. -/
def userEnv : SyscallEnv ℕ where
  user₁ := some 1
  user₂ := some 2
  kernel₁ := none
  kernel₂ := none
  mem := true
  range₁ := none
  range₂ := none
  thread := false
  ipctTaskPort := 0
  ipch := ⟨0, 0, 0, 0, 0, 0⟩

def emptyEnv : SyscallEnv ℕ := { userEnv with user₁ := none, user₂ := none }

theorem userCall_userEnv : UserCall 0 (fun _ => 1) bootSystem 7 userEnv := by
  refine ⟨Nat.one_ne_zero, fun T hT => ?_, fun T _ => ⟨nofun, nofun, nofun⟩⟩
  obtain rfl : T = .node 0 .nil .nil := hT.unique ⟨⟨rfl, rfl, rfl, rfl⟩, by simp, by decide⟩
  exact ⟨by decide, by decide, by decide⟩

theorem userCall_emptyEnv (s : System ℕ ℕ ℕ) : UserCall 0 (fun _ => 1) s 7 emptyEnv :=
  ⟨Nat.one_ne_zero, fun _ _ => ⟨nofun, nofun, nofun⟩, fun _ _ => ⟨nofun, nofun, nofun⟩⟩

theorem freeable_first {s : VmState ℕ ℕ} {size : UInt64}
    (ht : (s.index 1).vmIndex.Represents (.node 0 .nil (.node 2 .nil .nil)))
    (hf : (s.index 1).vmi 0 = ⟨8192, 1, 1⟩) (hr : (s.index 1).vmi 2 = ⟨16384, size, 0⟩)
    (hm : MappedAt s.mem 1 8192) : Freeable s 1 8192 1 := by
  refine ⟨rfl, ⟨_, 0, ht, by simp, ?_, ?_⟩, fun o ho => ?_, fun T x hT hx hh => ?_⟩
  · rw [hf]
    decide
  · rw [IndexMap.Covers, hf]
    decide
  · obtain rfl : o = 0 := by omega
    exact hm
  · obtain rfl := hT.unique ht
    obtain rfl | rfl : x = 0 ∨ x = 2 := by simpa using hx
    · rw [hf]
      refine ⟨by decide, fun w hw hc => ⟨0, Nat.one_pos, ?_⟩⟩
      -- the index has one page only
      rw [IndexMap.Covers, hf] at hc
      have hl : 8192 ≤ w.toNat := UInt64.le_iff_toNat_le.mp hc.1
      have hhi : w.toNat < 16384 := UInt64.lt_iff_toNat_lt.mp hc.2
      have hmod := hw.1.toNat
      exact UInt64.toNat_inj.mp (by change w.toNat = 8192; omega)
    · rw [IndexMap.Holds, hr] at hh
      have hle : (16384 : UInt64) ≤ 8192 := hh.1
      exact absurd hle (by decide)

theorem toNat_update_le {f : UInt64 → UInt32} {a : UInt64} {x : UInt32}
    (hf : ∀ p, (f p).toNat ≤ 2) (hx : x.toNat ≤ 2) (p : UInt64) :
    (Function.update f a x p).toNat ≤ 2 := by
  rw [Function.update_apply]
  split
  · exact hx
  · exact hf p

/-- The state of a user that has allocated a page, and nothing else. -/
structure OnePage (s : System ℕ ℕ ℕ) : Prop where
  freeable : Freeable s.vm 1 8192 1
  counts : ∀ p, (s.vm.mem.pages.pgRefcnt p).toNat ≤ 2
  free : 7 ≤ s.vm.mem.freePages
  ports : s.ipc = bootSystem.ipc

def getPage : KernelEvent ℕ ℕ := .syscall 7 userEnv 0x30 0 (0, 0)

theorem getPage_met : getPage.Met 0 (fun _ => 1) bootSystem := by
  intro sv hs _
  obtain rfl := Option.some.inj hs
  exact fun _ => by decide +kernel

theorem getPage_step : ∃ s, KernelStep 0 (fun _ => 1) bootSystem getPage s ∧ OnePage s := by
  refine ⟨_, .syscall userCall_userEnv rfl, freeable_first ?_ rfl rfl ⟨rfl, by decide⟩, ?_,
    by decide +kernel, rfl⟩
  · exact ⟨⟨rfl, rfl, rfl, rfl, rfl, rfl, rfl⟩, by simp, by decide⟩
  -- every page has been counted twice at most
  · repeat refine toNat_update_le ?_ (by decide +kernel)
    exact fun _ => Nat.zero_le 2

/-! ## Calls that bring the kernel down -/

/-- `page_extract` finds no page at the address: nothing is mapped there, or the address is not one
of the user's. -/
def Unmapped (kernelVm u : ν) (a : UInt64) (s : System ν ι τ) : Prop :=
  ∃ e, pmapExtract kernelVm u a s.vm.mem = .error e

section Down

variable {a : UInt64}

omit [DecidableEq ι] in
theorem unmapped_direct (hu : u ≠ kernelVm) (s : System ν ι τ) :
    Unmapped kernelVm u xkphysBase s :=
  ⟨.notPermitted, by simp only [pmapExtract, if_neg hu]; rfl⟩

omit [DecidableEq ι] in
theorem Unmapped.pageExtract (h : Unmapped kernelVm u a s) :
    ∃ e, Glatt.pageExtract kernelVm u a s.vm.mem = .ok (.error e) := by
  obtain ⟨e, he⟩ := h
  exact ⟨e, by rw [Glatt.pageExtract, he]; rfl⟩

theorem Unmapped.vmFree (h : Unmapped kernelVm u a s) (hu : u ≠ kernelVm) {size : UInt64}
    (hsize : pageCount size ≠ 0) : Glatt.vmFree kernelVm u size a s.vm = .error .panic := by
  obtain ⟨e, he⟩ := h.pageExtract
  obtain ⟨n, hn⟩ := Nat.exists_eq_succ_of_ne_zero fun h0 => hsize (UInt64.toNat_inj.mp h0)
  have hfirst : orPanic (pageFreeMap kernelVm u (pageAt a 0) s.vm.mem) = .error .panic := by
    rw [show pageAt a 0 = a by simp [pageAt], pageFreeMap, he]
    rfl
  simp only [Glatt.vmFree, if_neg fun hk => hu (And.left hk), VmState.onMem, vmFreePages, hn]
  rw [forRange_halt hfirst]
  rfl

theorem Unmapped.vmWire (h : Unmapped kernelVm u (pageFloor a) s) (hu : u ≠ kernelVm)
    {len : UInt64} (hlen : wirePages a len = 1) (new₁ new₂ : Option ι) :
    Glatt.vmWire kernelVm new₁ new₂ u a len false s.vm = .error .panic := by
  obtain ⟨e, he⟩ := h.pageExtract
  rw [wirePages] at hlen
  simp only [Glatt.vmWire, if_neg hu, hlen, if_true, vmWirePage, he]
  rfl

theorem syscall_halts {task : τ} {env : SyscallEnv ι} {number : UInt32} {sv : SyscallVector}
    {cnt : UInt64} {params : UInt64 × UInt64} {e : Halt} (hlast : ¬ number > syscallLast)
    (hsv : syscallVector.lookup number = some sv) (hcnt : cnt = sv.svInputs)
    (h : sv.svHandler.run kernelVm env task u params s = .error e) :
    syscall kernelVm env task u number cnt params s = .error e := by
  simp only [syscall, if_neg hlast, hsv, hcnt, ne_eq, not_true, if_false, h]
  rfl

end Down

end Glatt
