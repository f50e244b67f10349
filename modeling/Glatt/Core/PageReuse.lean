import Glatt.Core.Syscall
import Glatt.Lib.Transition
import Glatt.Vm.SameBytes

/-!
# What a page holds when it is obtained

Two runs of the kernel in which one task writes different bytes into its pages. Another task that
obtains pages by `vm_page_get` or `vm_alloc` gets the same addresses in both runs, and reads the
same bytes if every free page holds the same bytes. Pages are not cleared when they are freed or
allocated, so what the first task leaves in a page that it frees can be read by the other one.

Runs are of the six system calls on memory and of stores to it. What else the kernel does with pages
is not part of them.

## Main definitions

* `UserAct`, `UserStep`: the six system calls on memory, and stores of users
* `SameButWrites`: two runs that differ in what a task stores

## Main results

* `page_reuse_same`: the bytes of pages that a task obtains are the same in both runs, if those of
  the free pages are
* `page_reuse_leaks`: two runs in which they are not
-/

namespace Glatt

open Imperative Transition Function List Lockstep

variable {P A : UInt64 → Prop} {ν ι τ : Type} [DecidableEq ν] [DecidableEq ι] [LinearOrder τ]
  {kernelVm vm : ν} {current : τ} {supply : Supply ι}

/-- States of the system that differ in bytes only. -/
structure SameSystem (P A : UInt64 → Prop) (s t : System ν ι τ) : Prop where
  vm : SameVm P P A s.vm t.vm
  ipc : t.ipc = s.ipc

/-! ## System calls in two runs -/

section Calls

variable {s t : System ν ι τ}

theorem SameVm.ipcTakePage {s t : VmState ν ι} (h : SameVm P P A s t) (hvm : vm ≠ kernelVm)
    (vpage : UInt64) :
    Lockstep (Paired (SameVm P P A)) (ipcTakePage kernelVm vm vpage s)
      (ipcTakePage kernelVm vm vpage t) := by
  unfold Glatt.ipcTakePage
  rw [h.mem.pageExtract]
  refine bind_same fun r => ?_
  cases r with
  | error e => exact .ok ⟨h, rfl⟩
  | ok page =>
    simp only [hvm]
    refine (h.onMem h.mem.pageUnmap_orPanic).bind fun s' t' h' => ?_
    refine ((mk h'.1 h'.2).releaseAddress).bind fun s'' t'' h'' => ?_
    exact .ok ⟨h'', rfl⟩

section

variable (h : SameSystem P A s t)
include h

omit [DecidableEq ν] [DecidableEq ι] in
theorem SameSystem.sendTaken {mem : Bool} {ipch : IpcHeader} {page : Option UInt64} :
    Lockstep (Paired (SameSystem P A)) (ipcSendTaken mem current ipch page s)
      (ipcSendTaken mem current ipch page t) := by
  unfold ipcSendTaken
  rw [h.ipc]
  refine bind_same fun ⟨ipc, r⟩ => ?_
  cases r with
  | ok _ => exact .ok ⟨⟨h.vm, rfl⟩, rfl⟩
  | error e =>
    cases page with
    | none => exact .ok ⟨⟨h.vm, rfl⟩, rfl⟩
    | some page =>
      have hd := h.vm.mem.onPages (h.vm.mem.pages.drop page)
      refine (h.vm.onMem hd).bind fun v v' hv => ?_
      exact .ok ⟨⟨⟨hv.1, hv.2⟩, rfl⟩, rfl⟩

theorem SameSystem.ipcPortSend (hvm : vm ≠ kernelVm) (mem : Bool)
    (ipch : IpcHeader) (vpage : UInt64) :
    Lockstep (Paired (SameSystem P A)) (ipcPortSend kernelVm mem current vm ipch vpage s)
      (ipcPortSend kernelVm mem current vm ipch vpage t) := by
  unfold Glatt.ipcPortSend
  split
  · exact h.sendTaken
  · refine (h.vm.ipcTakePage hvm vpage).bind_paired fun v v' r hv => ?_
    cases r with
    | error e => exact .ok ⟨⟨hv, h.ipc⟩, rfl⟩
    | ok page =>
      have h' : SameSystem P A { s with vm := v } { t with vm := v' } := ⟨hv, h.ipc⟩
      exact h'.sendTaken

omit h in
theorem SameVm.ipcMapPage {s t : VmState ν ι} (h : SameVm P P A s t) (hvm : vm ≠ kernelVm)
    (new₁ new₂ : Option ι) (page : UInt64) :
    Lockstep (Paired (SameVm P P A)) (ipcMapPage kernelVm new₁ new₂ vm page s)
      (ipcMapPage kernelVm new₁ new₂ vm page t) := by
  simp only [Glatt.ipcMapPage, hvm, h.index]
  refine bind_same fun ⟨index, r⟩ => ?_
  have h' : SameVm P P A (s.setIndex vm index) (t.setIndex vm index) := h.setIndex index
  cases r with
  | error e =>
    refine (h'.onMem (h.mem.onPages (h.mem.pages.drop page))).bind fun s' t' h'' => ?_
    exact .ok ⟨⟨h''.1, h''.2⟩, rfl⟩
  | ok vaddr =>
    refine (h.mem.pageMap (fun _ h => h)).bind ?_
    rintro ⟨m, r⟩ ⟨m', r'⟩ ⟨hr, -, hmem⟩
    subst hr
    have h'' : SameVm P P A { s.setIndex vm index with mem := m }
        { t.setIndex vm index with mem := m' } := ⟨hmem, h'.index⟩
    cases r' with
    | ok _ => exact .ok ⟨h'', rfl⟩
    | error e =>
      refine h''.releaseAddress.bind fun s₁ t₁ h₁ => ?_
      refine (h₁.onMem (h₁.mem.onPages (h₁.mem.pages.drop page))).bind fun s₂ t₂ h₂ => ?_
      exact .ok ⟨⟨h₂.1, h₂.2⟩, rfl⟩

theorem SameSystem.ipcPortReceive (hvm : vm ≠ kernelVm) (port : UInt32) :
    Lockstep (Paired (SameSystem P A)) (ipcPortReceive kernelVm supply current vm port s)
      (ipcPortReceive kernelVm supply current vm port t) := by
  unfold Glatt.ipcPortReceive
  rw [h.ipc]
  refine bind_same fun ⟨ipc, r⟩ => ?_
  cases r with
  | error e => exact .ok ⟨⟨h.vm, rfl⟩, rfl⟩
  | ok ipcmsg =>
    refine bind_same fun ipc' => ?_
    unfold ipcReceivePage
    cases ipcmsg.ipcmsgPage with
    | none => exact .ok ⟨⟨h.vm, rfl⟩, rfl⟩
    | some page =>
      simp only [bind_assoc]
      refine (h.vm.ipcMapPage hvm _ _ page).bind_paired fun v v' reply hv => ?_
      exact bind_same fun r => .ok ⟨⟨hv, rfl⟩, rfl⟩

omit [DecidableEq ν] [DecidableEq ι] in
theorem SameSystem.onVm {α : Type}
    {x y : Outcome (VmState ν ι × Except Errno α)} (hx : Lockstep (Paired (SameVm P P A)) x y)
    (f : α → UInt64) : Lockstep (Paired (SameSystem P A)) (s.onVm x f) (t.onVm y f) :=
  hx.bind_paired fun _ _ _ hv => .ok ⟨⟨hv, h.ipc⟩, rfl⟩

theorem SameSystem.run (hvm : vm ≠ kernelVm) (supply : Supply ι) (current : τ) (c : Syscall) :
    Lockstep (Paired (SameSystem P A)) (c.run kernelVm supply current vm s)
      (c.run kernelVm supply current vm t) := by
  have hid : ∀ page, P page → P page := fun _ h => h
  cases c with
  | vmPageGet =>
    simp only [Syscall.run, vmAllocPage_eq hvm]
    exact h.onVm ((h.vm.vmAlloc hid hvm _ _ _ _).mono fun _ _ hr => ⟨hr.same, hr.reply⟩) id
  | vmPageFree vaddr => exact h.onVm (h.vm.vmFree hvm pageSize) _
  | vmAlloc size =>
    exact h.onVm ((h.vm.vmAlloc hid hvm _ _ _ _).mono fun _ _ hr => ⟨hr.same, hr.reply⟩) id
  | vmFree vaddr size => exact h.onVm (h.vm.vmFree hvm size) _
  | ipcPortSend uvaddr vpage ipch =>
    refine (h.vm.vmWire _ _ _).bind_paired fun v v' k hv => ?_
    have h' : SameSystem P A { s with vm := v } { t with vm := v' } := ⟨hv, h.ipc⟩
    refine (h'.ipcPortSend hvm _ _ _).bind_paired fun s₁ t₁ r h₁ => ?_
    cases r with
    | error e => exact .ok ⟨h₁, rfl⟩
    | ok _ =>
      refine (h₁.vm.vmUnwire _ _ _).bind fun w w' hw => ?_
      exact .ok ⟨⟨hw, h₁.ipc⟩, rfl⟩
  | ipcPortReceive port uvaddr =>
    refine (h.vm.vmWire _ _ _).bind_paired fun v v' k hv => ?_
    have h' : SameSystem P A { s with vm := v } { t with vm := v' } := ⟨hv, h.ipc⟩
    refine (h'.ipcPortReceive hvm port).bind_paired fun s₁ t₁ r h₁ => ?_
    cases r with
    | error e => exact .ok ⟨h₁, rfl⟩
    | ok p =>
      refine (h₁.vm.vmUnwire _ _ _).bind fun w w' hw => ?_
      exact .ok ⟨⟨hw, h₁.ipc⟩, rfl⟩

end

end Calls

/-! ## Stores -/

def System.setPhys (s : System ν ι τ) (phys : UInt64 → UInt8) : System ν ι τ :=
  { s with vm := { s.vm with mem := { s.vm.mem with pages := { s.vm.mem.pages with phys } } } }

def System.entry (s : System ν ι τ) (vm : ν) (vaddr : UInt64) : UInt64 :=
  (s.vm.mem.pmap vm).pte (pageFloor vaddr)

def entryAddress (pte vaddr : UInt64) : UInt64 := tlbloPteToPa pte + pageOffset vaddr

def System.store (vm : ν) (s : System ν ι τ) (w : UInt64 × UInt8) : System ν ι τ :=
  if pteValid (s.entry vm w.1) then
    s.setPhys (update s.vm.mem.pages.phys (entryAddress (s.entry vm w.1) w.1) w.2)
  else s

/-- The byte that a user program reads at an address, if a page is mapped there. -/
def System.load (s : System ν ι τ) (vm : ν) (vaddr : UInt64) : Option UInt8 :=
  if pteValid (s.entry vm vaddr) then
    some (s.vm.mem.pages.phys (entryAddress (s.entry vm vaddr) vaddr))
  else none

section Stores

variable {s t : System ν ι τ}

section

omit [DecidableEq ν] [DecidableEq ι]

theorem SameSystem.setPhys (h : SameSystem P (fun _ => False) s t) (phys phys' : UInt64 → UInt8) :
    SameSystem P (fun _ => False) (s.setPhys phys) (t.setPhys phys') := by
  obtain ⟨⟨⟨⟨⟨q, hq, -⟩, hf, hu⟩, hp, hpt⟩, hin⟩, hipc⟩ := h
  refine ⟨⟨⟨⟨⟨phys', ?_, fun a ha => ha.elim⟩, hf, hu⟩, hp, hpt⟩, hin⟩, hipc⟩
  simp only [System.setPhys, hq]

theorem System.store_eq {vm : ν} {vaddr : UInt64} (h : pteValid (s.entry vm vaddr)) (b : UInt8) :
    s.store vm (vaddr, b) =
      s.setPhys (update s.vm.mem.pages.phys (entryAddress (s.entry vm vaddr) vaddr) b) :=
  if_pos h

theorem System.load_store {vm : ν} {vaddr : UInt64} (h : pteValid (s.entry vm vaddr)) (b : UInt8) :
    (s.store vm (vaddr, b)).load vm vaddr = some b := by
  have hl : ∀ phys, (s.setPhys phys).load vm vaddr =
      some (phys (entryAddress (s.entry vm vaddr) vaddr)) := fun phys => if_pos h
  rw [store_eq h, hl, update_self]

theorem exists_store_eq (s : System ν ι τ) (w : UInt64 × UInt8) :
    ∃ phys, s.store vm w = s.setPhys phys := by
  unfold System.store
  split
  · exact ⟨_, rfl⟩
  · exact ⟨s.vm.mem.pages.phys, rfl⟩

theorem exists_stores_eq (s : System ν ι τ) {stores : List (UInt64 × UInt8)} :
    ∃ phys, stores.foldl (System.store vm) s = s.setPhys phys := by
  induction stores generalizing s with
  | nil => exact ⟨s.vm.mem.pages.phys, rfl⟩
  | cons w stores ih =>
    obtain ⟨phys, hp⟩ := ih (s.store vm w)
    obtain ⟨phys₁, hs⟩ := exists_store_eq s w
    refine ⟨phys, ?_⟩
    rw [foldl_cons, hp, hs]
    rfl

end

end Stores

/-! ## Two runs -/

/-- What user programs do: a system call, or stores to memory. -/
inductive UserAct (ι τ : Type)
  | call (e : SyscallEvent ι τ)
  | write (task : τ) (stores : List (UInt64 × UInt8))

variable (kernelVm) (taskVm : τ → ν)

inductive UserStep : System ν ι τ → UserAct ι τ → System ν ι τ → Prop
  | call {s s' : System ν ι τ} {e r} : taskVm e.task ≠ kernelVm →
      e.call.run kernelVm e.supply e.task (taskVm e.task) s = .ok (s', r) →
      UserStep s (.call e) s'
  | write {s : System ν ι τ} (task : τ) (stores : List (UInt64 × UInt8)) :
      UserStep s (.write task stores) (stores.foldl (System.store (taskVm task)) s)

variable {kernelVm} {taskVm}

/-- The same acts, but for what the task `w` stores. -/
inductive SameButWrites (w : τ) : UserAct ι τ → UserAct ι τ → Prop
  | same (a) : SameButWrites w a a
  | write (stores stores') : SameButWrites w (.write w stores) (.write w stores')

def HasFrame (page : UInt64) : Prop := ∃ f < frameEnd, pageAddress page = frameAddr f

theorem SameSystem.runs {w : τ} {s₀ s t : System ν ι τ}
    (hpg : ∀ page, page ∈ s₀.vm.mem.pages.pageFreeQueue ∨ page ∈ s₀.vm.mem.pages.pageUseQueue →
      HasFrame page)
    {h k : List (System ν ι τ × UserAct ι τ)} (hr : Run (UserStep kernelVm taskVm) s₀ h s)
    (hk : Run (UserStep kernelVm taskVm) s₀ k t)
    (hsm : List.Forall₂ (fun x y => SameButWrites w x.2 y.2) h k) :
    SameSystem HasFrame (fun _ => False) s t := by
  refine Run.related ?_ ?_ hr hk hsm
  · exact ⟨⟨⟨⟨⟨_, rfl, fun _ _ => rfl⟩, fun page h => hpg page (.inl h),
      fun page h => hpg page (.inr h)⟩, rfl, rfl⟩, rfl⟩, rfl⟩
  · intro s t a b s' t' hst ha hs ht
    have hsr : ∀ (vm : ν) (stores stores' : List (UInt64 × UInt8)),
        SameSystem HasFrame (fun _ => False) (stores.foldl (System.store vm) s)
          (stores'.foldl (System.store vm) t) := by
      intro vm stores stores'
      obtain ⟨phys, hp⟩ := exists_stores_eq s
      obtain ⟨phys', hp'⟩ := exists_stores_eq t
      rw [hp, hp']
      exact hst.setPhys phys phys'
    cases ha with
    | write stores stores' =>
      cases hs
      cases ht
      exact hsr _ _ _
    | same a =>
      cases hs with
      | write task stores =>
        cases ht
        exact hsr _ _ _
      | call hvm hrun =>
        cases ht with
        | call _ hrun' => exact ((hst.run hvm _ _ _).of_ok hrun hrun').1

def Syscall.obtains : Syscall → Option ℕ
  | vmPageGet => some 1
  | vmAlloc size => some (pageCount size).toNat
  | _ => none

def FreeSame (s t : System ν ι τ) : Prop :=
  ∀ page ∈ s.vm.mem.pages.pageFreeQueue, ∀ a, pageFloor a = pageAddress page →
    t.vm.mem.pages.phys a = s.vm.mem.pages.phys a

theorem Syscall.run_of_obtains {c : Syscall} {n : ℕ} (hn : c.obtains = some n)
    (hvm : vm ≠ kernelVm) (supply : Supply ι) (current : τ) :
    ∃ size, n = (pageCount size).toNat ∧ ∀ s : System ν ι τ, c.run kernelVm supply current vm s =
      s.onVm (Glatt.vmAlloc kernelVm supply.user₁ supply.user₂ vm size vmAllocDefault s.vm) id := by
  cases c with
  | vmPageGet =>
    cases hn
    exact ⟨pageSize, rfl, fun s => by simp only [run, vmAllocPage_eq hvm]⟩
  | vmAlloc size =>
    cases hn
    exact ⟨size, rfl, fun s => rfl⟩
  | vmPageFree vaddr | vmFree vaddr size | ipcPortSend uvaddr vpage ipch => cases hn
  | ipcPortReceive port uvaddr => cases hn

theorem pageFloor_entryAddress {page : UInt64} (h : HasFrame page) (a : UInt64) :
    pageFloor (entryAddress (entryFor kernelVm vm page) a) = pageAddress page := by
  obtain ⟨f, hf, ha⟩ := h
  have hp : tlbloPteToPa (entryFor kernelVm vm page) = frameAddr f := by
    rw [entryFor, ha]
    exact tlbloPteToPa_entry hf
  rw [frameEnd] at hf
  apply UInt64.toNat_inj.mp
  rw [toNat_pageFloor, entryAddress, hp, ha, UInt64.toNat_add, toNat_pageOffset,
    toNat_frameAddr (by omega)]
  omega

/-- **What can be read in pages that were obtained**: in two runs from the same state that differ in
what one task stores, a call of a user that obtains pages returns the same address. The bytes in the
pages are the same, if all free pages hold the same bytes in both runs before the call. -/
theorem page_reuse_same {calls : List PageRange} {p₀ : PageState} {s₀ s₁ s₂ : System ν ι τ}
    (hdisj : calls.Pairwise fun r r' => ∀ f, r.Contains f → ¬ r'.Contains f)
    (hboot : insertRanges calls (pageInit p₀) = .ok s₀.vm.mem.pages) {w : τ}
    {h₁ h₂ : List (System ν ι τ × UserAct ι τ)} (hr₁ : Run (UserStep kernelVm taskVm) s₀ h₁ s₁)
    (hr₂ : Run (UserStep kernelVm taskVm) s₀ h₂ s₂)
    (hsame : List.Forall₂ (fun x y => SameButWrites w x.2 y.2) h₁ h₂) {e : SyscallEvent ι τ} {n : ℕ}
    (hn : e.call.obtains = some n) (hvm : taskVm e.task ≠ kernelVm) {t₁ t₂ : System ν ι τ}
    {r₁ r₂ : Except Errno UInt64}
    (hc₁ : e.call.run kernelVm e.supply e.task (taskVm e.task) s₁ = .ok (t₁, r₁))
    (hc₂ : e.call.run kernelVm e.supply e.task (taskVm e.task) s₂ = .ok (t₂, r₂))
    (hfree : FreeSame s₁ s₂) :
    r₂ = r₁ ∧ ∀ vaddr, r₁ = .ok vaddr → ∀ o < n, ∀ a, pageFloor a = pageFloor (pageAt vaddr o) →
      t₂.load (taskVm e.task) a = t₁.load (taskVm e.task) a := by
  -- the pages in the queues are physical pages, and the states differ in bytes only
  have hd := (insertRanges_spec hdisj described_pageInit (by simp)).yields _ hboot
  have hps : ∀ page, page ∈ s₀.vm.mem.pages.pageFreeQueue ∨
      page ∈ s₀.vm.mem.pages.pageUseQueue → HasFrame page :=
    fun page hpg => Inserted.frame ((hd.queues page).mp hpg)
  have hs := SameSystem.runs hps hr₁ hr₂ hsame
  have hsVm : SameVm (fun page => page ∈ s₁.vm.mem.pages.pageFreeQueue) (fun _ => True)
      (fun a => ∃ page ∈ s₁.vm.mem.pages.pageFreeQueue, pageFloor a = pageAddress page)
      s₁.vm s₂.vm := by
    obtain ⟨phys, hph, -⟩ := hs.vm.mem.pages.bytes
    refine ⟨⟨⟨⟨s₂.vm.mem.pages.phys, by rw [hph], ?_⟩, fun _ h => h, fun _ _ => trivial⟩,
      hs.vm.mem.pmap, hs.vm.mem.ptPages⟩, hs.vm.index⟩
    rintro a ⟨page, hpg, ha⟩
    exact hfree page hpg a ha
  -- the allocation maps free pages, and keeps their bytes
  obtain ⟨size, rfl, hrun⟩ := Syscall.run_of_obtains hn hvm e.supply e.task
  rw [hrun] at hc₁ hc₂
  obtain ⟨⟨v₁, x₁⟩, hx₁, hr₁⟩ := bind_eq_ok.mp hc₁
  obtain ⟨⟨v₂, x₂⟩, hx₂, hr₂⟩ := bind_eq_ok.mp hc₂
  cases hr₁
  cases hr₂
  obtain ⟨hrp, hsame, hm⟩ :=
    (hsVm.vmAlloc (fun _ _ => trivial) hvm _ _ size vmAllocDefault).of_ok hx₁ hx₂
  dsimp only at hrp hsame
  refine ⟨by rw [hrp], fun vaddr hv o ho a ha => ?_⟩
  obtain rfl : x₁ = .ok vaddr := by
    cases x₁ with
    | error e => cases hv
    | ok v => exact hv
  obtain ⟨page, hpg, hpte⟩ := hm vaddr rfl o ho
  have hf : HasFrame page := hs.vm.mem.pages.free page hpg
  obtain ⟨phys, hph, hb⟩ := hsame.mem.pages.bytes
  have hby := hb (entryAddress (entryFor kernelVm (taskVm e.task) page) a)
    ⟨page, hpg, pageFloor_entryAddress hf a⟩
  simp only [System.load, System.entry, hsame.mem.pmap, ha, hpte, hph, hby]

def sixPages : System ℕ ℕ ℕ := startSystem ⟨16, 7, by decide⟩

def pageGet (task x y : ℕ) : SyscallEvent ℕ ℕ :=
  ⟨task, ⟨some x, some y, none, none, true⟩, .vmPageGet⟩

/-- A task that keeps its page: the pages that are free hold the same bytes whatever it stores, and
so does the page that another task obtains. -/
theorem page_reuse_same_kept : ∃ (s t₁ t₂ : System ℕ ℕ ℕ) (h : List (System ℕ ℕ ℕ × UserAct ℕ ℕ)),
    Run (UserStep 0 id) sixPages h s ∧ (s.store 1 (8192, 1)).load 1 8192 = some 1 ∧
      (pageGet 2 1 2).call.run 0 (pageGet 2 1 2).supply 2 2 (s.store 1 (8192, 1)) =
        .ok (t₁, .ok 8192) ∧
      (pageGet 2 1 2).call.run 0 (pageGet 2 1 2).supply 2 2 (s.store 1 (8192, 2)) =
        .ok (t₂, .ok 8192) ∧
      ∀ a, pageFloor a = 8192 → t₂.load 2 a = t₁.load 2 a := by
  have hb : insertRanges [⟨16, 7, by decide⟩] (pageInit blankPages) =
      .ok sixPages.vm.mem.pages := rfl
  have hr : Run (UserStep 0 id) sixPages _ _ :=
    Run.nil.snoc (UserStep.call (e := pageGet 1 1 2) (by decide) rfl)
  -- after the first call task 1 has a page that is not free, and task 2 can obtain -
  obtain ⟨h, s, t₁, t₂, hr, he, hk, ht₁, ht₂⟩ : ∃ h s t₁ t₂,
      Run (UserStep 0 id) sixPages h s ∧ pteValid (s.entry 1 8192) ∧
      (s.vm.mem.pages.pageFreeQueue.all fun page =>
        pageFloor (entryAddress (s.entry 1 8192) 8192) != pageAddress page) ∧
      (pageGet 2 1 2).call.run 0 (pageGet 2 1 2).supply 2 2 (s.store 1 (8192, 1)) =
        .ok (t₁, .ok 8192) ∧
      (pageGet 2 1 2).call.run 0 (pageGet 2 1 2).supply 2 2 (s.store 1 (8192, 2)) =
        .ok (t₂, .ok 8192) :=
    ⟨_, _, _, _, hr, by decide +kernel, by decide +kernel, rfl, rfl⟩
  refine ⟨s, t₁, t₂, h, hr, System.load_store he 1, ht₁, ht₂, fun a ha => ?_⟩
  have hr₁ := hr.snoc (UserStep.write 1 [(8192, 1)])
  have hr₂ := hr.snoc (UserStep.write 1 [(8192, 2)])
  refine (page_reuse_same (pairwise_singleton _ _) hb (w := 1) hr₁ hr₂ ?_
    rfl (by decide) ht₁ ht₂ ?_).2 8192 rfl 0 (by decide) a ha
  · exact rel_append (forall₂_same.mpr fun _ _ => .same _) (.cons (.write _ _) .nil)
  · -- the byte that differs is not in a free page
    change FreeSame (s.store 1 (8192, 1)) (s.store 1 (8192, 2))
    rw [System.store_eq he, System.store_eq he]
    intro page hp a ha
    have hne : a ≠ entryAddress (s.entry 1 8192) 8192 := by
      rintro rfl
      exact bne_iff_ne.mp (all_eq_true.mp hk page hp) ha
    exact (update_of_ne hne _ _).trans (update_of_ne hne _ _).symm

/-- **A page that was freed is read by another task.** Both runs are the same but for the byte that
task 1 stores into its page before it frees it. Task 2 then obtains the page and reads the byte. -/
theorem page_reuse_leaks :
    ∃ (s₁ s₂ t₁ t₂ : System ℕ ℕ ℕ) (h₁ h₂ : List (System ℕ ℕ ℕ × UserAct ℕ ℕ)),
      Run (UserStep 0 id) sixPages h₁ s₁ ∧ Run (UserStep 0 id) sixPages h₂ s₂ ∧
      List.Forall₂ (fun x y => SameButWrites 1 x.2 y.2) h₁ h₂ ∧
      (pageGet 2 3 4).call.run 0 (pageGet 2 3 4).supply 2 2 s₁ = .ok (t₁, .ok 16384) ∧
      (pageGet 2 3 4).call.run 0 (pageGet 2 3 4).supply 2 2 s₂ = .ok (t₂, .ok 16384) ∧
      t₁.load 2 16384 = some 1 ∧ t₂.load 2 16384 = some 2 := by
  have hr : Run (UserStep 0 id) sixPages _ _ :=
    (Run.nil.snoc (UserStep.call (e := pageGet 1 1 2) (by decide) rfl)).snoc
      (UserStep.call (e := pageGet 2 1 2) (by decide) rfl)
  have hr₁ := (hr.snoc (UserStep.write 1 [(8192, 1)])).snoc
    (UserStep.call (e := ⟨1, ⟨none, none, none, none, true⟩, .vmPageFree 8192⟩) (by decide) rfl)
  have hr₂ := (hr.snoc (UserStep.write 1 [(8192, 2)])).snoc
    (UserStep.call (e := ⟨1, ⟨none, none, none, none, true⟩, .vmPageFree 8192⟩) (by decide) rfl)
  refine ⟨_, _, _, _, _, _, hr₁, hr₂, ?_, rfl, rfl, by decide +kernel, by decide +kernel⟩
  refine rel_append (rel_append ?_ (.cons (.write _ _) .nil)) (.cons (.same _) .nil)
  exact forall₂_same.mpr fun _ _ => .same _

end Glatt
