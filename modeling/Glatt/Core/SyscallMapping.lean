import Glatt.Core.Syscall
import Glatt.Vm.AllocEntries
import Glatt.Vm.IndexUse

/-!
# Mapped pages and indices in use

Whether every page that is mapped in a user's address space lies in an index that is in use, over
all runs of system calls. The address of a page is given back as a whole index, and the pages are
unmapped one by one; the two do not fit when a call frees or sends a part of an allocation. A page
is also mapped without an index, when a header is to be received at an address that is free.

## Main definitions

* `VmSound`: the mapped pages of each address space lie in indices in use
* `WholeIndex`: what a call frees or sends is all that its index has mapped

## Main results

* `mapped_pages_in_use`: every mapped page lies in an index in use, after every run of calls that
  free and send whole indices
* `vm_page_free_part`: a run that frees the first page of an allocation of two
-/

namespace Glatt

open Imperative Transition Function

variable {ν ι τ : Type} [DecidableEq ν] [DecidableEq ι] [LinearOrder τ] {kernelVm vm : ν}

/-- The pages of the user's address space that are mapped lie in indices in use. -/
def SpaceSound (s : VmState ν ι) (u : ν) : Prop :=
  ∃ T F, Linked (s.index u) T F ∧ Placed (s.index u) T (2 ^ 40) ∧
    ∀ w, MappedAt s.mem u w → ∃ x ∈ T.inorder, ((s.index u).vmi x).inUse ∧ (s.index u).Covers x w

def VmSound (kernelVm : ν) (s : VmState ν ι) : Prop := ∀ u, u ≠ kernelVm → SpaceSound s u

/-! ## The parts of a call -/

section Parts

variable {s s' : VmState ν ι} {A : ν → UInt64 → Prop}

omit [DecidableEq ν] [DecidableEq ι] in
theorem VmSound.adds (hs : VmSound kernelVm s) (hmem : Adds kernelVm s.mem s'.mem A)
    (hin : OnlyKernelIndex kernelVm s s')
    (hA : ∀ u w, u ≠ kernelVm → A u w → InUseAt (s.index u) w) : VmSound kernelVm s' := by
  intro u hu
  obtain ⟨T, F, hL, hp, hcov⟩ := hs u hu
  rw [SpaceSound, hin u hu]
  refine ⟨T, F, hL, hp, fun w hw => ?_⟩
  rcases hmem u hu w hw with hw | hw
  · exact hcov w hw
  · obtain ⟨T', x, hT', hx, hus, hc⟩ := hA u w hu hw
    obtain rfl := hL.tree.unique hT'
    exact ⟨x, hx, hus, hc⟩

omit [DecidableEq ι] in
theorem VmSound.setIndex (hs : VmSound kernelVm s) {index : IndexMap ι} {mem' : MemState ν}
    (ho : ∀ u, u ≠ kernelVm → u ≠ vm → ∀ w, MappedAt mem' u w → MappedAt s.mem u w)
    (hsn : ∃ T F, Linked index T F ∧ Placed index T (2 ^ 40) ∧
      ∀ w, MappedAt mem' vm w → ∃ x ∈ T.inorder, (index.vmi x).inUse ∧ index.Covers x w) :
    VmSound kernelVm ⟨mem', update s.index vm index⟩ := by
  intro u hu
  by_cases huvm : u = vm
  · subst huvm
    simpa only [SpaceSound, update_self] using hsn
  · obtain ⟨T, F, hL, hp, hc⟩ := hs u hu
    simp only [SpaceSound, update_of_ne huvm]
    exact ⟨T, F, hL, hp, fun w hw => hc w (ho u hu huvm w hw)⟩

omit [DecidableEq ι] in
theorem covers_pageAt {index : IndexMap ι} {x : ι} {b : ℕ} (hb : b < 2 ^ 64)
    (hend : index.lo x + index.len x ≤ b) {o : ℕ} (ho : o < (index.vmi x).vmiSize.toNat) :
    index.Covers x (pageAt (index.vmi x).vmiBase o) := by
  have hlen := index.len_eq x
  have hl : index.lo x = (index.vmi x).vmiBase.toNat := rfl
  have hp : (pageAt (index.vmi x).vmiBase o).toNat = (index.vmi x).vmiBase.toNat + o * 8192 :=
    toNat_pageAt (by omega)
  have ht := (toNat_reach (hend.trans_lt hb)).2
  rw [IndexMap.Covers, UInt64.le_iff_toNat_le, UInt64.lt_iff_toNat_lt]
  omega

theorem VmSound.allocAddress (hs : VmSound kernelVm s) (hvm : vm ≠ kernelVm) {new₁ new₂ : Option ι}
    (hf : ∀ T, (s.index vm).vmIndex.Represents T → Fresh new₁ new₂ T) (pages : UInt64)
    (high : Bool) :
    Yields (vmAllocAddress new₁ new₂ pages high (s.index vm)) fun p =>
      (∀ vaddr, p.2 = .ok vaddr → PageAligned vaddr) ∧
      ∀ mem', Adds kernelVm s.mem mem' (fun u w => ∃ vaddr, p.2 = .ok vaddr ∧
          InRange vm vaddr pages.toNat u w) →
        VmSound kernelVm { s.setIndex vm p.1 with mem := mem' } := by
  obtain ⟨T, F, hL, hp, hcov⟩ := hs vm hvm
  refine (vmAllocAddress_claimed hL hp (by decide) (hf T hL.tree) pages high).yields.mono ?_
  rintro ⟨index, r⟩ ⟨⟨T', F', hL', hp', hk, hc⟩, -⟩
  constructor
  · rintro vaddr rfl
    obtain ⟨y, hy, -, hb, -⟩ := hc vaddr pages rfl
    apply UInt64.toNat_inj.mp
    rw [toNat_pageOffset, ← hb]
    exact Nat.mod_eq_zero_of_dvd (hp' y hy).1
  · intro mem' hmem'
    refine hs.setIndex ?_ ⟨T', F', hL', hp', fun w hw => ?_⟩
    · intro u hu huvm w hw
      rcases hmem' u hu w hw with hw | ⟨_, _, hvm', _⟩
      · exact hw
      · exact absurd hvm' huvm
    · rcases hmem' vm hvm w hw with hw | ⟨vaddr, rfl, -, o, ho, rfl⟩
      -- an index in use has stayed
      · obtain ⟨x, hx, hus, hcv⟩ := hcov w hw
        obtain ⟨hx', hv⟩ := hk x hx hus
        refine ⟨x, hx', hv ▸ hus, ?_⟩
        rw [IndexMap.Covers, hv]
        exact hcv
      -- a page of the range lies in the new one
      · obtain ⟨y, hy, hus, hb, hsz⟩ := hc vaddr pages rfl
        refine ⟨y, hy, hus, ?_⟩
        rw [← hb]
        exact covers_pageAt (by decide) (hp' y hy).2 (hsz ▸ ho)

theorem VmSound.release (hs : VmSound kernelVm s) (hvm : vm ≠ kernelVm) {vaddr : UInt64} {n : ℕ}
    (hr : Releasable s vm vaddr n) {mem' : MemState ν}
    (hmem : Clears kernelVm s.mem mem' fun u w =>
      u = vm ∧ ∃ o < n, w = pageFloor (pageAt vaddr o)) :
    Yields (vmReleaseAddress vm vaddr { s with mem := mem' }) (VmSound kernelVm) := by
  obtain ⟨T, F, hL, hp, hcov⟩ := hs vm hvm
  have hus := fun x hx hx' => (hr T x hL.tree hx hx').1
  refine (yields_orPanic (vmFreeAddress_released hL hp hus).yields).bind ?_
  rintro index ⟨F', hL', hp', x, hx, hh, ho⟩
  refine .ret (hs.setIndex ?_ ⟨T, F', hL', hp', fun w hw => ?_⟩)
  · exact fun u hu _ w hw => (hmem u hu w hw).1
  · obtain ⟨hw, hn⟩ := hmem vm hvm w hw
    obtain ⟨y, hy, hin, hc⟩ := hcov w hw
    -- the page is not one of the index that has been released
    have hne : y ≠ x := by
      rintro rfl
      exact hn ⟨rfl, (hr T y hL.tree hy hh).2 w hw hc⟩
    refine ⟨y, hy, ho y hne ▸ hin, ?_⟩
    rw [IndexMap.Covers, ho y hne]
    exact hc

end Parts

/-! ## The calls -/

/-- **A call that frees or sends all of an index**, and receives a header where pages are mapped or
may be mapped. -/
def WholeIndex (vm : ν) (s : VmState ν ι) : Syscall → Prop
  | .vmPageGet => True
  | .vmAlloc _ => True
  | .vmPageFree vaddr => Releasable s vm vaddr 1
  | .vmFree vaddr size => Releasable s vm vaddr (pageCount size).toNat
  | .ipcPortSend _ vpage _ =>
    vpage ≠ 0 → MappedAt s.mem vm (pageFloor vpage) → Releasable s vm vpage 1
  | .ipcPortReceive _ uvaddr => ∀ u w,
    InRange vm (pageFloor uvaddr) (wirePages uvaddr sizeofIpcHeader).toNat u w →
      MappedAt s.mem vm w ∨ InUseAt (s.index vm) w

section Calls

variable {s : VmState ν ι} {supply : Supply ι}

section

variable (hs : VmSound kernelVm s)
include hs

section

variable (hvm : vm ≠ kernelVm)
include hvm

theorem VmSound.vmAlloc
    (hf : ∀ T, (s.index vm).vmIndex.Represents T → Fresh supply.user₁ supply.user₂ T)
    (size : UInt64) (flags : UInt32) :
    Yields (vmAlloc kernelVm supply.user₁ supply.user₂ vm size flags s) fun r =>
      VmSound kernelVm r.1 := by
  simp only [Glatt.vmAlloc, hvm]
  refine (hs.allocAddress hvm hf _ _).bind ?_
  rintro ⟨index, r⟩ ⟨ha, hsn⟩
  cases r with
  | error e => exact .ret (hsn s.mem fun u _ w hw => .inl hw)
  | ok vaddr =>
    refine (onMem_yields (vmMapPages_adds (ha vaddr rfl))).bind ?_
    rintro ⟨mem', -⟩ ⟨hmem, rfl⟩
    refine .ret (hsn mem' (hmem.mono fun u w hw => ⟨vaddr, rfl, hw⟩))

theorem VmSound.vmAllocPage
    (hf : ∀ T, (s.index vm).vmIndex.Represents T → Fresh supply.user₁ supply.user₂ T) :
    Yields (vmAllocPage kernelVm supply.user₁ supply.user₂ vm s) fun r =>
      VmSound kernelVm r.1 := by
  rw [Glatt.vmAllocPage, if_neg hvm]
  refine (hs.allocAddress hvm hf _ _).bind ?_
  rintro ⟨index, r⟩ ⟨ha, hsn⟩
  cases r with
  | error e => exact .ret (hsn s.mem fun u _ w hw => .inl hw)
  | ok vaddr =>
    refine (onMem_yields (P := fun mem' => Adds kernelVm s.mem mem' (InRange vm vaddr 1))
      (yields_orPanic ((pageAllocMap_pte (ha vaddr rfl) _).mono ?_))).bind ?_
    · rintro ⟨mem', r⟩ (⟨page, -, -, -, hset⟩ | ⟨⟨e, he⟩, -⟩) hr
      · refine hset.adds.mono ?_
        rintro u w ⟨rfl, rfl⟩
        exact ⟨rfl, 0, Nat.one_pos, by simp [pageAt]⟩
      · rw [hr] at he
        cases he
    · rintro ⟨mem', -⟩ ⟨hmem, rfl⟩
      exact .ret (hsn mem' (hmem.mono fun u w hw => ⟨vaddr, rfl, hw⟩))

theorem VmSound.vmFree {vaddr size : UInt64} (hr : Releasable s vm vaddr (pageCount size).toNat) :
    Yields (vmFree kernelVm vm size vaddr s) fun r => VmSound kernelVm r.1 := by
  simp only [Glatt.vmFree, hvm]
  refine (onMem_yields vmFreePages_clears).bind ?_
  rintro ⟨mem', -⟩ ⟨hmem, rfl⟩
  exact (hs.release hvm hr hmem).bind fun s' hs' => .ret hs'

omit [DecidableEq ν] [DecidableEq ι] in
theorem VmSound.inUseAt {w : UInt64} (hw : MappedAt s.mem vm w) : InUseAt (s.index vm) w := by
  obtain ⟨T, F, hL, -, hcov⟩ := hs vm hvm
  obtain ⟨x, hx, hu, hc⟩ := hcov w hw
  exact ⟨T, x, hL.tree, hx, hu, hc⟩

omit hvm in
omit [DecidableEq ν] [DecidableEq ι] in
theorem VmSound.onPages (f : PageState → Outcome PageState) :
    Yields (s.onMem (MemState.onPages f)) (VmSound kernelVm) := by
  refine (onMem_yields (onPages_pte f)).mono ?_
  rintro s' ⟨hmem, hin⟩
  exact hs.adds (A := fun _ _ => False) hmem.adds (fun u _ => by rw [hin]) fun _ _ _ hA => hA.elim

theorem VmSound.takePage {vpage : UInt64}
    (hr : MappedAt s.mem vm (pageFloor vpage) → Releasable s vm vpage 1) :
    Yields (ipcTakePage kernelVm vm vpage s) fun r => VmSound kernelVm r.1 := by
  rw [ipcTakePage]
  by_cases hm : MappedAt s.mem vm (pageFloor vpage)
  · refine yields_bind_of_forall ?_
    rintro (e | -)
    · exact .ret hs
    · dsimp only
      rw [if_neg hvm]
      refine (onMem_yields (P := fun mem' => Clears kernelVm s.mem mem' _)
        (yields_orPanic (pageUnmap_clears kernelVm))).bind ?_
      rintro ⟨mem', -⟩ ⟨hmem, rfl⟩
      refine (hs.release hvm (hr hm) (hmem.mono ?_)).bind fun s' hs' => .ret hs'
      rintro u w ⟨rfl, o, ho, rfl⟩
      obtain rfl : o = 0 := by omega
      exact ⟨rfl, by simp [pageAt]⟩
  -- nothing is mapped there, and the call fails
  · obtain ⟨e, he⟩ : ∃ e, pmapExtract kernelVm vm vpage s.mem = .error e :=
      pmapExtract_unmapped hvm fun h => hm ⟨pageAligned_floor vpage, h⟩
    rw [pageExtract, he]
    exact .ret hs

end

end

variable {current : τ}

omit [DecidableEq ν] [DecidableEq ι] in
theorem VmSound.sendTaken {s : System ν ι τ} (hs : VmSound kernelVm s.vm) (mem : Bool)
    (current : τ) (ipch : IpcHeader) (page : Option UInt64) :
    Yields (ipcSendTaken mem current ipch page s) fun r => VmSound kernelVm r.1.vm := by
  rw [ipcSendTaken]
  refine yields_bind_of_forall ?_
  rintro ⟨-, r⟩
  cases r with
  | ok _ => exact .ret hs
  | error e =>
    cases page with
    | none => exact .ret hs
    | some page => exact (hs.onPages _).bind fun vm' hvm' => .ret hvm'

theorem VmSound.ipcPortSend {s : System ν ι τ} (hs : VmSound kernelVm s.vm) (hvm : vm ≠ kernelVm)
    {vpage : UInt64} (hr : vpage ≠ 0 → MappedAt s.vm.mem vm (pageFloor vpage) →
      Releasable s.vm vm vpage 1) (mem : Bool) (current : τ) (ipch : IpcHeader) :
    Yields (ipcPortSend kernelVm mem current vm ipch vpage s) fun r =>
      VmSound kernelVm r.1.vm := by
  rw [Glatt.ipcPortSend]
  split_ifs with hn
  · exact hs.sendTaken mem current ipch none
  · refine (hs.takePage hvm (hr hn)).bind ?_
    rintro ⟨vm', r⟩ hs'
    cases r with
    | error e => exact .ret hs'
    | ok page =>
      exact sendTaken hs' mem current ipch (some page)

theorem VmSound.receivePage (hs : VmSound kernelVm s) (hvm : vm ≠ kernelVm) {new₁ new₂ : Option ι}
    (hf : ∀ T, (s.index vm).vmIndex.Represents T → Fresh new₁ new₂ T) (ipcmsg : IpcMessage) :
    Yields (ipcReceivePage kernelVm new₁ new₂ vm ipcmsg s) fun r => VmSound kernelVm r.1 := by
  unfold ipcReceivePage
  split
  · exact .ret hs
  · rename_i page hp
    -- a page that cannot be mapped is used after it has been freed
    refine Yields.bind (P := fun r : VmState ν ι × MapReply =>
      (∀ v e, r.2 ≠ .user (.ok v) (.error e)) → VmSound kernelVm r.1) ?_ ?_
    · rw [ipcMapPage, if_neg hvm]
      refine (hs.allocAddress hvm hf _ _).bind ?_
      rintro ⟨index, r⟩ ⟨ha, hsn⟩
      cases r with
      | error e =>
        have hfl := hsn s.mem fun u _ w hw => .inl hw
        exact (hfl.onPages _).bind fun s' hs' => .ret fun _ => hs'
      | ok vaddr =>
        refine (pageMap_pte (ha vaddr rfl)).bind ?_
        rintro ⟨mem', r⟩ (⟨hr, -, hset⟩ | ⟨⟨e, hr⟩, -⟩)
        · subst hr
          refine .ret fun _ => hsn mem' (hset.adds.mono ?_)
          rintro u w ⟨hu, hw⟩
          exact ⟨vaddr, rfl, hu, 0, Nat.one_pos, by simp [hw, pageAt]⟩
        · subst hr
          refine yields_bind_of_forall fun s₁ => ?_
          refine yields_bind_of_forall fun s₂ => ?_
          exact .ret fun hne => absurd rfl (hne vaddr e)
    · rintro ⟨s', reply⟩ hs'
      simp only [ipcPortDeliver, hp]
      cases reply with
      | kernel map =>
        have hsn := hs' fun _ _ h => by cases h
        cases map with
        | error e | ok v => exact .ret hsn
      | user alloc map =>
        cases alloc with
        | error e => exact .ret (hs' fun _ _ h => by cases h)
        | ok v =>
          cases map with
          | error e => exact yields_error
          | ok _ => exact .ret (hs' fun _ _ h => by cases h)

omit [DecidableEq ν] [DecidableEq ι] in
theorem Releasable.of_adds {s' : VmState ν ι} {vaddr : UInt64} {n : ℕ} (hvm : vm ≠ kernelVm)
    (h : Releasable s vm vaddr n) (hmem : Adds kernelVm s.mem s'.mem fun _ _ => False)
    (hin : s'.index vm = s.index vm) : Releasable s' vm vaddr n := by
  intro T x hT hx hh
  rw [hin] at hT hh ⊢
  obtain ⟨hu, hp⟩ := h T x hT hx hh
  exact ⟨hu, fun w hw => hp w ((hmem vm hvm w hw).resolve_right id)⟩

theorem VmSound.unwire (hs : VmSound kernelVm s) {uvaddr len kvaddr : UInt64} :
    Yields (vmUnwire kernelVm vm uvaddr len kvaddr s) (VmSound kernelVm) :=
  vmUnwire_adds.mono fun _ hs' => hs.adds hs'.1 hs'.2 fun _ _ _ hA => hA.elim

theorem VmSound.syscallSend {s : System ν ι τ} (hs : VmSound kernelVm s.vm) (hvm : vm ≠ kernelVm)
    {uvaddr vpage : UInt64} {ipch : IpcHeader}
    (hc : WholeIndex vm s.vm (.ipcPortSend uvaddr vpage ipch)) :
    Yields (syscallIpcPortSend kernelVm supply current vm uvaddr vpage ipch s) fun r =>
      VmSound kernelVm r.1.vm := by
  rw [syscallIpcPortSend]
  refine (vmWire_adds false).bind ?_
  rintro ⟨v, kvaddr, off⟩ ⟨hmem, hin⟩
  -- nothing is faulted in for a header that is read
  have hmem : Adds kernelVm s.vm.mem v.mem fun _ _ => False :=
    hmem.mono fun u w hA => absurd hA.1 Bool.false_ne_true
  have hw : VmSound kernelVm v := hs.adds hmem hin fun _ _ _ hA => hA.elim
  have hsn := ipcPortSend (s := { s with vm := v }) hw hvm
    (fun hn hm => (hc hn ((hmem vm hvm _ hm).resolve_right id)).of_adds hvm hmem
      (hin vm hvm)) supply.mem current ipch
  refine hsn.bind ?_
  rintro ⟨s', r⟩ hs'
  cases r with
  | error e => exact .ret hs'
  | ok _ => exact hs'.unwire |>.bind fun v' hv' => .ret hv'

theorem VmSound.syscallReceive {s : System ν ι τ} (hs : VmSound kernelVm s.vm) (hvm : vm ≠ kernelVm)
    (hf : ∀ T, (s.vm.index vm).vmIndex.Represents T → Fresh supply.user₁ supply.user₂ T)
    {port : UInt32} {uvaddr : UInt64}
    (hc : WholeIndex vm s.vm (.ipcPortReceive port uvaddr)) :
    Yields (syscallIpcPortReceive kernelVm supply current vm port uvaddr s) fun r =>
      VmSound kernelVm r.1.vm := by
  rw [syscallIpcPortReceive]
  refine (vmWire_adds true).bind ?_
  rintro ⟨v, kvaddr, off⟩ ⟨hmem, hin⟩
  have hw : VmSound kernelVm v := by
    refine hs.adds hmem hin ?_
    rintro u w hu ⟨-, hrn⟩
    obtain rfl := hrn.1
    exact (hc u w hrn).elim (hs.inUseAt hu) id
  refine Yields.bind (P := fun r => VmSound kernelVm r.1.vm) ?_ ?_
  · rw [ipcPortReceive]
    refine yields_bind_of_forall ?_
    rintro ⟨-, r⟩
    cases r with
    | error e => exact .ret hw
    | ok ipcmsg =>
      refine yields_bind_of_forall fun ipc' => ?_
      refine (hw.receivePage hvm (by rw [hin vm hvm]; exact hf) ipcmsg).bind ?_
      exact fun r hr => .ret hr
  · rintro ⟨s', r⟩ hs'
    cases r with
    | error e => exact .ret hs'
    | ok p => exact hs'.unwire |>.bind fun v' hv' => .ret hv'

end Calls

/-! ## Every run -/

variable (kernelVm) (taskVm : τ → ν)

/-- **A system call of a user that returns**, whatever its result. The pool does not hand out an
index that is linked. -/
inductive SyscallStep : System ν ι τ → SyscallEvent ι τ → System ν ι τ → Prop
  | call {s s' : System ν ι τ} {e r} : taskVm e.task ≠ kernelVm →
      (∀ T, (s.vm.index (taskVm e.task)).vmIndex.Represents T →
        Fresh e.supply.user₁ e.supply.user₂ T) →
      e.call.run kernelVm e.supply e.task (taskVm e.task) s = .ok (s', r) → SyscallStep s e s'

/-- The address spaces of users as `vm_setup` leaves them: nothing is mapped, and one free index has
all pages but the first. -/
def SetUp (s : System ν ι τ) : Prop := ∀ u, u ≠ kernelVm → s.vm.mem.pmap u = userPmap ∧
  ∃ vm₀ new, vmInsertRange new (userBase + pageSize) userEnd (vmSetup2 vm₀) =
    .ok (s.vm.index u, .ok ())

variable {kernelVm} {taskVm}

omit [DecidableEq ν] in
theorem SetUp.vmSound {s : System ν ι τ} (h : SetUp kernelVm s) : VmSound kernelVm s.vm := by
  intro u hu
  obtain ⟨hpm, vm₀, new, hin⟩ := h u hu
  have hb : pageOffset (userBase + pageSize) = 0 := rfl
  have hlt : userBase + pageSize < userEnd := by decide
  obtain ⟨T, F, hL, ht⟩ := (vmInsertRange_inv vm₀ hb hlt (by decide)).yields _ hin rfl
  refine ⟨T, F, hL, fun x hx => ⟨?_, ?_⟩, fun w hw => ?_⟩
  · exact ht.dvd (by decide) (fun z _ => Nat.dvd_mul_left 8192 _) hx
  · have hend : (pageRoundup userEnd).toNat = 2 ^ 40 := by decide
    exact hend ▸ (ht.bounds hx).2.2
  · have hf := pmapFind_of_pteValid hw.2
    rw [hpm, pmapFind_empty fun _ => rfl] at hf
    cases hf

theorem VmSound.step {s s' : System ν ι τ} {e : SyscallEvent ι τ} (hs : VmSound kernelVm s.vm)
    (hc : WholeIndex (taskVm e.task) s.vm e.call)
    (hst : SyscallStep kernelVm taskVm s e s') : VmSound kernelVm s'.vm := by
  obtain ⟨hvm, hf, hrun⟩ := hst
  obtain ⟨task, supply, c⟩ := e
  suffices h : Yields (c.run kernelVm supply task (taskVm task) s) fun r =>
      VmSound kernelVm r.1.vm from h _ hrun
  cases c with
  | vmPageGet => exact (hs.vmAllocPage hvm hf).bind fun r hr => .ret hr
  | vmPageFree vaddr =>
    have hc : Releasable s.vm (taskVm task) vaddr (pageCount pageSize).toNat := hc
    exact (hs.vmFree hvm hc).bind fun r hr => .ret hr
  | vmAlloc size =>
    exact (hs.vmAlloc hvm hf size vmAllocDefault).bind fun r hr => .ret hr
  | vmFree vaddr size => exact (hs.vmFree hvm hc).bind fun r hr => .ret hr
  | ipcPortSend uvaddr vpage ipch => exact hs.syscallSend hvm hc
  | ipcPortReceive port uvaddr => exact hs.syscallReceive hvm hf hc

/-- **Mapped pages lie in indices in use**, in the address space of every user, after every run of
system calls that free and send whole indices and receive headers at addresses in use. -/
theorem mapped_pages_in_use {s₀ s : System ν ι τ} (hinit : SetUp kernelVm s₀)
    {h : List (System ν ι τ × SyscallEvent ι τ)} (hr : Run (SyscallStep kernelVm taskVm) s₀ h s)
    (hclean : ∀ e ∈ h, WholeIndex (taskVm e.2.task) e.1.vm e.2.call) :
    ∀ u, u ≠ kernelVm → ∀ w, PageAligned w → pteValid ((s.vm.mem.pmap u).pte w) →
      InUseAt (s.vm.index u) w := by
  have hsn : VmSound kernelVm s.vm :=
    hr.invariant_of_forall (I := fun s => VmSound kernelVm s.vm) hinit.vmSound
      (fun _ _ _ hs hc hst => hs.step hc hst) hclean
  exact fun u hu w hw hv => hsn.inUseAt hu ⟨hw, hv⟩

def oneUser : System ℕ ℕ ℕ := startSystem ⟨16, 8, add_eight_le_frameEnd⟩

theorem setUp_oneUser : SetUp 0 oneUser := fun _ _ => ⟨rfl, _, some 0, rfl⟩

variable {T : BinaryTree ℕ}

theorem represents_oneUser (hT : (oneUser.vm.index 1).vmIndex.Represents T) :
    T = .node 0 .nil .nil :=
  hT.unique ⟨⟨rfl, rfl, rfl, rfl⟩, by simp, by decide⟩

def allocTwo : SyscallEvent ℕ ℕ := ⟨7, ⟨some 1, some 2, none, none, true⟩, .vmAlloc 16384⟩

theorem fresh_allocTwo (T : BinaryTree ℕ) (hT : (oneUser.vm.index 1).vmIndex.Represents T) :
    Fresh allocTwo.supply.user₁ allocTwo.supply.user₂ T := by
  rw [represents_oneUser hT]
  exact ⟨by decide, by decide, by decide⟩

def freeTwo : SyscallEvent ℕ ℕ := ⟨7, ⟨some 3, some 4, none, none, true⟩, .vmFree 8192 16384⟩

def allocAgain : SyscallEvent ℕ ℕ := ⟨7, ⟨some 3, some 4, none, none, true⟩, .vmAlloc 16384⟩

theorem releasable_two {s : VmState ℕ ℕ} {size : UInt64}
    (hT : (s.index 1).vmIndex.Represents (.node 0 .nil (.node 2 .nil .nil)))
    (h₀ : (s.index 1).vmi 0 = ⟨8192, 2, 1⟩) (h₂ : (s.index 1).vmi 2 = ⟨24576, size, 0⟩) :
    Releasable s 1 8192 2 := by
  intro T x hT' hx hh
  obtain rfl := hT.unique hT'
  obtain rfl | rfl : x = 0 ∨ x = 2 := by simpa using hx
  · refine ⟨by rw [h₀]; decide, fun w hw hc => ?_⟩
    rw [IndexMap.Covers, h₀] at hc
    have hl : 8192 ≤ w.toNat := UInt64.le_iff_toNat_le.mp hc.1
    have hhi : w.toNat < 24576 := UInt64.lt_iff_toNat_lt.mp hc.2
    have hm := hw.1.toNat
    -- a page boundary between 8192 and 24576
    obtain h | h : w.toNat = 8192 ∨ w.toNat = 16384 := by omega
    · exact ⟨0, by decide, UInt64.toNat_inj.mp h⟩
    · exact ⟨1, by decide, UInt64.toNat_inj.mp h⟩
  · rw [IndexMap.Holds, h₂] at hh
    have hle : (24576 : UInt64) ≤ 8192 := hh.1
    exact absurd hle (by decide)

/-- Both pages of an allocation are mapped in an index in use, also after a release. -/
theorem mapped_pages_in_use_again : ∃ (h : List (System ℕ ℕ ℕ × SyscallEvent ℕ ℕ))
    (s : System ℕ ℕ ℕ), Run (SyscallStep 0 fun _ => 1) oneUser h s ∧
      h.map Prod.snd = [allocTwo, freeTwo, allocAgain] ∧
      pteValid ((s.vm.mem.pmap 1).pte 16384) ∧ InUseAt (s.vm.index 1) 16384 := by
  let T : BinaryTree ℕ := .node 0 .nil (.node 2 .nil .nil)
  have hfr : ∀ s : System ℕ ℕ ℕ, (s.vm.index 1).vmIndex.Represents T → ∀ T',
      (s.vm.index 1).vmIndex.Represents T' → Fresh (some 3) (some 4) T' := fun s hT T' hT' => by
    obtain rfl := hT.unique hT'
    exact ⟨by decide, by decide, by decide⟩
  obtain ⟨s₁, s₂, s, hs₁, hs₂, hs₃, hT, h₀, h₂, hv⟩ : ∃ s₁ s₂ s,
      SyscallStep 0 (fun _ => 1) oneUser allocTwo s₁ ∧ SyscallStep 0 (fun _ => 1) s₁ freeTwo s₂ ∧
      SyscallStep 0 (fun _ => 1) s₂ allocAgain s ∧ (s₁.vm.index 1).vmIndex.Represents T ∧
      (s₁.vm.index 1).vmi 0 = ⟨8192, 2, 1⟩ ∧ (∃ size, (s₁.vm.index 1).vmi 2 = ⟨24576, size, 0⟩) ∧
      pteValid ((s.vm.mem.pmap 1).pte 16384) :=
    ⟨_, _, _, .call (by decide) fresh_allocTwo rfl,
      .call (by decide) (hfr _ ⟨⟨rfl, rfl, rfl, rfl, rfl, rfl, rfl⟩, by decide, by decide⟩) rfl,
      .call (by decide) (hfr _ ⟨⟨rfl, rfl, rfl, rfl, rfl, rfl, rfl⟩, by decide, by decide⟩) rfl,
      ⟨⟨rfl, rfl, rfl, rfl, rfl, rfl, rfl⟩, by decide, by decide⟩, rfl, ⟨_, rfl⟩, by decide⟩
  obtain ⟨size, h₂⟩ := h₂
  have hr := ((Run.nil.snoc hs₁).snoc hs₂).snoc hs₃
  refine ⟨_, s, hr, rfl, hv, ?_⟩
  refine mapped_pages_in_use setUp_oneUser hr ?_ 1 (by decide) 16384 rfl hv
  have hall : ∀ e ∈ [(oneUser, allocTwo), (s₁, freeTwo), (s₂, allocAgain)],
      WholeIndex 1 e.1.vm e.2.call := by
    simp only [List.forall_mem_cons]
    exact ⟨trivial, releasable_two hT h₀ h₂, trivial, nofun⟩
  exact hall

/-- **A freed page takes the index of its neighbour**: two pages are allocated at once and the first
is freed as a page. The second page is still mapped, and its address is in the free index. -/
theorem vm_page_free_part : SetUp 0 oneUser ∧ ∃ (h : List (System ℕ ℕ ℕ × SyscallEvent ℕ ℕ))
    (s : System ℕ ℕ ℕ), Run (SyscallStep 0 fun _ => 1) oneUser h s ∧
      h.map (fun e => e.2.call) = [.vmAlloc 16384, .vmPageFree 8192] ∧
      pteValid ((s.vm.mem.pmap 1).pte 16384) ∧ ¬ InUseAt (s.vm.index 1) 16384 := by
  refine ⟨setUp_oneUser, ?_⟩
  have hr₁ : Run (SyscallStep 0 fun _ => 1) oneUser _ _ :=
    Run.nil.snoc (SyscallStep.call (by decide) fresh_allocTwo rfl)
  have hr₂ := hr₁.snoc (SyscallStep.call
    (e := ⟨7, ⟨none, none, none, none, true⟩, .vmPageFree 8192⟩) (by decide)
    (fun _ _ => ⟨by simp, by simp, by simp⟩) rfl)
  refine ⟨_, _, hr₂, rfl, by decide, ?_⟩
  rintro ⟨T, x, hT, hx, hu, -⟩
  obtain rfl : T = .node 0 .nil (.node 2 .nil .nil) :=
    hT.unique ⟨⟨rfl, rfl, rfl, rfl, rfl, rfl, rfl⟩, by simp, by decide⟩
  obtain rfl | rfl : x = 0 ∨ x = 2 := by simpa using hx
  · exact absurd hu (by decide)
  · exact absurd hu (by decide)

end Glatt
