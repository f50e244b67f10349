import Glatt.Core.MessagePages
import Glatt.Vm.IndexFailure

/-!
# Messages that are not sent or received

What a call on messages leaves when it fails. `ipc_port_send_page` makes its checks before it
changes anything, and the one check that has an effect, the use of a send-once right, is the last
one. `ipc_port_receive` takes the message from the queue and inserts the right that it carries
before it looks for an address for its page.

## Main definitions

* `ReceiveAtomic`: a receive that fails has changed nothing
* `Mappable`: the page of a message can be mapped

## Main results

* `failed_send_changes_nothing`: a message that is not sent leaves the ports as they were
* `receive_atomic_iff`: a receive is atomic exactly where the page of the message can be mapped
* `receive_loses_message`: what happens where it cannot
-/

namespace Glatt

open Imperative Transition List

variable {τ : Type} [LinearOrder τ]

/-! ## Sending -/

/-- **One message has been sent**: it is the last one in the queue of its destination, the sender
has lost its send-once right there at most, and all else is as it was. -/
structure SentOne (current : τ) (m : IpcMessage) (s s' : IpcState τ) : Prop where
  next : s'.ipcPortNext = s.ipcPortNext
  others : ∀ q ≠ m.ipcmsgHeader.ipchdrDst, s'.ipcPorts q = s.ipcPorts q
  dst : ∃ ipcp ipcp', s.ipcPorts m.ipcmsgHeader.ipchdrDst = some ipcp ∧
    s'.ipcPorts m.ipcmsgHeader.ipchdrDst = some ipcp' ∧ ipcp'.ipcpFlags = ipcp.ipcpFlags ∧
    ipcp'.ipcpMsgs = ipcp.ipcpMsgs ++ [m] ∧
    (∀ t ≠ current, ipcPortRightLookup ipcp' t = ipcPortRightLookup ipcp t) ∧
    (ipcPortRightLookup ipcp' current = ipcPortRightLookup ipcp current ∨
      ipcPortRightLookup ipcp' current =
        (ipcPortRightLookup ipcp current).map (· &&& ~~~ ipcPortRightSendOnceBit))

theorem sentOne_setPort {s : IpcState τ} {current : τ} {m : IpcMessage} {ipcp ipcp' : IpcPort τ}
    (hd : s.ipcPorts m.ipcmsgHeader.ipchdrDst = some ipcp)
    (hs : ipcp' = ipcp ∨
      ipcp' = ipcp.modifyRight current fun r => r &&& ~~~ ipcPortRightSendOnceBit) :
    SentOne current m s (s.setPort m.ipcmsgHeader.ipchdrDst
      { ipcp' with ipcpMsgs := ipcp'.ipcpMsgs ++ [m] }) := by
  refine ⟨rfl, fun q hq => by rw [setPort_ipcPorts, if_neg hq], ipcp, _, hd,
    by rw [setPort_ipcPorts, if_pos rfl], ?_⟩
  rcases hs with rfl | rfl
  · exact ⟨rfl, rfl, fun _ _ => rfl, .inl rfl⟩
  · refine ⟨rfl, rfl, fun t ht => ?_, .inr ?_⟩
    · exact (KeyedList.get_modify ..).trans (if_neg ht)
    · exact (KeyedList.get_modify ..).trans (if_pos rfl)

theorem ipcPortSendPage_sends (mem : Bool) (current : τ) (ipch : IpcHeader) (page : Option UInt64)
    (s : IpcState τ) :
    Guarded (mem = true) (ipcPortSendPage mem current ipch page s) fun p =>
      (∃ e, p = (s, .error e)) ∨ p.2 = .ok () ∧ SentOne current ⟨ipch, page⟩ s p.1 := by
  refine (ipcPortSendPage_cases current).mono ?_
  rintro ⟨s', r⟩ (⟨rfl, ⟨e, rfl, -⟩, -⟩ | ⟨-, -, dstp, dstp', ok, hd, hch, hsn⟩)
  · exact .inl ⟨e, rfl⟩
  have hs := ((ipcPortSendCheck_spec dstp current ipch).yields _ hch).2.2
  rcases hsn with ⟨rfl, rfl, rfl⟩ | ⟨rfl, rfl, rfl⟩
  · exact .inr ⟨rfl, sentOne_setPort hd (hs.imp And.left (·.2.2))⟩
  -- a check that does not pass has left the destination as it was
  · obtain ⟨rfl, -⟩ := hs.resolve_right fun h => by cases h.1
    exact .inl ⟨_, by rw [setPort_eq_self hd]⟩

/-- **A failed send changes nothing**: a send that returns an error leaves every port as it was, and
one that succeeds has sent one message. It returns if there is memory for the message. -/
theorem failed_send_changes_nothing (mem : Bool) (current : τ) (ipch : IpcHeader)
    (page : Option UInt64) (s : IpcState τ) :
    Guarded (mem = true) (ipcPortSendPage mem current ipch page s) fun p =>
      (∀ e, p.2 = .error e → p.1 = s) ∧ (p.2 = .ok () → SentOne current ⟨ipch, page⟩ s p.1) := by
  refine (ipcPortSendPage_sends mem current ipch page s).mono ?_
  rintro p (⟨e, rfl⟩ | ⟨ho, hs⟩)
  · exact ⟨fun _ _ => rfl, nofun⟩
  · refine ⟨fun e he => ?_, fun _ => hs⟩
    rw [ho] at he
    cases he

/-! ## Receiving -/

section Receiving

variable {ν ι : Type} [DecidableEq ν] [DecidableEq ι] (kernelVm : ν)

/-- `ipc_port_receive`; a task that passes no `vpagep` refuses pages, and the page of its message is
released. -/
def ipcPortReceiveAny (vpagep : Bool) (supply : Supply ι) (current : τ) (vm : ν) (port : UInt32)
    (s : System ν ι τ) :
    Outcome (System ν ι τ × Except Errno (IpcHeader × Option UInt64)) :=
  if vpagep then ipcPortReceive kernelVm supply current vm port s
  else do
    match ← ipcPortDequeue current port s.ipc with
    | (ipc, .error e) => pure ({ s with ipc }, .error e)
    | (ipc, .ok ipcmsg) =>
      let ipc ← ipcPortAccept supply.mem current ipcmsg ipc
      match ipcmsg.ipcmsgPage with
      | none => pure ({ s with ipc }, .ok (ipcmsg.ipcmsgHeader, none))
      | some page =>
        let vm ← s.vm.onMem (MemState.onPages (pageRelease page))
        pure (⟨vm, ipc⟩, .ok (ipcmsg.ipcmsgHeader, none))

/-- **A message is used after it has been freed**: the page that it brings cannot be mapped at the
address that was allocated for it. -/
def UsesFreed (supply : Supply ι) (current : τ) (vm : ν) (port : UInt32) (s : System ν ι τ) :
    Prop :=
  ∃ ipc m ipc' page s' vaddr e, ipcPortDequeue current port s.ipc = .ok (ipc, .ok m) ∧
    ipcPortAccept supply.mem current m ipc = .ok ipc' ∧ m.ipcmsgPage = some page ∧
    ipcMapPage kernelVm supply.user₁ supply.user₂ vm page s.vm =
      .ok (s', .user (.ok vaddr) (.error e))

/-- **The call is atomic**: if it returns an error, nothing has changed, and it does not use a
message that it has freed. -/
structure ReceiveAtomic (vpagep : Bool) (supply : Supply ι) (current : τ) (vm : ν) (port : UInt32)
    (s : System ν ι τ) : Prop where
  unchanged : ∀ s' e,
    ipcPortReceiveAny kernelVm vpagep supply current vm port s = .ok (s', .error e) → s' = s
  unused : vpagep = true → ¬ UsesFreed kernelVm supply current vm port s

/-- The right of a message can be inserted: it has none, or its source port has an entry for the
task, needs none, or there is memory for one. -/
def RightStored (mem : Bool) (current : τ) (m : IpcMessage) (s : IpcState τ) : Prop :=
  m.ipcmsgHeader.ipchdrRight = ipcPortRightNone ∨
    ∃ ipcp, s.ipcPorts m.ipcmsgHeader.ipchdrSrc = some ipcp ∧
      (mem = true ∨ ipcPortRightLookup ipcp current ≠ none ∨
        m.ipcmsgHeader.ipchdrRight &&& ipcPortRightReceiveBit = 0 ∧
          ipcp.ipcpFlags &&& ipcPortFlagPublic ≠ 0)

/-- **A page can be mapped** in an address space: there is a free index, and the page table reaches
to the base of the first one. -/
def Mappable (pm : Pmap) (index : IndexMap ι) : Prop :=
  ∃ F x, index.vmIndexFree.Represents F ∧ F.inorder.head? = some x ∧
    ¬ pm.Outside (index.vmi x).vmiBase

/-- **Messages and memory agree**: the references to pages are counted, the indices of an address
space are disjoint and cover it, and the page of a message has been allocated for it. -/
structure MessagesSound (s : System ν ι τ) (N : List TreePage) (allocs maps : UInt64 → ℕ) :
    Prop where
  counted : MemCounted s.vm.mem N allocs maps
  spaces : ∀ u, ∃ a b, 8192 ∣ a ∧ b < 2 ^ 64 ∧ IndexInv a b (s.vm.index u)
  queued : ∀ port, ∀ m ∈ queueOf s.ipc port, ∀ page, m.ipcmsgPage = some page →
    Inserted N page ∧ 0 < allocs page ∧ (s.vm.mem.pages.pgRefcnt page).toNat + 1 < 2 ^ 32

omit [DecidableEq ι] in
variable {kernelVm} in
theorem VmOwned.messagesSound {s : System ν ι τ} {l : Ledger ν} {q : List (UInt32 × UInt64)}
    (h : VmOwned kernelVm s.vm l (heldBy q)) (hq : QueuedPages s.ipc q) (hs : l.Slack 2) :
    MessagesSound s l.treePages l.allocRefs l.mapRefs := by
  refine ⟨h.pages.counted, fun u => ?_, fun port m hm page hp => ?_⟩
  · obtain ⟨a, b, ha, hb, hinv, -⟩ := h.spaces u
    exact ⟨a, b, ha, hb, hinv⟩
  · have hal := h.mem_allocs_of_held (hq.heldBy_pos hm hp)
    have hr := (h.pages.pgRefcnt hal).2
    have hbn := hs page hal
    exact ⟨h.pages.allocs page hal, count_pos_iff.mpr hal, by omega⟩

/-! ### The parts on the ports -/

section Ports

variable {s : IpcState τ} {m : IpcMessage} {current : τ} {port : UInt32} {mem : Bool}

theorem ipcPortRightInsert_ok_iff {ipcp : IpcPort τ} {right : UInt16} :
    (∃ ipcp', ipcPortRightInsert mem ipcp current right = .ok ipcp') ↔
      mem = true ∨ ipcPortRightLookup ipcp current ≠ none ∨
        right &&& ipcPortRightReceiveBit = 0 ∧ ipcp.ipcpFlags &&& ipcPortFlagPublic ≠ 0 := by
  rw [ipcPortRightInsert]
  split
  · rename_i hp
    exact iff_of_true ⟨_, rfl⟩ (.inr (.inr hp))
  rename_i hp
  cases he : ipcPortRightLookup ipcp current with
  | some r => exact iff_of_true ⟨_, rfl⟩ (.inr (.inl (Option.some_ne_none r)))
  | none =>
    cases mem with
    | true => exact iff_of_true ⟨_, rfl⟩ (.inl rfl)
    | false =>
      refine iff_of_false ?_ ?_
      · rintro ⟨_, ⟨⟩⟩
      · rintro (h | h | h)
        · cases h
        · exact h rfl
        · exact hp h

theorem ipcPortAccept_ok_iff :
    (∃ s', ipcPortAccept mem current m s = .ok s') ↔ RightStored mem current m s := by
  rw [ipcPortAccept, RightStored]
  by_cases hn : m.ipcmsgHeader.ipchdrRight = ipcPortRightNone
  · rw [if_neg (not_not.mpr hn)]
    exact iff_of_true ⟨_, rfl⟩ (.inl hn)
  rw [if_pos hn, or_iff_right hn]
  cases hsrc : s.ipcPorts m.ipcmsgHeader.ipchdrSrc with
  | none =>
    refine iff_of_false ?_ ?_
    · rintro ⟨_, ⟨⟩⟩
    · rintro ⟨_, ⟨⟩, _⟩
  | some ipcp =>
    constructor
    · rintro ⟨s', hs'⟩
      obtain ⟨ipcp', hin, -⟩ := bind_eq_ok.mp hs'
      exact ⟨ipcp, rfl, ipcPortRightInsert_ok_iff.mp ⟨ipcp', hin⟩⟩
    · rintro ⟨_, ⟨⟩, hst⟩
      obtain ⟨ipcp', hin⟩ := ipcPortRightInsert_ok_iff.mpr hst
      exact ⟨_, bind_eq_ok.mpr ⟨ipcp', hin, rfl⟩⟩

theorem rightStored_setMsgs {ipcp : IpcPort τ} (hp : s.ipcPorts port = some ipcp)
    (msgs : List IpcMessage) :
    RightStored mem current m (s.setPort port { ipcp with ipcpMsgs := msgs }) ↔
      RightStored mem current m s := by
  refine or_congr_right ?_
  rw [setPort_ipcPorts]
  split
  · rename_i hs
    rw [hs, hp]
    constructor
    · rintro ⟨_, ⟨⟩, h⟩
      exact ⟨ipcp, rfl, h⟩
    · rintro ⟨_, ⟨⟩, h⟩
      exact ⟨_, rfl, h⟩
  · exact Iff.rfl

end Ports

/-! ### The page of a message -/

section Pages

variable {kernelVm} {vm : ν} {page : UInt64} {N : List TreePage} {allocs maps : UInt64 → ℕ}
  {s : VmState ν ι} {a b : ℕ} {new₁ new₂ : Option ι}

theorem ipcMapPage_kernel : Yields (ipcMapPage kernelVm new₁ new₂ kernelVm page s) fun r =>
      ∃ vaddr, r.2 = .kernel (.ok vaddr) := by
  rw [ipcMapPage, if_pos rfl, pageMapDirect, if_pos rfl, bind_assoc]
  refine Yields.bind (fun _ _ => trivial) fun pages _ => ?_
  exact .ret ⟨_, rfl⟩

omit [DecidableEq ν] [DecidableEq ι] in
theorem MemCounted.releasePage (hc : MemCounted s.mem N allocs maps) (hi : Inserted N page)
    (hhl : 0 < allocs page) :
    Ensures (s.onMem (MemState.onPages (pageRelease page))) fun _ => True := by
  -- the reference that goes is one of those that are counted
  obtain ⟨allocs', rfl⟩ : ∃ allocs', allocs = bump allocs' page := by
    refine ⟨fun q => allocs q - if q = page then 1 else 0, funext fun q => ?_⟩
    rw [bump]
    split
    · rename_i hq
      rw [hq]
      omega
    · rfl
  exact (hc.dropAlloc hi).bind fun _ _ => .ret trivial

omit [DecidableEq ι] in
theorem mappable_iff {index : IndexMap ι} {F : BinaryTree ι} {pm : Pmap}
    (hF : index.vmIndexFree.Represents F) :
    Mappable pm index ↔ ∃ x, F.inorder.head? = some x ∧ ¬ pm.Outside (index.vmi x).vmiBase := by
  constructor
  · rintro ⟨F', x, hF', hx⟩
    obtain rfl := hF.unique hF'
    exact ⟨x, hx⟩
  · rintro ⟨x, hx⟩
    exact ⟨F, x, hF, hx⟩

omit [DecidableEq ι] in
theorem find_one_page {index : IndexMap ι} {T F : BinaryTree ι} (hL : Linked index T F)
    (ht : Tiling.Tiles index.lo index.len a b T.inorder) :
    (F.inorder.find? fun x => ¬ (index.vmi x).vmiSize < 1) = F.inorder.head? := by
  cases hF : F.inorder with
  | nil => rfl
  | cons x xs =>
    have hx := ((hL.mem_free x).mp (hF ▸ mem_cons_self)).1
    have hlen := (ht.bounds hx).2.1
    rw [IndexMap.len] at hlen
    refine find?_cons_of_pos (decide_eq_true ?_)
    rw [UInt64.lt_iff_toNat_lt, UInt64.toNat_one]
    omega

variable (hc : MemCounted s.mem N allocs maps) (hinv : IndexInv a b (s.index vm))
  (ha : 8192 ∣ a) (hb : b < 2 ^ 64)
  (hnew : ∀ T, (s.index vm).vmIndex.Represents T → Fresh new₁ new₂ T) (hpool : new₂ ≠ none)
  (hi : Inserted N page) (hhl : 0 < allocs page)
  (href : (s.mem.pages.pgRefcnt page).toNat + 1 < 2 ^ 32)
include hinv ha hb hnew hpool

omit [DecidableEq ν] in
theorem alloc_page_address :
    Ensures (vmAllocAddress new₁ new₂ 1 false (s.index vm)) fun p => IndexInv a b p.1 ∧
      ((∃ vaddr, p.2 = .ok vaddr ∧ PageAligned vaddr ∧ InUseAt p.1 vaddr ∧
          (Mappable (s.mem.pmap vm) (s.index vm) ↔ ¬ (s.mem.pmap vm).Outside vaddr)) ∨
        (∃ e, p.2 = .error e) ∧ ¬ Mappable (s.mem.pmap vm) (s.index vm)) := by
  have htk := hinv.allocAddress_taken ha hb hnew (show 1 ≤ (1 : UInt64) by decide) false
  obtain ⟨T, F, hL, ht⟩ := hinv
  have hf := vmAllocAddress_first hL (placed_of_tiles ht ha) hb (hnew T hL.tree) hpool 1
  have hm : Mappable (s.mem.pmap vm) (s.index vm) ↔ _ := mappable_iff hL.free
  rw [find_one_page hL ht] at hf
  refine (htk.and hf.yields).mono ?_
  rintro ⟨index, r⟩ ⟨⟨hinv', ho, -⟩, hf⟩
  refine ⟨hinv', ?_⟩
  cases hx : F.inorder.head? with
  | none =>
    rw [hx] at hf
    cases hf
    refine .inr ⟨⟨_, rfl⟩, fun h => ?_⟩
    obtain ⟨x, hx', -⟩ := hm.mp h
    cases hx.symm.trans hx'
  | some x =>
    rw [hx] at hf
    subst hf
    have ht := (ho _ rfl).1
    refine .inl ⟨_, rfl, ht.pageAligned, (ht.inUse _).mpr (.inr ⟨le_rfl, ?_⟩), ?_⟩
    · rw [UInt64.toNat_one]
      omega
    · rw [hm]
      constructor
      · rintro ⟨x', hx', hin⟩
        obtain rfl := Option.some.inj (hx.symm.trans hx')
        exact hin
      · exact fun hin => ⟨x, hx, hin⟩

variable (hu : vm ≠ kernelVm)
include hc hi href hu

theorem ipcMapPage_mappable (hm : Mappable (s.mem.pmap vm) (s.index vm)) :
    Yields (ipcMapPage kernelVm new₁ new₂ vm page s) fun r =>
      ∃ vaddr, r.2 = .user (.ok vaddr) (.ok ()) := by
  rw [ipcMapPage, if_neg hu]
  refine (alloc_page_address hinv ha hb hnew hpool).yields.bind ?_
  rintro ⟨index, r⟩ ⟨-, ⟨vaddr, hr, -, -, hin⟩ | ⟨-, hn⟩⟩
  · subst hr
    refine (hc.pageMap hi href False.elim).yields.bind ?_
    rintro ⟨mem, r⟩ ⟨⟨hr, -⟩ | ⟨-, -, ho⟩, -⟩
    · subst hr
      exact .ret ⟨vaddr, rfl⟩
    · exact absurd ho (hin.mp hm)
  · exact absurd hm hn

include hhl in
theorem ipcMapPage_unmappable (hm : ¬ Mappable (s.mem.pmap vm) (s.index vm)) :
    Ensures (ipcMapPage kernelVm new₁ new₂ vm page s) fun r =>
      (∃ e, r.2 = .user (.error e) (.ok ())) ∨ ∃ vaddr e, r.2 = .user (.ok vaddr) (.error e) := by
  rw [ipcMapPage, if_neg hu]
  refine (alloc_page_address hinv ha hb hnew hpool).bind ?_
  rintro ⟨index, r⟩ ⟨hinv', ⟨vaddr, hr, hv, huse, hin⟩ | ⟨⟨e, hr⟩, -⟩⟩
  · subst hr
    have ho : (s.mem.pmap vm).Outside vaddr := not_not.mp fun h => hm (hin.mpr h)
    have hf : Ensures (pageMap kernelVm vm vaddr page s.mem) _ :=
      (hc.pageMap hi href fun _ h => absurd ho h).ensures trivial
    refine (hf.and (pageMap_pte hv)).bind ?_
    rintro ⟨mem, r⟩ ⟨⟨⟨hr, -⟩ | ⟨⟨e, hr⟩, hc', -⟩, -⟩, hpte⟩
    · rcases hpte with ⟨-, hin, -⟩ | ⟨⟨e, he⟩, -⟩
      · exact absurd ho hin
      · cases hr.symm.trans he
    · subst hr
      have hid : ({ s.setIndex vm index with mem } : VmState ν ι).index vm = index :=
        s.setIndex_self vm index
      refine Ensures.bind (P := fun s' => s'.mem = mem) ?_ ?_
      · rw [vmReleaseAddress, hid]
        have hg := hinv'.freeAddress_given hb huse
        refine (ensures_orPanic (P := fun _ => True) (hg.mono fun p hp => ?_)).bind
          fun _ _ => .ret rfl
        exact ⟨hp.2.1, trivial⟩
      · rintro s' rfl
        refine (hc'.releasePage hi hhl).bind fun s'' _ => ?_
        exact .ret (.inr ⟨vaddr, e, rfl⟩)
  · subst hr
    refine MemCounted.releasePage (s := s.setIndex vm index) hc hi hhl |>.bind fun s' _ => ?_
    exact .ret (.inl ⟨e, rfl⟩)

end Pages

/-! ### The call -/

section Call

variable {kernelVm} {vm : ν} {N : List TreePage} {allocs maps : UInt64 → ℕ}
  {s : System ν ι τ} {supply : Supply ι} {current : τ} {port : UInt32}

theorem receiveAtomic_of_refused {e : Errno}
    (hdeq : ipcPortDequeue current port s.ipc = .ok (s.ipc, .error e)) (vpagep : Bool) :
    ReceiveAtomic kernelVm vpagep supply current vm port s := by
  refine ⟨fun s' e' hs' => ?_, ?_⟩
  · have hcl : ipcPortReceiveAny kernelVm vpagep supply current vm port s = .ok (s, .error e) := by
      cases vpagep with
      | false => rw [ipcPortReceiveAny, hdeq]; rfl
      | true => rw [ipcPortReceiveAny, ipcPortReceive, hdeq]; rfl
    exact (congrArg Prod.fst (Except.ok.inj (hcl.symm.trans hs'))).symm
  · rintro - ⟨ipc, m, -, -, v, -, e', hdeq', -⟩
    cases hdeq.symm.trans hdeq'

section Taken

variable {ipc ipc' : IpcState τ} {m : IpcMessage}
  (hdeq : ipcPortDequeue current port s.ipc = .ok (ipc, .ok m))

include hdeq in
theorem receiveAtomic_of_halted
    (hac : ∀ ipc', ipcPortAccept supply.mem current m ipc ≠ .ok ipc') (vpagep : Bool) :
    ReceiveAtomic kernelVm vpagep supply current vm port s := by
  refine ⟨fun s' e hs' => ?_, ?_⟩
  · cases vpagep with
    | false =>
      rw [ipcPortReceiveAny, hdeq, ok_bind] at hs'
      obtain ⟨ipc', hipc', -⟩ := bind_eq_ok.mp hs'
      exact absurd hipc' (hac ipc')
    | true =>
      rw [ipcPortReceiveAny, ipcPortReceive, hdeq, ok_bind] at hs'
      obtain ⟨ipc', hipc', -⟩ := bind_eq_ok.mp hs'
      exact absurd hipc' (hac ipc')
  · rintro - ⟨ipc₁, m₁, ipc', -, v, -, -, hdeq', hac', -⟩
    cases hdeq.symm.trans hdeq'
    exact hac ipc' hac'

variable (hac : ipcPortAccept supply.mem current m ipc = .ok ipc')
include hdeq hac

theorem ipcPortReceive_page {page : UInt64} (hp : m.ipcmsgPage = some page) :
    ipcPortReceive kernelVm supply current vm port s = (do
      let (v, reply) ← ipcMapPage kernelVm supply.user₁ supply.user₂ vm page s.vm
      let r ← ipcPortDeliver true reply m
      pure (⟨v, ipc'⟩, r)) := by
  rw [ipcPortReceive, hdeq, ok_bind]
  dsimp only
  rw [hac, ok_bind, ipcReceivePage, hp]
  simp only [bind_assoc, pure_bind]

theorem receiveAtomic_of_maps {vpagep : Bool}
    (hrp : ∀ page, vpagep = true → m.ipcmsgPage = some page →
      Yields (ipcMapPage kernelVm supply.user₁ supply.user₂ vm page s.vm) fun r =>
        ∃ vaddr, r.2 = .user (.ok vaddr) (.ok ()) ∨ r.2 = .kernel (.ok vaddr)) :
    ReceiveAtomic kernelVm vpagep supply current vm port s := by
  have ho : Yields (ipcPortReceiveAny kernelVm vpagep supply current vm port s) fun p =>
      ∃ r, p.2 = .ok r := by
    rw [ipcPortReceiveAny]
    cases hp : m.ipcmsgPage with
    | none =>
      split
      · rw [ipcPortReceive, hdeq, ok_bind]
        dsimp only
        rw [hac, ipcReceivePage, hp]
        exact .ret ⟨_, rfl⟩
      · rw [hdeq, ok_bind]
        dsimp only
        rw [hac, hp]
        exact .ret ⟨_, rfl⟩
    | some page =>
      split
      · rename_i hv
        rw [ipcPortReceive_page hdeq hac hp]
        refine (hrp page hv hp).bind ?_
        rintro ⟨v, reply⟩ ⟨vaddr, hr⟩
        dsimp only
        rw [ipcPortDeliver.eq_def, hp]
        rcases hr with rfl | rfl <;> exact .ret ⟨_, rfl⟩
      · rw [hdeq, ok_bind]
        dsimp only
        rw [hac, ok_bind, hp]
        exact Yields.bind (fun _ _ => trivial) fun _ _ => .ret ⟨_, rfl⟩
  refine ⟨fun s' e hs' => ?_, ?_⟩
  · obtain ⟨r, hr⟩ := ho _ hs'
    cases hr
  · rintro hv ⟨ipc₁, m₁, -, page, v, vaddr, e, hdeq', -, hp, hm⟩
    cases hdeq.symm.trans hdeq'
    obtain ⟨vaddr', hr | hr⟩ := hrp page hv hp _ hm
    · cases hr
    · cases hr

theorem not_receiveAtomic (hne : ipc' ≠ s.ipc) {page : UInt64} (hp : m.ipcmsgPage = some page)
    (hrp : Ensures (ipcMapPage kernelVm supply.user₁ supply.user₂ vm page s.vm) fun r =>
      (∃ e, r.2 = .user (.error e) (.ok ())) ∨ ∃ vaddr e, r.2 = .user (.ok vaddr) (.error e)) :
    ¬ ReceiveAtomic kernelVm true supply current vm port s := by
  rintro ⟨hun, hus⟩
  obtain ⟨⟨v, reply⟩, hm, ⟨e, hr⟩ | ⟨vaddr, e, hr⟩⟩ := hrp
  · subst hr
    have hcl : ipcPortReceiveAny kernelVm true supply current vm port s =
        .ok (⟨v, ipc'⟩, .error e) := by
      rw [ipcPortReceiveAny, ipcPortReceive_page hdeq hac hp, hm, ok_bind]
      dsimp only
      rw [ipcPortDeliver, hp]
      rfl
    exact hne (congrArg System.ipc (hun _ _ hcl))
  · subst hr
    exact hus rfl ⟨ipc, m, ipc', page, v, vaddr, e, hdeq, hac, hp, hm⟩

end Taken

end Call

end Receiving

/-! ### One message with a page -/

def queuedPage : UInt64 := entryOf 16 1

def queuedMem : MemState ℕ where
  pages := ((do
    let pages ← PageRange.insert ⟨16, 2, add_two_le_frameEnd⟩ (pageInit blankPages)
    let (pages, _) ← pageAlloc 0 pages
    pure pages : Outcome PageState)).toOption.getD blankPages
  pmap := fun vm => if vm = 0 then kernelPmap else userPmap
  ptPages := []

theorem queuedMem_inv :
    PageInvariant 0 ⟨queuedMem, ⟨[⟨16, 2, by decide⟩], [queuedPage], [], []⟩⟩ := by
  have hr : Run (PageStep 0) (PageMachine.boot 0 blankPages) _ _ :=
    (Run.nil.snoc (PageStep.call (c := .insertPages ⟨16, 2, by decide⟩)
      (fun r' hr' => absurd hr' not_mem_nil) rfl)).snoc
      (PageStep.call (c := .alloc 0) trivial rfl)
  exact hr.invariant_of_forall (pageInvariant_boot blankPages)
    (fun _ _ _ hinv hc hs => hinv.step hc hs)
    (forall_mem_append.mpr ⟨forall_mem_singleton.mpr nofun, forall_mem_singleton.mpr trivial⟩)

/-- Task 7 receives on port 3, where a message waits that brings the page and a right to send to
port 4. -/
def queuedSystem (index : IndexMap ℕ) : System ℕ ℕ ℕ where
  vm := ⟨queuedMem, fun _ => index⟩
  ipc :=
    { ipcPorts := fun p =>
        if p = 3 then some ⟨0, [⟨⟨4, 3, 1, 1, 0, 0⟩, some queuedPage⟩], KeyedList.put 7 4 .empty⟩
        else if p = 4 then some ⟨0, [], .empty⟩ else none
      ipcPortNext := 5 }

theorem queuedSystem_sound {index : IndexMap ℕ} {a b : ℕ} (hinv : IndexInv a b index)
    (ha : 8192 ∣ a) (hb : b < 2 ^ 64) :
    ∃ N allocs maps, MessagesSound (queuedSystem index) N allocs maps := by
  refine ⟨_, _, _, queuedMem_inv.counted, fun _ => ⟨a, b, ha, hb, hinv⟩, ?_⟩
  intro port m hm page hp
  -- the only message is the one on port 3
  have hpr : port = 3 := by
    by_contra hne
    simp only [queueOf, queuedSystem, if_neg hne] at hm
    split at hm
    · cases hm
    · cases hm
  subst hpr
  obtain rfl := mem_singleton.mp hm
  obtain rfl := Option.some.inj hp
  have hal : queuedPage ∈ [queuedPage] := mem_singleton_self _
  have hr : (queuedMem.pages.pgRefcnt queuedPage).toNat = 1 := by decide +kernel
  refine ⟨queuedMem_inv.allocs _ hal, count_pos_iff.mpr hal, ?_⟩
  exact Nat.lt_of_le_of_lt (Nat.succ_le_succ hr.le) (by decide)

def pageIndex (base : UInt64) : IndexMap ℕ :=
  ((vmInsertRange (some 0) base (base + pageSize) (vmSetup2 blankIndex)).toOption.map
    Prod.fst).getD blankIndex

def fullIndex : IndexMap ℕ :=
  ((vmAllocAddress none none 1 false (pageIndex 8192)).toOption.map Prod.fst).getD blankIndex

theorem fullIndex_inv : IndexInv 8192 16384 fullIndex := by
  have hin : vmInsertRange (some 0) 8192 16384 (vmSetup2 blankIndex) =
      .ok (pageIndex 8192, .ok ()) := rfl
  have hs : IndexStep (pageIndex 8192) (.allocAddress none none 1 false) fullIndex :=
    ⟨⟨by decide, fun _ _ => ⟨nofun, nofun, nofun⟩⟩, rfl⟩
  exact (IndexInv.run (by decide) (by decide) (by decide) hin (Run.nil.snoc hs)).2.2

def stockedSupply : Supply ℕ := ⟨some 1, some 2, none, none, true⟩

/-! ### When the call is atomic -/

/-- **When `ipc_port_receive` is atomic**: a message whose page a user task would take, and whose
right can be inserted, is left to a call that can map the page. The pool has an index for what is
left of the one that is split. -/
theorem receive_atomic_iff {ν ι : Type} [DecidableEq ν] [DecidableEq ι] {kernelVm vm : ν}
    {s : System ν ι τ} {N : List TreePage} {allocs maps : UInt64 → ℕ}
    (h : MessagesSound s N allocs maps) {supply : Supply ι}
    (hnew : ∀ T, (s.vm.index vm).vmIndex.Represents T → Fresh supply.user₁ supply.user₂ T)
    (hpool : supply.user₂ ≠ none) (vpagep : Bool) (current : τ) (port : UInt32) :
    ReceiveAtomic kernelVm vpagep supply current vm port s ↔
      (vpagep = true → vm ≠ kernelVm → Holds s.ipc current port receiveBit →
        ∀ m ∈ (queueOf s.ipc port).head?, m.ipcmsgPage ≠ none →
          RightStored supply.mem current m s.ipc →
            Mappable (s.vm.mem.pmap vm) (s.vm.index vm)) := by
  rcases ipcPortDequeue_cases current with
    ⟨⟨e, hdeq⟩, he⟩ | ⟨ipcp, m, msgs, hpr, hms, hh, hdeq⟩
  · refine iff_of_true (receiveAtomic_of_refused hdeq vpagep) fun _ _ hh m hm => ?_
    rw [he hh] at hm
    cases hm
  have hq : queueOf s.ipc port = m :: msgs := by
    rw [queueOf, hpr]
    exact hms
  rw [hq]
  have hs : RightStored supply.mem current m _ ↔ RightStored supply.mem current m s.ipc :=
    rightStored_setMsgs hpr msgs
  by_cases hac : RightStored supply.mem current m s.ipc
  · obtain ⟨ipc', hipc'⟩ := ipcPortAccept_ok_iff.mpr (hs.mpr hac)
    have hne : ipc' ≠ s.ipc := by
      -- the message is not in the queue any more
      intro heq
      have hsm := (ipcPortAccept_spec m _ hipc').2.2.2 port
      rw [queueOf_setPort, if_pos rfl, heq, hq] at hsm
      exact cons_ne_self m msgs hsm
    by_cases hmp : vpagep = true ∧ vm ≠ kernelVm ∧ m.ipcmsgPage ≠ none ∧
        ¬ Mappable (s.vm.mem.pmap vm) (s.vm.index vm)
    · obtain ⟨rfl, hu, hp, hmap⟩ := hmp
      obtain ⟨page, hp⟩ := Option.ne_none_iff_exists'.mp hp
      obtain ⟨a, b, ha, hb, hinv⟩ := h.spaces vm
      obtain ⟨hi, hhl, href⟩ := h.queued port m (hq ▸ mem_cons_self) page hp
      refine iff_of_false (not_receiveAtomic hdeq hipc' hne hp ?_) fun hcn => hmap ?_
      · exact ipcMapPage_unmappable h.counted hinv ha hb hnew hpool hi hhl href hu hmap
      · exact hcn rfl hu hh m rfl (by rw [hp]; exact Option.some_ne_none page) hac
    · refine iff_of_true (receiveAtomic_of_maps hdeq hipc' fun page hv hp => ?_) ?_
      · by_cases hu : vm = kernelVm
        · subst hu
          exact ipcMapPage_kernel.mono fun _ => Exists.imp fun _ => .inr
        · obtain ⟨a, b, ha, hb, hinv⟩ := h.spaces vm
          obtain ⟨hi, -, href⟩ := h.queued port m (hq ▸ mem_cons_self) page hp
          have hmap : Mappable (s.vm.mem.pmap vm) (s.vm.index vm) := by
            by_contra hmap
            exact hmp ⟨hv, hu, by rw [hp]; exact Option.some_ne_none page, hmap⟩
          refine (ipcMapPage_mappable h.counted hinv ha hb hnew hpool hi href hu hmap).mono ?_
          exact fun _ => Exists.imp fun _ => .inl
      · rintro hv hu - _ ⟨⟩ hp -
        by_contra hmap
        exact hmp ⟨hv, hu, hp, hmap⟩
  · refine iff_of_true (receiveAtomic_of_halted hdeq (fun ipc' hipc' => ?_) vpagep) ?_
    · exact hac (hs.mp (ipcPortAccept_ok_iff.mp ⟨ipc', hipc'⟩))
    · rintro - - - _ ⟨⟩ - h
      exact absurd h hac

/-- The page of the message can be mapped in a free page of addresses. -/
theorem receive_atomic_iff_mapped :
    ReceiveAtomic 0 true stockedSupply 7 1 3 (queuedSystem (pageIndex 8192)) := by
  have hin : vmInsertRange (some 0) 8192 16384 (vmSetup2 blankIndex) =
      .ok (pageIndex 8192, .ok ()) := rfl
  obtain ⟨ha, hb, hinv⟩ := IndexInv.run (by decide) (by decide) (by decide) hin .nil
  obtain ⟨N, allocs, maps, hs⟩ := queuedSystem_sound hinv ha hb
  have hT : (pageIndex 8192).vmIndex.Represents (.node 0 .nil .nil) :=
    ⟨⟨rfl, rfl, rfl, rfl⟩, by decide, by decide⟩
  have hnew : ∀ T, ((queuedSystem (pageIndex 8192)).vm.index 1).vmIndex.Represents T →
      Fresh stockedSupply.user₁ stockedSupply.user₂ T := fun T h =>
    hT.unique h ▸ ⟨by decide, by decide, by decide⟩
  refine (receive_atomic_iff hs hnew (Option.some_ne_none 2) true 7 3).mpr ?_
  intro _ _ _ _ _ _ _
  exact ⟨.node 0 .nil .nil, 0, ⟨⟨rfl, rfl, rfl, rfl⟩, by decide, by decide⟩, rfl, by decide⟩

/-- **A message is lost**: the receiver has no address left. The call returns an error, but the
message is not in the queue any more, its page is free, and its right has been inserted. -/
theorem receive_loses_message :
    (∃ N allocs maps, MessagesSound (queuedSystem fullIndex) N allocs maps) ∧
      ∃ s', ipcPortReceiveAny 0 true stockedSupply 7 1 3 (queuedSystem fullIndex) =
          .ok (s', .error .notImplemented) ∧
        queueOf (queuedSystem fullIndex).ipc 3 ≠ [] ∧ queueOf s'.ipc 3 = [] ∧
        queuedPage ∉ (queuedSystem fullIndex).vm.mem.pages.pageFreeQueue ∧
        queuedPage ∈ s'.vm.mem.pages.pageFreeQueue ∧
        ¬ Holds (queuedSystem fullIndex).ipc 7 4 sendBit ∧ Holds s'.ipc 7 4 sendBit := by
  refine ⟨queuedSystem_sound fullIndex_inv (by decide) (by decide), _, rfl, ?_, rfl, ?_, ?_, ?_, ?_⟩
  · exact cons_ne_nil _ _
  · decide +kernel
  · decide +kernel
  · decide
  · decide

end Glatt
