import Glatt.Ipc.SendOnce
import Glatt.Network.Interface

/-!
# Delivery of packets

A packet is sent to its receiver by the interrupt that finds it in the device. The send goes through
the checks of `ipc_port_send_page`, which are on the rights of the current task, and this is the
task that the interrupt was taken in. It also takes the mutexes of the ports, in the name of the
thread that was interrupted; interrupts are enabled while a thread has a mutex, and `mutex_lock`
panics if the thread has it already.

The machine is the ports with the interface, and the owners of the mutexes. Its steps are the IPC
calls of any task, the messages that the service of the interface handles, threads that take or
release a mutex, and the rounds of the interrupt, which may come while threads have mutexes.

## Main definitions

* `NetMachine.round`: a round of the interrupt, in a thread
* `MayDeliver`, `sendMutexes`: the rights and the mutexes that a send needs
* `NetStep`: the steps of the machine

## Main results

* `packets_delivered_iff`: packets are delivered exactly if the tasks that are interrupted have the
  rights for it, and no thread has a mutex that the send takes
* `packet_lost`: an interrupt of another task than that of the service loses its packet
-/

namespace Glatt

open Imperative Imperative.Traced Transition Function List Buffer

variable {θ τ : Type} [LinearOrder τ] {sup : PageSupply} {rd : TmetherRead}

/-! ## Attaching an interface -/

/-- `ipc_service` for a port that it allocates: the task of the service gets the receive right, and
the current task drops it. -/
def ipcServiceNew (mem : Bool) (task : Except Errno τ) (thread : Except Errno Unit) (current : τ)
    (flags : UInt32) (s : IpcState τ) : Outcome (IpcState τ × UInt32) :=
  match task, thread with
  | .error _, _ => .error .panic
  | .ok _, .error _ => .error .panic
  | .ok task, .ok () => do
    match ← ipcPortAllocate mem current (flags &&& ~~~ ipcPortFlagNew) s with
    | (_, .error _) => .error .panic
    | (s, .ok port) =>
      let s ← orPanic (ipcPortRightGrant mem current task port ipcPortRightReceiveBit s)
      let s ← orPanic (ipcPortRightDrop current port ipcPortRightReceiveBit s)
      pure (s, port)

/-- `network_interface_attach`, by `tmether_setup`: the interface has no receiver. -/
def networkInterfaceAttach (mem : Bool) (task : Except Errno τ) (thread : Except Errno Unit)
    (current : τ) (mac : ℕ → UInt8) (s : IpcState τ) :
    Outcome (IpcState τ × NetworkInterface × UInt32) := do
  let (s, port) ← ipcServiceNew mem task thread current (ipcPortFlagPublic ||| ipcPortFlagNew) s
  pure (s, tmetherInterface mac ⟨0, 0, 0, 0, 0, 0⟩, port)

/-! ## The checks of a send -/

/-- The rights that the checks of a send ask for: the receive right on the source port, and a right
to send to the destination unless that is public. -/
def MayDeliver (ipch : IpcHeader) (s : IpcState τ) (current : τ) : Prop :=
  Holds s current ipch.ipchdrSrc receiveBit ∧
    (IsPublic s ipch.ipchdrDst ∨ MaySend s current ipch.ipchdrDst)

instance (s : IpcState τ) (t : τ) (p : UInt32) : Decidable (MaySend s t p) :=
  inferInstanceAs (Decidable (_ ∨ _ ∨ _))

instance (ipch : IpcHeader) (s : IpcState τ) (current : τ) :
    Decidable (MayDeliver ipch s current) :=
  inferInstanceAs (Decidable (_ ∧ (_ ∨ _)))

variable {ipch : IpcHeader}

theorem ipcPortSendPage_decides (ipch : IpcHeader) (hm : ipch.ipchdrMsg ≠ ipcMsgNone)
    (current : τ) {page : Option UInt64} (s : IpcState τ) :
    ∃ s' r, ipcPortSendPage true current ipch page s = .ok (s', r) ∧
      (r = .ok () ↔ MayDeliver ipch s current) := by
  obtain ⟨⟨s', r⟩, hc⟩ := (ipcPortSendPage_cases current).returns rfl
  refine ⟨s', r, hc, (ipcPortSendPage_ok_iff _ hc).trans ?_⟩
  rw [MayDeliver]
  constructor
  · rintro ⟨-, hs, dstp, hd, hp⟩
    refine ⟨hs, ?_⟩
    rcases hp with (hn | hpub | hi | hi) | hi
    · exact absurd hn hm
    · exact .inl ⟨dstp, hd, hpub⟩
    · exact .inr (.inr (.inr ⟨dstp, hd, hi⟩))
    · exact .inr (.inl ⟨dstp, hd, hi⟩)
    · exact .inr (.inr (.inl ⟨dstp, hd, hi⟩))
  · rintro ⟨hs, hp⟩
    refine ⟨fun hn => absurd hn hm, hs, ?_⟩
    rcases hp with ⟨dstp, hd, hpub⟩ | ⟨dstp, hd, hi⟩ | ⟨dstp, hd, hi⟩ | ⟨dstp, hd, hi⟩
    · exact ⟨dstp, hd, .inl (.inr (.inl hpub))⟩
    · exact ⟨dstp, hd, .inl (.inr (.inr (.inr hi)))⟩
    · exact ⟨dstp, hd, .inr hi⟩
    · exact ⟨dstp, hd, .inl (.inr (.inr (.inl hi)))⟩

/-! ## The mutexes of a send -/

/-- `ipc_ports_lock`, and the mutex of each port. -/
inductive IpcMutex
  | ports
  | port (p : UInt32)
  deriving DecidableEq

/-- The mutexes that `ipc_port_send_page` takes, in order: that of the ports; that of the source
port, if there is one; and that of the destination, if the sender has the receive right on the
source and there is a destination. -/
def sendMutexes (ipch : IpcHeader) (s : IpcState τ) (current : τ) : List IpcMutex :=
  .ports :: ((if (s.ipcPorts ipch.ipchdrSrc).isSome then [.port ipch.ipchdrSrc] else []) ++
    if Holds s current ipch.ipchdrSrc receiveBit ∧ (s.ipcPorts ipch.ipchdrDst).isSome
      then [.port ipch.ipchdrDst] else [])

section Mutexes

variable [DecidableEq θ] {td : θ} {owner : IpcMutex → Option θ}

/-- `mutex_lock` of one mutex after the other, by the thread `td`: a mutex that it has already is a
panic, and while another thread has a mutex the call does not return. -/
def lockEach (td : θ) (owner : IpcMutex → Option θ) : List IpcMutex → Outcome Unit
  | [] => pure ()
  | mtx :: rest =>
    match owner mtx with
    | none => lockEach td owner rest
    | some t => .error (if t = td then .panic else .spin)

theorem lockEach_free {l : List IpcMutex} (h : ∀ mtx ∈ l, owner mtx = none) :
    lockEach td owner l = .ok () := by
  induction l with
  | nil => rfl
  | cons mtx l ih =>
    obtain ⟨hm, hl⟩ := forall_mem_cons.mp h
    rw [lockEach, hm]
    exact ih hl

theorem lockEach_taken (td : θ) {l : List IpcMutex} (h : ∃ mtx ∈ l, owner mtx ≠ none) :
    ∃ e, lockEach td owner l = .error e ∧
      ((∀ mtx ∈ l, owner mtx = none ∨ owner mtx = some td) → e = .panic) := by
  induction l with
  | nil => exact absurd h (by simp)
  | cons mtx l ih =>
    rw [lockEach]
    cases ho : owner mtx with
    | none =>
      obtain ⟨x, hx, hn⟩ := h
      obtain rfl | hx := mem_cons.mp hx
      · exact absurd ho hn
      · obtain ⟨e, he, hp⟩ := ih ⟨x, hx, hn⟩
        exact ⟨e, he, fun hall => hp (forall_mem_cons.mp hall).2⟩
    | some t =>
      refine ⟨_, rfl, fun hall => if_pos ?_⟩
      have hown := (forall_mem_cons.mp hall).1.resolve_left (ho ▸ nofun)
      exact Option.some.inj (ho.symm.trans hown)

end Mutexes

/-! ## The calls of the interface -/

variable {current : τ}

theorem sendPage_outcome {page : Option UInt64} {s s' : NetState τ} {r : Except Errno Unit} :
    (s.sendPage sup current ipch page).outcome = .ok (s', r) ↔ sup.lock = .ok () ∧
      ∃ ipc, ipcPortSendPage sup.mem current ipch page s.ipc = .ok (ipc, r) ∧
        s' = { s with ipc } := by
  rw [NetState.sendPage, outcome_bind]
  constructor
  · rintro ⟨_, hl, hs⟩
    obtain ⟨⟨ipc, r⟩, hsn, hs⟩ := outcome_bind.mp hs
    cases hs
    exact ⟨hl, ipc, hsn, rfl⟩
  · rintro ⟨hl, ipc, hsn, rfl⟩
    exact ⟨(), hl, outcome_bind.mpr ⟨(ipc, r), hsn, rfl⟩⟩

variable {s : NetState τ}

theorem ipcPortSendData_netif {p : Option (ℕ → UInt8)} {len : UInt64} :
    Yields (ipcPortSendData sup current ipch p len s).outcome fun q => q.1.netif = s.netif := by
  have hs : ∀ (s : NetState τ) (page : Option UInt64),
      Yields (s.sendPage sup current ipch page).outcome fun q => q.1.netif = s.netif := by
    rintro s page ⟨s', r⟩ h
    obtain ⟨-, -, -, rfl⟩ := sendPage_outcome.mp h
    rfl
  rw [ipcPortSendData.eq_def]
  split
  · split
    · exact .ret rfl
    · exact hs s none
  · split
    · exact .ret rfl
    · exact .ret rfl
    · intro q h
      obtain ⟨-, -, h⟩ := outcome_bind.mp h
      split at h
      · cases h
      · have hk := hs _ _ q h
        exact hk

theorem setReceiver_of_set {reqh : IpcHeader} {netif : NetworkInterface}
    (hs : netif.niReceiveHeader.ipchdrDst ≠ ipcPortUnknown) :
    (setReceiver reqh netif).1 = netif := by
  rw [setReceiver]
  split
  · rfl
  · rfl

theorem networkInterfaceIpcHandler_netif {order : Buffer.ByteOrder}
    {pagep : Option UInt64} (hs : s.netif.niReceiveHeader.ipchdrDst ≠ ipcPortUnknown) :
    Yields (networkInterfaceIpcHandler order sup current ipch pagep s).outcome fun q =>
      q.1.netif = s.netif := by
  rw [networkInterfaceIpcHandler]
  split
  · rw [networkInterfaceIpcHandleTransmit.eq_def]
    split
    · exact .ret rfl
    · exact .ret rfl
    · intro q h
      obtain ⟨status, -, h⟩ := outcome_bind.mp h
      split at h
      · cases h
        rfl
      · exact ipcPortSendData_netif q h
  split
  · rw [networkInterfaceIpcHandleReceive.eq_def]
    split
    · exact .ret rfl
    · intro q h
      exact (ipcPortSendData_netif q h).trans (setReceiver_of_set hs)
  split
  · rw [networkInterfaceIpcHandleGetInfo.eq_def]
    split
    · exact .ret rfl
    · exact .ret rfl
    split
    · exact .ret rfl
    split
    · split
      · exact ipcPortSendData_netif
      · exact .ret rfl
    · exact ipcPortSendData_netif
  · exact .ret rfl

theorem tmetherRound_netif {s s' : NetState τ}
    (hrn : (tmetherRound current rd s).outcome = .ok (.inl s')) : s'.netif = s.netif := by
  rw [tmetherRound] at hrn
  split at hrn
  · cases hrn
    rfl
  split at hrn
  · cases hrn
  obtain ⟨⟨s₁, e⟩, hr, hrn⟩ := outcome_bind.mp hrn
  cases hrn
  rw [networkInterfaceReceive] at hr
  split at hr
  · cases hr
    rfl
  -- whether the send was refused or not
  obtain ⟨⟨s₂, r⟩, hs, hr⟩ := outcome_bind.mp hr
  cases r with
  | error _ | ok _ =>
    cases hr
    exact ipcPortSendData_netif _ hs

/-! ## Packets -/

/-- **A round that finds a packet**, of at least one byte and at most a page, while there is memory
for it. -/
structure TmetherRead.Packet (rd : TmetherRead) : Prop where
  status : rd.status = testEtherDevStatusRxOk
  pos : 1 ≤ rd.length
  fits : rd.length ≤ pageSize
  page : ∃ page, rd.sup.page = .ok page
  map : ∃ vaddr, rd.sup.map = .ok vaddr
  unmap : rd.sup.unmap = .ok ()
  mem : rd.sup.mem = true

def TmetherRead.message (receiver : IpcHeader) (rd : TmetherRead) : IpcMessage :=
  ⟨{ receiver with ipchdrParam := rd.length }, rd.sup.page.toOption⟩

/-- The page holds the packet of the round, and zeros after it. -/
def TmetherRead.InPages (rd : TmetherRead) (pages : UInt64 → ℕ → UInt8) : Prop :=
  ∀ page, rd.sup.page = .ok page → slice (pages page) 0 pageSize.toNat =
    slice rd.buffer 0 rd.length.toNat ++ replicate (pageSize.toNat - rd.length.toNat) 0

theorem slice_filledPage {data old : ℕ → UInt8} {len : ℕ} (hlen : len ≤ pageSize.toNat) :
    slice (filledPage data len old) 0 pageSize.toNat =
      slice data 0 len ++ replicate (pageSize.toNat - len) 0 := by
  obtain ⟨rest, hr⟩ := Nat.exists_eq_add_of_le hlen
  rw [hr, slice_add]
  refine congrArg₂ _ (slice_congr fun i hi => ?_) ?_
  · -- the data is in front of what is cleared
    rw [filledPage, Nat.zero_add, write_apply_of_gt hi,
      write_apply_of_lt i.zero_le (by omega), Nat.sub_zero]
  · rw [Nat.zero_add, eq_replicate_iff]
    refine ⟨by simp, fun b hb => ?_⟩
    obtain ⟨i, hi, rfl⟩ := mem_map.mp hb
    have hlt := mem_range.mp hi
    rw [filledPage, write_apply_of_lt (len.le_add_right i) (by omega)]

theorem fillPage_outcome {len : UInt64} (hf : len ≤ pageSize) :
    (fillPage len).outcome = .ok () := by
  have hw : ¬ pageSize < len := UInt64.not_lt.mpr hf
  rw [fillPage, outcome_bind]
  refine ⟨(), rfl, ?_⟩
  split
  · rfl
  · rfl

theorem tmetherRound_halts (hrd : rd.Packet) (current : τ) {e : Halt} (hl : rd.sup.lock = .error e)
    (hset : s.netif.niReceiveHeader.ipchdrDst ≠ ipcPortUnknown) :
    (tmetherRound current rd s).outcome = .error e := by
  obtain ⟨page, hp⟩ := hrd.page
  obtain ⟨vaddr, hmap⟩ := hrd.map
  have hn : ¬ rd.status = testEtherDevStatusRxMore := by
    rw [hrd.status]
    decide
  rw [tmetherRound, if_neg hn, if_neg (not_not.mpr hrd.status), outcome_bind_eq,
    networkInterfaceReceive, if_neg hset, outcome_bind_eq, ipcPortSendData, hp, hmap, hrd.unmap,
    outcome_bind_eq, fillPage_outcome hrd.fits]
  simp only [NetState.sendPage, outcome_bind_eq, outcome_lift, hl]
  rfl

theorem tmetherRound_packet (hrd : rd.Packet) (current : τ) (hl : rd.sup.lock = .ok ())
    (hset : s.netif.niReceiveHeader.ipchdrDst ≠ ipcPortUnknown)
    (hmsg : s.netif.niReceiveHeader.ipchdrMsg ≠ ipcMsgNone) :
    ∃ s', (tmetherRound current rd s).outcome = .ok (.inl s') ∧ s'.netif = s.netif ∧
      rd.InPages s'.pages ∧
      queueOf s'.ipc s.netif.niReceiveHeader.ipchdrDst =
        queueOf s.ipc s.netif.niReceiveHeader.ipchdrDst ++
          if MayDeliver s.netif.niReceiveHeader s.ipc current
            then [rd.message s.netif.niReceiveHeader] else [] := by
  obtain ⟨page, hp⟩ := hrd.page
  obtain ⟨vaddr, hmap⟩ := hrd.map
  have hn : ¬ rd.status = testEtherDevStatusRxMore := by
    rw [hrd.status]
    decide
  -- the send, and what it does to the queue
  obtain ⟨ipc, r, hs, hr⟩ := ipcPortSendPage_decides
    { s.netif.niReceiveHeader with ipchdrParam := rd.length } hmsg current s.ipc
  have hq := (ipcPortSendPage_spec _ hs).2.2 s.netif.niReceiveHeader.ipchdrDst
  let filled : NetState τ := { s with
    pages := update s.pages page (filledPage rd.buffer rd.length.toNat (s.pages page)) }
  have hdt : (ipcPortSendData rd.sup current
      { s.netif.niReceiveHeader with ipchdrParam := rd.length } (some rd.buffer) rd.length
      s).outcome = .ok ({ filled with ipc }, r) := by
    rw [ipcPortSendData, hp, hmap, hrd.unmap, outcome_bind]
    refine ⟨(), fillPage_outcome hrd.fits, sendPage_outcome.mpr ⟨hl, ipc, ?_, rfl⟩⟩
    rw [hrd.mem]
    exact hs
  have hrc : ∃ e, (networkInterfaceReceive rd.sup current rd.buffer rd.length s).outcome =
      .ok ({ filled with ipc }, e) := by
    rw [networkInterfaceReceive, if_neg hset]
    cases r with
    | ok _ => exact ⟨none, outcome_bind.mpr ⟨_, hdt, rfl⟩⟩
    | error e => exact ⟨some e, outcome_bind.mpr ⟨_, hdt, rfl⟩⟩
  obtain ⟨e, hrc⟩ := hrc
  refine ⟨{ filled with ipc }, ?_, rfl, ?_, ?_⟩
  · rw [tmetherRound, if_neg hn, if_neg (not_not.mpr hrd.status), outcome_bind]
    exact ⟨_, hrc, rfl⟩
  · intro page' hp'
    rw [hp] at hp'
    cases hp'
    show slice (update s.pages page _ page) 0 _ = _
    rw [update_self]
    exact slice_filledPage (UInt64.le_iff_toNat_le.mp hrd.fits)
  · rw [hq]
    have hm : MayDeliver { s.netif.niReceiveHeader with ipchdrParam := rd.length } s.ipc current ↔
        MayDeliver s.netif.niReceiveHeader s.ipc current := Iff.rfl
    by_cases hd : MayDeliver s.netif.niReceiveHeader s.ipc current
    · rw [if_pos hd, if_pos ⟨hr.mpr (hm.mpr hd), rfl⟩, TmetherRead.message, hp]
      rfl
    · rw [if_neg hd, if_neg fun h => hd (hm.mp (hr.mp h.1)), append_nil]

/-! ## Runs -/

/-- The ports with the calls under way, the contents of the pages, the interface, and the threads
that have the mutexes. -/
structure NetMachine (θ τ : Type) [LinearOrder τ] where
  machine : IpcMachine θ τ
  pages : UInt64 → ℕ → UInt8
  netif : NetworkInterface
  owner : IpcMutex → Option θ

def NetMachine.state (m : NetMachine θ τ) : NetState τ := ⟨m.machine.ipc, m.pages, m.netif⟩

def NetMachine.withState (m : NetMachine θ τ) (s : NetState τ) : NetMachine θ τ :=
  ⟨{ m.machine with ipc := s.ipc }, s.pages, s.netif, m.owner⟩

/-- No thread has a mutex that a send takes. -/
def NetMachine.Unlocked (receiver : IpcHeader) (current : τ) (m : NetMachine θ τ) : Prop :=
  ∀ mtx ∈ sendMutexes receiver m.machine.ipc current, m.owner mtx = none

instance (receiver : IpcHeader) (current : τ) (m : NetMachine θ τ) :
    Decidable (m.Unlocked receiver current) :=
  inferInstanceAs (Decidable (∀ mtx ∈ _, m.owner mtx = none))

/-- **A round of an interrupt** that is taken in the thread `td` of the task `current`: its send
takes the mutexes in the name of this thread. -/
def NetMachine.round [DecidableEq θ] (td : θ) (current : τ) (rd : TmetherRead)
    (m : NetMachine θ τ) : Traced PageAccess (NetState τ ⊕ NetState τ) :=
  tmetherRound current { rd with
    sup.lock := lockEach td m.owner
      (sendMutexes m.netif.niReceiveHeader m.machine.ipc current) } m.state

/-- **A receiver is registered**, by the request with the given header. -/
structure HasReceiver (reqh : IpcHeader) (m : NetMachine θ τ) : Prop where
  header : m.netif.niReceiveHeader = receiveHeader reqh
  port : reqh.ipchdrSrc ≠ ipcPortUnknown

variable {reqh : IpcHeader} {m : NetMachine θ τ}

theorem HasReceiver.set (hr : HasReceiver reqh m) :
    m.netif.niReceiveHeader.ipchdrDst ≠ ipcPortUnknown := by
  rw [hr.header]
  exact hr.port

theorem HasReceiver.msg (hr : HasReceiver reqh m) :
    m.netif.niReceiveHeader.ipchdrMsg ≠ ipcMsgNone := by
  rw [hr.header]
  show networkInterfaceMsgReceivePacket ≠ ipcMsgNone
  decide

theorem hasReceiver_of_request {order : Buffer.ByteOrder} {r : Except Errno Unit}
    (hm : reqh.ipchdrMsg = networkInterfaceMsgReceive)
    (hr : reqh.ipchdrRight = ipcPortRightSendBit) (hp : reqh.ipchdrSrc ≠ ipcPortUnknown)
    (hf : m.netif.niReceiveHeader.ipchdrDst = ipcPortUnknown)
    (hc : (networkInterfaceIpcHandler order sup current reqh none m.state).outcome = .ok (s, r)) :
    HasReceiver reqh (m.withState s) := by
  have hs : setReceiver reqh m.netif =
      ({ m.netif with niReceiveHeader := receiveHeader reqh }, .ok ()) := by
    rw [setReceiver, if_neg (not_not.mpr hr), if_neg (not_not.mpr hf)]
  have ho : ¬ reqh.ipchdrMsg = networkInterfaceMsgTransmit := by
    rw [hm]
    decide
  rw [networkInterfaceIpcHandler, if_neg ho, if_pos hm] at hc
  have hk := ipcPortSendData_netif _ hc
  refine ⟨?_, hp⟩
  show s.netif.niReceiveHeader = _
  rw [hk]
  show (setReceiver reqh m.netif).1.niReceiveHeader = _
  rw [hs]

/-- What a step is: an IPC call, a message that the service handles, a thread that takes or releases
a mutex, or a round of the interrupt, with the thread that was interrupted and its task. -/
inductive NetEvent (θ τ : Type)
  | ipc (e : IpcEvent θ τ)
  | request (ipch : IpcHeader) (r : Except Errno Unit)
  | lock (td : θ) (mtx : IpcMutex)
  | unlock (td : θ) (mtx : IpcMutex)
  | round (td : θ) (current : τ) (rd : TmetherRead)

variable [DecidableEq θ]

/-- **One step** of the ports and an interface. The tasks write to their pages at any time, and any
thread may have any mutexes while the interrupt is taken. -/
inductive NetStep : NetMachine θ τ → NetEvent θ τ → NetMachine θ τ → Prop
  | ipc {m : NetMachine θ τ} {e machine} (pages : UInt64 → ℕ → UInt8) :
    IpcStep m.machine e machine → NetStep m (.ipc e) ⟨machine, pages, m.netif, m.owner⟩
  | request {m : NetMachine θ τ} {order sup current ipch pagep s r} :
    (networkInterfaceIpcHandler order sup current ipch pagep m.state).outcome = .ok (s, r) →
      NetStep m (.request ipch r) (m.withState s)
  | lock {m : NetMachine θ τ} {td mtx} : m.owner mtx = none →
      NetStep m (.lock td mtx) { m with owner := update m.owner mtx (some td) }
  | unlock {m : NetMachine θ τ} {td mtx} : m.owner mtx = some td →
      NetStep m (.unlock td mtx) { m with owner := update m.owner mtx none }
  | round {m : NetMachine θ τ} {td current rd s} : (m.round td current rd).outcome = .ok (.inl s) →
      NetStep m (.round td current rd) (m.withState s)

variable {m₀ m' : NetMachine θ τ} {e : NetEvent θ τ} {h : List (NetMachine θ τ × NetEvent θ τ)}

theorem HasReceiver.step (hr : HasReceiver reqh m) (hs : NetStep m e m') :
    HasReceiver reqh m' := by
  cases hs with
  | ipc pages hipc => exact ⟨hr.header, hr.port⟩
  | request hc =>
    refine ⟨?_, hr.port⟩
    show NetworkInterface.niReceiveHeader (NetState.netif _) = _
    rw [networkInterfaceIpcHandler_netif hr.set _ hc]
    exact hr.header
  | lock _ | unlock _ => exact ⟨hr.header, hr.port⟩
  | @round td current rd s hc =>
    refine ⟨?_, hr.port⟩
    show s.netif.niReceiveHeader = _
    rw [tmetherRound_netif hc]
    exact hr.header

theorem HasReceiver.run (hreg : HasReceiver reqh m₀) (hr : Run NetStep m₀ h m) :
    HasReceiver reqh m :=
  hr.invariant hreg fun _ _ _ _ _ hreg hs => hreg.step hs

theorem exists_run_interrupt {td : θ} {reads : List TmetherRead} (hfree : ∀ mtx, m.owner mtx = none)
    (hl : ∀ rd ∈ reads, rd.sup.lock = .ok ())
    (hc : (tmetherInterrupt current reads m.state).outcome = .ok s) :
    ∃ h m', Run NetStep m h m' ∧ m'.state = s := by
  induction reads generalizing m with
  | nil => cases hc
  | cons rd reads ih =>
    obtain ⟨hrd, hl⟩ := forall_mem_cons.mp hl
    obtain ⟨r, hrn, hc⟩ := outcome_bind.mp hc
    cases r with
    | inl s₁ =>
      obtain ⟨h, m', hr, hs⟩ := ih (m := m.withState s₁) hfree hl hc
      have hround : (m.round td current rd).outcome = .ok (.inl s₁) := by
        rw [NetMachine.round, lockEach_free fun mtx _ => hfree mtx, ← hrd]
        exact hrn
      exact ⟨_, m', (Run.nil.snoc (NetStep.round hround)).append hr, hs⟩
    | inr s₁ =>
      -- the round that ends the loop does nothing
      cases hc
      refine ⟨[], m, Run.nil, ?_⟩
      rw [tmetherRound] at hrn
      split at hrn
      · cases hrn
      split at hrn
      · cases hrn
        rfl
      · obtain ⟨_, -, hend⟩ := outcome_bind.mp hrn
        cases hend

/-! ## Sequences of packets -/

def NetEvent.packet (receiver : IpcHeader) : NetEvent θ τ → Option IpcMessage
  | .round _ _ rd => some (rd.message receiver)
  | _ => none

def packets (receiver : IpcHeader) (h : List (NetMachine θ τ × NetEvent θ τ)) : List IpcMessage :=
  h.filterMap fun x => x.2.packet receiver

def NetEvent.FindsPacket (e : NetEvent θ τ) : Prop :=
  ∃ td current rd, e = .round td current rd ∧ rd.Packet

/-- The task that the step has interrupted has the rights to send to the receiver, and no thread has
a mutex for it. -/
def Entitled (receiver : IpcHeader) (x : NetMachine θ τ × NetEvent θ τ) : Prop :=
  match x.2 with
  | .round _ current _ =>
    MayDeliver receiver x.1.machine.ipc current ∧ x.1.Unlocked receiver current
  | _ => False

instance (receiver : IpcHeader) (x : NetMachine θ τ × NetEvent θ τ) :
    Decidable (Entitled receiver x) :=
  match x with
  | (_, .round _ _ _) => inferInstanceAs (Decidable (_ ∧ _))
  | (_, .ipc _) | (_, .request _ _) | (_, .lock _ _) | (_, .unlock _ _) => .isFalse id

theorem HasReceiver.packet (hreg : HasReceiver reqh m) (hrd : rd.Packet) (td : θ)
    (hfree : m.Unlocked (receiveHeader reqh) current) :
    ∃ m', NetStep m (.round td current rd) m' ∧
      (∀ m'', NetStep m (.round td current rd) m'' → m'' = m') ∧ rd.InPages m'.pages ∧
      queueOf m'.machine.ipc reqh.ipchdrSrc = queueOf m.machine.ipc reqh.ipchdrSrc ++
        if MayDeliver (receiveHeader reqh) m.machine.ipc current
          then [rd.message (receiveHeader reqh)] else [] := by
  have hl : lockEach td m.owner (sendMutexes m.netif.niReceiveHeader m.machine.ipc current) =
      .ok () := by
    rw [hreg.header]
    exact lockEach_free hfree
  have hrd' : TmetherRead.Packet { rd with
      sup.lock := lockEach td m.owner
        (sendMutexes m.netif.niReceiveHeader m.machine.ipc current) } :=
    ⟨hrd.status, hrd.pos, hrd.fits, hrd.page, hrd.map, hrd.unmap, hrd.mem⟩
  obtain ⟨s, hr, -, hp, hq⟩ := tmetherRound_packet (s := m.state) hrd' current hl hreg.set hreg.msg
  refine ⟨m.withState s, .round hr, fun m'' hm'' => ?_, hp, ?_⟩
  · cases hm'' with
    | round hr' =>
      rw [NetMachine.round, hr] at hr'
      cases hr'
      rfl
  · rw [show m.state.netif.niReceiveHeader = receiveHeader reqh from hreg.header] at hq
    exact hq

theorem HasReceiver.taken (hreg : HasReceiver reqh m) (hrd : rd.Packet) (td : θ)
    (hown : ¬ m.Unlocked (receiveHeader reqh) current) :
    ∃ e, (m.round td current rd).outcome = .error e ∧
      ((∀ mtx ∈ sendMutexes (receiveHeader reqh) m.machine.ipc current,
        m.owner mtx = none ∨ m.owner mtx = some td) → e = .panic) := by
  have hex : ∃ mtx ∈ sendMutexes (receiveHeader reqh) m.machine.ipc current,
      m.owner mtx ≠ none := by
    simpa [NetMachine.Unlocked] using hown
  obtain ⟨e, he, hp⟩ := lockEach_taken td hex
  rw [← hreg.header] at he
  refine ⟨e, tmetherRound_halts ?_ current he hreg.set, hp⟩
  exact ⟨hrd.status, hrd.pos, hrd.fits, hrd.page, hrd.map, hrd.unmap, hrd.mem⟩

theorem queue_after_packets (hreg : HasReceiver reqh m₀) (hr : Run NetStep m₀ h m)
    (hp : ∀ x ∈ h, x.2.FindsPacket) :
    queueOf m.machine.ipc reqh.ipchdrSrc = queueOf m₀.machine.ipc reqh.ipchdrSrc ++
      packets (receiveHeader reqh) (h.filter fun x => Entitled (receiveHeader reqh) x) := by
  induction hr with
  | nil => exact (append_nil _).symm
  | @snoc h m e m' hr hs ih =>
    obtain ⟨hb, hl⟩ := forall_mem_append.mp hp
    obtain ⟨td, current, rd, he, hrd⟩ := forall_mem_singleton.mp hl
    cases he
    -- the round has returned, so that it got its mutexes
    have hfree : m.Unlocked (receiveHeader reqh) current := by
      by_contra hown
      obtain ⟨e, he, -⟩ := (hreg.run hr).taken hrd td hown
      cases hs with
      | round hc =>
        rw [he] at hc
        cases hc
    obtain ⟨m₁, -, ho, -, hq⟩ := (hreg.run hr).packet hrd td hfree
    rw [ho m' hs, hq, ih hb, packets, packets, filter_append, filterMap_append, append_assoc]
    -- the last step, by the rights of its task
    refine congrArg _ (congrArg _ ?_)
    by_cases hm : MayDeliver (receiveHeader reqh) m.machine.ipc current
    · have hin : Entitled (receiveHeader reqh) (m, NetEvent.round td current rd) := ⟨hm, hfree⟩
      rw [if_pos hm, filter_singleton, decide_eq_true hin]
      rfl
    · have hout : ¬ Entitled (receiveHeader reqh) (m, NetEvent.round td current rd) :=
        fun he => hm he.1
      rw [if_neg hm, filter_singleton, decide_eq_false hout]
      rfl

omit [DecidableEq θ] in
theorem length_packets {receiver : IpcHeader} (hp : ∀ x ∈ h, x.2.FindsPacket) :
    (packets receiver h).length = h.length := by
  induction h with
  | nil => rfl
  | cons x h ih =>
    obtain ⟨m, e⟩ := x
    obtain ⟨⟨td, current, rd, he, -⟩, hr⟩ := forall_mem_cons.mp hp
    cases he
    show (rd.message receiver :: packets receiver h).length = _
    rw [length_cons, length_cons, ih hr]

/-- The request of the owner of port 4 to receive the packets of the service on port 3. -/
def receiveRequest : IpcHeader := ⟨4, 3, ipcPortRightSendBit, networkInterfaceMsgReceive, 0, 0⟩

def smallPacket : TmetherRead := ⟨testEtherDevStatusRxOk, 60, fun _ => 0, plentiful 8⟩

theorem packet_smallPacket : smallPacket.Packet :=
  ⟨rfl, by decide, by decide, ⟨8, rfl⟩, ⟨8, rfl⟩, rfl, rfl⟩

/-- Task 1 has attached the interface, whose service is task 2, to an idle machine. -/
def attachedMachine : NetMachine ℕ ℕ :=
  match networkInterfaceAttach true (.ok 2) (.ok ()) 1 (fun _ => 0) idleMachine.ipc with
  | .ok (s, netif, _) => ⟨⟨s, fun _ => none⟩, fun _ _ => 0, netif, fun _ => none⟩
  | .error _ =>
    ⟨idleMachine, fun _ _ => 0, tmetherInterface (fun _ => 0) receiverHeader, fun _ => none⟩

theorem attach_idleMachine :
    networkInterfaceAttach true (.ok 2) (.ok ()) 1 (fun _ => 0) idleMachine.ipc =
      .ok (attachedMachine.machine.ipc, attachedMachine.netif, 3) := rfl

section Registration

variable {m : NetMachine ℕ ℕ} {ipc : IpcState ℕ}

theorem dequeue_receiveRequest (hid : m.machine.receiving 0 = none)
    (hc : ipcPortDequeue 2 3 m.machine.ipc = .ok (ipc, .ok ⟨receiveRequest, none⟩)) :
    NetStep m (.ipc (.dequeue 0 2 3 (.ok ⟨receiveRequest, none⟩)))
      ⟨⟨ipc, update m.machine.receiving 0 (some ⟨2, 3, ⟨receiveRequest, none⟩, false⟩)⟩,
        m.pages, m.netif, m.owner⟩ :=
  .ipc m.pages (.dequeue hid hc)

theorem accept_receiveRequest
    (hr : m.machine.receiving 0 = some ⟨2, 3, ⟨receiveRequest, none⟩, false⟩)
    (hc : ipcPortAccept true 2 ⟨receiveRequest, none⟩ m.machine.ipc = .ok ipc) :
    NetStep m (.ipc (.accept 0))
      ⟨⟨ipc, update m.machine.receiving 0 (some ⟨2, 3, ⟨receiveRequest, none⟩, true⟩)⟩,
        m.pages, m.netif, m.owner⟩ :=
  .ipc m.pages (.accept hr rfl hc)

theorem deliver_receiveRequest
    (hr : m.machine.receiving 0 = some ⟨2, 3, ⟨receiveRequest, none⟩, true⟩) :
    NetStep m (.ipc (.deliver 0 (.ok (receiveRequest, none))))
      ⟨{ m.machine with receiving := update m.machine.receiving 0 none }, m.pages, m.netif,
        m.owner⟩ :=
  .ipc m.pages (.deliver hr rfl
    (rfl : ipcPortDeliver true (.kernel (.ok 0)) ⟨receiveRequest, none⟩ = .ok _))

end Registration

theorem exists_run_registered :
    ∃ h m, Run NetStep attachedMachine h m ∧ HasReceiver receiveRequest m ∧
      (∀ mtx, m.owner mtx = none) ∧ MayDeliver (receiveHeader receiveRequest) m.machine.ipc 2 ∧
      ¬ MayDeliver (receiveHeader receiveRequest) m.machine.ipc 5 := by
  have h₁ : Run NetStep attachedMachine _ _ := Run.nil.snoc (NetStep.ipc (fun _ _ => 0)
    (IpcStep.allocate (rfl : ipcPortAllocate true 5 0 _ = .ok (_, .ok 4))))
  have h₂ := h₁.snoc (NetStep.ipc (fun _ _ => 0) (IpcStep.sendPage
    (rfl : ipcPortSendPage true 5 receiveRequest none _ = .ok (_, .ok ()))))
  have h₃ := h₂.snoc (dequeue_receiveRequest rfl rfl)
  have h₄ := h₃.snoc (accept_receiveRequest rfl rfl)
  have h₅ := h₄.snoc (deliver_receiveRequest rfl)
  refine ⟨_, _, h₅.snoc (NetStep.request
    (rfl : (networkInterfaceIpcHandler .big (plentiful 8) 2 receiveRequest none _).outcome =
      .ok (_, .ok ()))), hasReceiver_of_request rfl rfl (by decide) rfl
        (rfl : (networkInterfaceIpcHandler .big (plentiful 8) 2 receiveRequest none _).outcome =
          .ok (_, .ok ())), fun _ => rfl, ?_, ?_⟩
  · exact ⟨⟨_, rfl, rfl⟩, .inr (.inl ⟨_, rfl, rfl⟩)⟩
  · decide

end Glatt
