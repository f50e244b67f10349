import Glatt.Core.String
import Glatt.Fs.Service
import Glatt.Vm.Address

/-!
# Network interfaces

The service of a network interface, `io/network/network_interface.c`, over the driver
`testmips_ether.c`, and the call `ipc_port_send_data` that both packets and replies go through.

A packet is in one page on its way through the kernel: the page of a request to transmit, or a page
that is allocated for a packet received. The accesses to that page are recorded as ranges of offsets
from its start. The page allocator, and what the device returns when it is read, are the
environment's.

## Main definitions

* `ipcPortSendData`, `networkInterfaceIpcHandler`, `tmetherRound`: the calls of the interface

## Main results

* `packet_stays_in_page`: a packet stays in one page exactly if its length fits
* `jumbo_packet_leaves_page`: a packet of the size that the device allows leaves its page
-/

namespace Glatt

open Imperative Imperative.Traced

/-! ## Pages -/

/-- A read or write of `len` bytes, from an offset from the start of a page on. -/
inductive PageAccess
  | read (offset len : ℕ)
  | write (offset len : ℕ)
  deriving DecidableEq

def PageAccess.Inside : PageAccess → Prop
  | read offset len => offset + len ≤ pageSize.toNat
  | write offset len => offset + len ≤ pageSize.toNat

/-- What a call gets from the rest of the kernel: `page_alloc`, `page_map_direct`,
`page_unmap_direct`, the `malloc` of the IPC code, that of the interface, and how the calls of
`mutex_lock` in the IPC code end. -/
structure PageSupply where
  page : Except Errno UInt64
  map : Except Errno UInt64
  unmap : Except Errno Unit
  mem : Bool
  data : Bool
  lock : Outcome Unit

/-- `network_interface_request_handler_t` for `NETWORK_INTERFACE_GET_ADDRESS`: what is put into a
buffer of some length. -/
abbrev NetworkInterfaceRequestHandler := UInt64 → Except Errno (ℕ → UInt8)

/-- `network_interface_transmit_t`: the address of the data, and its length. -/
abbrev NetworkInterfaceTransmit := UInt64 → UInt64 → Traced PageAccess (Except Errno Unit)

/-- `struct network_interface`. The softc of the driver is part of its functions here. -/
structure NetworkInterface where
  niType : UInt32
  niHandler : Option NetworkInterfaceRequestHandler
  niTransmit : Option NetworkInterfaceTransmit
  niReceiveHeader : IpcHeader

/-- What the calls of an interface work on: the ports, the contents of the pages, and the
interface. -/
structure NetState (τ : Type) [LinearOrder τ] where
  ipc : IpcState τ
  pages : UInt64 → ℕ → UInt8
  netif : NetworkInterface

variable {τ : Type} [LinearOrder τ] {sup : PageSupply} {current : τ} {s : NetState τ}
  {pagep : Option UInt64} {reqh ipch : IpcHeader}

/-! ## Messages with data -/

def NetState.sendPage (sup : PageSupply) (current : τ) (ipch : IpcHeader) (page : Option UInt64)
    (s : NetState τ) : Traced PageAccess (NetState τ × Except Errno Unit) := do
  lift sup.lock
  let (ipc, r) ← lift (ipcPortSendPage sup.mem current ipch page s.ipc)
  pure ({ s with ipc }, r)

/-- The contents of a page after data of some length was copied to it, and the rest cleared. -/
def filledPage (data : ℕ → UInt8) (len : ℕ) (old : ℕ → UInt8) : ℕ → UInt8 :=
  Buffer.write (Buffer.write old 0 len data) len (pageSize.toNat - len) fun _ => 0

def fillPage (len : UInt64) : Traced PageAccess Unit := do
  emit (.write 0 len.toNat)
  if len ≠ pageSize then
    emit (.write len.toNat (pageSize - len).toNat)
    -- the length to clear has wrapped: the range goes round the address space, over addresses at
    -- which there is nothing
    if pageSize < len then halt .fault

/-- `ipc_port_send_data`. Its bounds on the length are assertions, which are not compiled in. -/
def ipcPortSendData (sup : PageSupply) (current : τ) (ipch : IpcHeader) (p : Option (ℕ → UInt8))
    (len : UInt64) (s : NetState τ) : Traced PageAccess (NetState τ × Except Errno Unit) :=
  match p with
  | none =>
    if len ≠ 0 then pure (s, .error .invalid)
    else s.sendPage sup current ipch none
  | some data =>
    match sup.page, sup.map with
    | .error e, _ => pure (s, .error e)
    | .ok _, .error e => pure (s, .error e)
    | .ok page, .ok _ => do
      fillPage len
      match sup.unmap with
      | .error _ => halt .panic
      | .ok () =>
        NetState.sendPage sup current ipch (some page)
          { s with
            pages := Function.update s.pages page (filledPage data len.toNat (s.pages page)) }

/-! ## The driver -/

def testEtherDevMtu : UInt64 := 0x4000

def testEtherDevStatusRxOk : UInt64 := 1

def testEtherDevStatusRxMore : UInt64 := 2

def ethernetMacLength : UInt64 := 6

def tmetherRequest (mac : ℕ → UInt8) : NetworkInterfaceRequestHandler := fun datalen =>
  if datalen ≠ ethernetMacLength then .error .invalid else .ok mac

def tmetherTransmit : NetworkInterfaceTransmit := fun data datalen =>
  if data = 0 ∨ datalen = 0 ∨ testEtherDevMtu < datalen then pure (.error .invalid)
  else do
    emit (.read 0 datalen.toNat)
    pure (.ok ())

/-! ## The interface -/

def networkInterfaceEthernet : UInt32 := 0

def networkInterfaceMsgTransmit : UInt16 := 1

def networkInterfaceMsgReceive : UInt16 := 2

def networkInterfaceMsgReceivePacket : UInt16 := 3

def networkInterfaceMsgGetInfo : UInt16 := 4

/-- The interface that `tmether_setup` attaches, with the header of its receiver. -/
def tmetherInterface (mac : ℕ → UInt8) (receiver : IpcHeader) : NetworkInterface :=
  ⟨networkInterfaceEthernet, some (tmetherRequest mac), some tmetherTransmit, receiver⟩

/-- `network_interface_receive`: the error that it prints, if the packet is not sent. Without a
receiver the packet is dropped. -/
def networkInterfaceReceive (sup : PageSupply) (current : τ) (data : ℕ → UInt8) (datalen : UInt64)
    (s : NetState τ) : Traced PageAccess (NetState τ × Option Errno) :=
  if s.netif.niReceiveHeader.ipchdrDst = ipcPortUnknown then pure (s, none)
  else do
    let ipch := { s.netif.niReceiveHeader with ipchdrParam := datalen }
    match ← ipcPortSendData sup current ipch (some data) datalen s with
    | (s, .error e) => pure (s, some e)
    | (s, .ok ()) => pure (s, none)

def ipcHeaderStatus (reqh : IpcHeader) : Except Errno Unit → IpcHeader
  | .ok () => ipcHeaderReply reqh
  | .error e => ipcHeaderError reqh e

def statusCode : Except Errno (ℕ → UInt8) → ℕ
  | .ok _ => 0
  | .error e => e.code.toNat

/-- `struct network_interface_get_info_response_header`, with the address after it. -/
def getInfoResponse (order : Buffer.ByteOrder) (error type addrlen : ℕ) (addr : ℕ → UInt8) :
    ℕ → UInt8 :=
  let header := Buffer.store order (Buffer.store order (fun _ => 0) 0 4 error) 4 4 type
  Buffer.write (Buffer.store order header 8 8 addrlen) 16 addrlen addr

def networkInterfaceIpcHandleGetInfo (order : Buffer.ByteOrder) (sup : PageSupply) (current : τ)
    (reqh : IpcHeader) (pagep : Option UInt64) (s : NetState τ) :
    Traced PageAccess (NetState τ × Except Errno Unit) :=
  match pagep, s.netif.niHandler with
  | some _, _ => pure (s, .error .invalid)
  | none, none => pure (s, .error .notImplemented)
  | none, some handler =>
    if reqh.ipchdrRight ≠ ipcPortRightSendOnceBit then pure (s, .error .noRight)
    else if s.netif.niType = networkInterfaceEthernet then
      if sup.data then
        let r := handler ethernetMacLength
        -- the buffer is cleared before the driver writes to it
        let addr := match r with
          | .ok addr => addr
          | .error _ => fun _ => 0
        ipcPortSendData sup current { ipcHeaderReply reqh with ipchdrParam := 22 }
          (some (getInfoResponse order (statusCode r) s.netif.niType.toNat 6 addr)) 22 s
      else pure (s, .error .exhausted)
    else
      ipcPortSendData sup current { ipcHeaderReply reqh with ipchdrParam := 16 }
        (some (getInfoResponse order Errno.notImplemented.code.toNat s.netif.niType.toNat 0
          fun _ => 0)) 16 s

def receiveHeader (reqh : IpcHeader) : IpcHeader :=
  { ipcHeaderReply reqh with
    ipchdrMsg := networkInterfaceMsgReceivePacket
    ipchdrParam := 0 }

/-- What `network_interface_ipc_handle_receive` does to the interface, and the status that it
answers. -/
def setReceiver (reqh : IpcHeader) (netif : NetworkInterface) :
    NetworkInterface × Except Errno Unit :=
  if reqh.ipchdrRight ≠ ipcPortRightSendBit then (netif, .error .noRight)
  else if netif.niReceiveHeader.ipchdrDst ≠ ipcPortUnknown then (netif, .error .notFree)
  else ({ netif with niReceiveHeader := receiveHeader reqh }, .ok ())

def networkInterfaceIpcHandleReceive (sup : PageSupply) (current : τ) (reqh : IpcHeader)
    (pagep : Option UInt64) (s : NetState τ) :
    Traced PageAccess (NetState τ × Except Errno Unit) :=
  match pagep with
  | some _ => pure (s, .error .invalid)
  | none =>
    let (netif, status) := setReceiver reqh s.netif
    ipcPortSendData sup current (ipcHeaderStatus reqh status) none 0 { s with netif }

/-- `network_interface_ipc_handle_transmit`: the length is the parameter of the message. -/
def networkInterfaceIpcHandleTransmit (sup : PageSupply) (current : τ) (reqh : IpcHeader)
    (pagep : Option UInt64) (s : NetState τ) :
    Traced PageAccess (NetState τ × Except Errno Unit) :=
  match pagep, s.netif.niTransmit with
  | none, _ => pure (s, .error .invalid)
  | some _, none => pure (s, .error .notImplemented)
  | some data, some transmit => do
    let status ← transmit data reqh.ipchdrParam
    if reqh.ipchdrRight ≠ ipcPortRightSendOnceBit then pure (s, .ok ())
    else ipcPortSendData sup current (ipcHeaderStatus reqh status) none 0 s

def networkInterfaceIpcHandler (order : Buffer.ByteOrder) (sup : PageSupply) (current : τ)
    (ipch : IpcHeader) (pagep : Option UInt64) (s : NetState τ) :
    Traced PageAccess (NetState τ × Except Errno Unit) :=
  if ipch.ipchdrMsg = networkInterfaceMsgTransmit then
    networkInterfaceIpcHandleTransmit sup current ipch pagep s
  else if ipch.ipchdrMsg = networkInterfaceMsgReceive then
    networkInterfaceIpcHandleReceive sup current ipch pagep s
  else if ipch.ipchdrMsg = networkInterfaceMsgGetInfo then
    networkInterfaceIpcHandleGetInfo order sup current ipch pagep s
  else pure (s, .error .invalid)

/-! ## Interrupts -/

/-- What the device returns when it is read in one round: its status, the length of the packet in
its buffer, and the buffer; and the supply of the round. -/
structure TmetherRead where
  status : UInt64
  length : UInt64
  buffer : ℕ → UInt8
  sup : PageSupply

/-- One round of the loop of `tmether_interrupt`: it goes on with another one, or ends. -/
def tmetherRound (current : τ) (rd : TmetherRead) (s : NetState τ) :
    Traced PageAccess (NetState τ ⊕ NetState τ) :=
  if rd.status = testEtherDevStatusRxMore then pure (.inl s)
  else if rd.status ≠ testEtherDevStatusRxOk then pure (.inr s)
  else do
    let (s, _) ← networkInterfaceReceive rd.sup current rd.buffer rd.length s
    pure (.inl s)

def tmetherInterrupt (current : τ) : List TmetherRead → NetState τ → Traced PageAccess (NetState τ)
  | [], _ => halt .spin
  | rd :: reads, s => do
    match ← tmetherRound current rd s with
    | .inl s => tmetherInterrupt current reads s
    | .inr s => pure s

/-! ## Packets stay inside a page -/

/-- The accesses of a call are accesses to bytes of the page. -/
abbrev StaysInPage {α : Type} (x : Traced PageAccess α) : Prop := ReadsOnly PageAccess.Inside x

theorem toNat_pageSize : pageSize.toNat = 8192 := rfl

theorem safe_sendPage (page : Option UInt64) : StaysInPage (s.sendPage sup current ipch page) := by
  refine safe_bind.mpr ⟨safe_lift.mpr fun _ _ => trivial, fun _ _ => ?_⟩
  exact safe_bind.mpr ⟨safe_lift.mpr fun _ _ => trivial, fun _ _ => safe_pure⟩

theorem safe_fillPage (len : UInt64) : StaysInPage (fillPage len) ↔ len ≤ pageSize := by
  have hle : len ≤ pageSize ↔ len.toNat ≤ 8192 := by rw [UInt64.le_iff_toNat_le, toNat_pageSize]
  have hc : PageAccess.Inside (.write 0 len.toNat) ↔ len ≤ pageSize := by
    rw [PageAccess.Inside, hle, Nat.zero_add, toNat_pageSize]
  rw [fillPage]
  refine safe_bind.trans ⟨fun h => hc.mp (safe_emit.mp h.1),
    fun hf => ⟨safe_emit.mpr (hc.mpr hf), fun _ _ => ?_⟩⟩
  split
  · refine safe_bind.mpr ⟨safe_emit.mpr ?_, fun _ _ => ?_⟩
    · -- the rest of the page, without a wrap
      rw [PageAccess.Inside, UInt64.toNat_sub_of_le _ _ hf, toNat_pageSize]
      have := hle.mp hf
      omega
    · split
      · exact safe_halt.mpr trivial
      · exact safe_pure
  · exact safe_pure

theorem safe_ipcPortSendData (data : ℕ → UInt8) (len : UInt64) :
    StaysInPage (ipcPortSendData sup current ipch (some data) len s) ↔
      (sup.page.isOk && sup.map.isOk) = true → len ≤ pageSize := by
  rw [ipcPortSendData]
  cases sup.page with
  | error e => exact ⟨nofun, fun _ => safe_pure⟩
  | ok page =>
    cases sup.map with
    | error e => exact ⟨nofun, fun _ => safe_pure⟩
    | ok vaddr =>
      refine safe_bind.trans ⟨fun h _ => (safe_fillPage len).mp h.1,
        fun h => ⟨(safe_fillPage len).mpr (h rfl), fun _ _ => ?_⟩⟩
      cases sup.unmap with
      | error e => exact safe_halt.mpr trivial
      | ok _ => exact safe_sendPage _

theorem safe_ipcPortSendData_none : StaysInPage (ipcPortSendData sup current ipch none 0 s) := by
  exact safe_sendPage _

theorem safe_tmetherTransmit (data datalen : UInt64) :
    StaysInPage (tmetherTransmit data datalen) ↔
      data ≠ 0 → datalen ≤ pageSize ∨ testEtherDevMtu < datalen := by
  rw [tmetherTransmit]
  split
  · rename_i hr
    refine ⟨fun _ hd => ?_, fun _ => safe_pure⟩
    rcases hr with rfl | rfl | hl
    · exact absurd rfl hd
    · exact .inl (by decide)
    · exact .inr hl
  · rename_i hs
    simp only [not_or] at hs
    obtain ⟨hd, -, hm⟩ := hs
    have hrd : PageAccess.Inside (.read 0 datalen.toNat) ↔ datalen ≤ pageSize := by
      rw [PageAccess.Inside, Nat.zero_add, UInt64.le_iff_toNat_le]
    refine safe_bind.trans ⟨fun h _ => .inl (hrd.mp (safe_emit.mp h.1)), fun h => ?_⟩
    exact ⟨safe_emit.mpr (hrd.mpr ((h hd).resolve_right hm)), fun _ _ => safe_pure⟩

/-- A call in which a packet passes: a message to the service of the interface, with the address of
its page, or a packet from the device. -/
inductive NetCall (τ : Type)
  | request (order : Buffer.ByteOrder) (sup : PageSupply) (current : τ) (ipch : IpcHeader)
      (pagep : Option UInt64)
  | receive (sup : PageSupply) (current : τ) (data : ℕ → UInt8) (datalen : UInt64)

def NetCall.Stays (s : NetState τ) : NetCall τ → Prop
  | request order sup current ipch pagep =>
    StaysInPage (networkInterfaceIpcHandler order sup current ipch pagep s)
  | receive sup current data datalen =>
    StaysInPage (networkInterfaceReceive sup current data datalen s)

/-- The length of a packet to transmit is no more than a page, or more than the device takes; and
the length of a packet received is no more than a page, if it is copied at all. -/
def NetCall.Fits (s : NetState τ) : NetCall τ → Prop
  | request _ _ _ ipch pagep =>
    ipch.ipchdrMsg = networkInterfaceMsgTransmit → ∀ data, pagep = some data → data ≠ 0 →
      ipch.ipchdrParam ≤ pageSize ∨ testEtherDevMtu < ipch.ipchdrParam
  | receive sup _ _ datalen =>
    s.netif.niReceiveHeader.ipchdrDst ≠ ipcPortUnknown →
      (sup.page.isOk && sup.map.isOk) = true → datalen ≤ pageSize

theorem safe_handleTransmit {s : NetState τ} (hd : s.netif.niTransmit = some tmetherTransmit) :
    StaysInPage (networkInterfaceIpcHandleTransmit sup current reqh pagep s) ↔
      ∀ data, pagep = some data → data ≠ 0 →
        reqh.ipchdrParam ≤ pageSize ∨ testEtherDevMtu < reqh.ipchdrParam := by
  rw [networkInterfaceIpcHandleTransmit.eq_def, hd]
  cases pagep with
  | none => exact ⟨nofun, fun _ => safe_pure⟩
  | some data =>
    refine safe_bind.trans ⟨?_, fun h => ⟨(safe_tmetherTransmit data _).mpr (h data rfl), ?_⟩⟩
    · rintro ⟨hr, -⟩ data' hdt'
      cases hdt'
      exact (safe_tmetherTransmit data _).mp hr
    · -- what follows is a reply without data
      intro status _
      split
      · exact safe_pure
      · exact safe_ipcPortSendData_none

theorem safe_handleReceive :
    StaysInPage (networkInterfaceIpcHandleReceive sup current reqh pagep s) := by
  cases pagep with
  | some _ => exact safe_pure
  | none => exact safe_ipcPortSendData_none

theorem safe_handleGetInfo (order : Buffer.ByteOrder) :
    StaysInPage (networkInterfaceIpcHandleGetInfo order sup current reqh pagep s) := by
  rw [networkInterfaceIpcHandleGetInfo.eq_def]
  split
  · exact safe_pure
  · exact safe_pure
  split
  · exact safe_pure
  split
  · split
    · exact (safe_ipcPortSendData _ _).mpr fun _ => (by decide)
    · exact safe_pure
  · exact (safe_ipcPortSendData _ _).mpr fun _ => (by decide)

/-- **Which packets stay inside one page**: the messages to the service of the interface, and the
packets that it receives, exactly if their length fits. -/
theorem packet_stays_in_page (ipc : IpcState τ) (pages : UInt64 → ℕ → UInt8) (mac : ℕ → UInt8)
    (receiver : IpcHeader) (call : NetCall τ) :
    call.Stays ⟨ipc, pages, tmetherInterface mac receiver⟩ ↔
      call.Fits ⟨ipc, pages, tmetherInterface mac receiver⟩ := by
  cases call with
  | request order sup current ipch pagep =>
    rw [NetCall.Stays, networkInterfaceIpcHandler]
    split
    · rename_i hm
      rw [safe_handleTransmit rfl]
      exact ⟨fun h _ => h, fun h => h hm⟩
    · rename_i hm
      -- the other messages do not pass a packet
      refine ⟨fun _ h => absurd h hm, fun _ => ?_⟩
      split
      · exact safe_handleReceive
      split
      · exact safe_handleGetInfo _
      · exact safe_pure
  | receive sup current data datalen =>
    rw [NetCall.Stays, networkInterfaceReceive]
    split
    · rename_i hn
      exact ⟨fun _ h => absurd hn h, fun _ => safe_pure⟩
    · rename_i hs
      refine safe_bind.trans ⟨fun h _ => (safe_ipcPortSendData _ _).mp h.1,
        fun h => ⟨(safe_ipcPortSendData _ _).mpr (h hs), ?_⟩⟩
      rintro ⟨-, r⟩ _
      cases r with
      | error e | ok _ => exact safe_pure

def plentiful (page : UInt64) : PageSupply := ⟨.ok page, .ok page, .ok (), true, true, .ok ()⟩

def receiverHeader : IpcHeader := ⟨3, 4, ipcPortRightNone, networkInterfaceMsgReceivePacket, 0, 0⟩

def netAlone : NetState ℕ := ⟨⟨fun _ => none, ipcPortUnreservedStart⟩, fun _ _ => 0,
    tmetherInterface (fun _ => 0) receiverHeader⟩

/-- **A packet of the size that the device allows** leaves the page: a message to transmit `0x4000`
bytes reads two pages, and a packet of 9000 bytes is written past the page that was allocated for
it, after which all of memory is cleared. -/
theorem jumbo_packet_leaves_page :
    (networkInterfaceIpcHandler .big (plentiful 8) 1
      ⟨4, 3, ipcPortRightNone, networkInterfaceMsgTransmit, 0, 0x4000⟩ (some 0x2000) netAlone).log =
        [.read 0 16384] ∧
    (networkInterfaceReceive (plentiful 8) 1 (fun _ => 0) 9000 netAlone).log =
      [.write 0 9000, .write 9000 (2 ^ 64 - 808)] ∧
    ¬ PageAccess.Inside (.read 0 16384) ∧ ¬ PageAccess.Inside (.write 0 9000) := by
  refine ⟨rfl, rfl, ?_, ?_⟩
  · rw [PageAccess.Inside, toNat_pageSize]
    omega
  · rw [PageAccess.Inside, toNat_pageSize]
    omega

end Glatt
