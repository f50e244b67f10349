import Glatt.Ipc.Rights
import Glatt.Lib.Transition

/-!
# Runs of the IPC calls

The calls of `ipc_port.c` made by any tasks in any order. A call is one step, except that a
receive is three: it dequeues a message under the lock of the port, then inserts the rights of the
message under the lock of its source port, then maps the page and returns. Between these steps
the message is in flight.

`ipc_port_send_page` is one step although it takes two ports in turn. It holds the lock of the set
of ports from its check of the source port until it holds the destination, and a right is removed
only by a call that takes that lock first; the queue is touched under the lock of the destination
only.

## Main definitions

* `IpcMachine`, `IpcEvent`, `IpcStep`: tasks that make calls

## Main results

* `rights_have_provenance`: where every right comes from
* `receive_right_confined`: where the receive right can get to
* `queue_is_fifo`: the queues along every run
-/

namespace Glatt

open Imperative Transition Function List

variable {θ τ : Type} [DecidableEq θ] [LinearOrder τ] {p : UInt32} {m : IpcMessage}

/-- A receive under way: the receiving task, the port, the message, and whether its rights have
been inserted. -/
structure Receiving (τ : Type) where
  task : τ
  port : UInt32
  msg : IpcMessage
  accepted : Bool

/-- The ports, and the receives under way by thread. -/
structure IpcMachine (θ τ : Type) [LinearOrder τ] where
  ipc : IpcState τ
  receiving : θ → Option (Receiving τ)

/-- What a step does, and what the call or the part of it returns. -/
inductive IpcEvent (θ τ : Type)
  | allocate (current : τ) (r : Except Errno UInt32)
  | rightGrant (current task : τ) (src : UInt32) (right : UInt16) (r : Except Errno Unit)
  | rightSend (current : τ) (dst src : UInt32) (right : UInt16) (r : Except Errno Unit)
  | rightDrop (current : τ) (port : UInt32) (right : UInt16) (r : Except Errno Unit)
  | sendPage (current : τ) (ipch : IpcHeader) (page : Option UInt64) (r : Except Errno Unit)
  | dequeue (td : θ) (current : τ) (port : UInt32) (r : Except Errno IpcMessage)
  | accept (td : θ)
  | deliver (td : θ) (r : Except Errno (IpcHeader × Option UInt64))

def receivingAfter (current : τ) (port : UInt32) : Except Errno IpcMessage → Option (Receiving τ)
  | .ok msg => some ⟨current, port, msg, false⟩
  | .error _ => none

/-- **One step**: a call by the task `current`, or the next part of a receive under way. -/
inductive IpcStep : IpcMachine θ τ → IpcEvent θ τ → IpcMachine θ τ → Prop
  | allocate {s : IpcMachine θ τ} {mem current flags ipc r} :
    ipcPortAllocate mem current flags s.ipc = .ok (ipc, r) →
      IpcStep s (.allocate current r) { s with ipc }
  | rightGrant {s : IpcMachine θ τ} {mem current task src right ipc r} :
    ipcPortRightGrant mem current task src right s.ipc = .ok (ipc, r) →
      IpcStep s (.rightGrant current task src right r) { s with ipc }
  | rightSend {s : IpcMachine θ τ} {mem current dst src right ipc r} :
    ipcPortRightSend mem current dst src right s.ipc = .ok (ipc, r) →
      IpcStep s (.rightSend current dst src right r) { s with ipc }
  | rightDrop {s : IpcMachine θ τ} {current port right ipc r} :
    ipcPortRightDrop current port right s.ipc = .ok (ipc, r) →
      IpcStep s (.rightDrop current port right r) { s with ipc }
  | sendPage {s : IpcMachine θ τ} {mem current ipch page ipc r} :
    ipcPortSendPage mem current ipch page s.ipc = .ok (ipc, r) →
      IpcStep s (.sendPage current ipch page r) { s with ipc }
  | dequeue {s : IpcMachine θ τ} {td current port ipc r} :
    s.receiving td = none → ipcPortDequeue current port s.ipc = .ok (ipc, r) →
      IpcStep s (.dequeue td current port r)
        ⟨ipc, update s.receiving td (receivingAfter current port r)⟩
  | accept {s : IpcMachine θ τ} {mem td rc ipc} :
    s.receiving td = some rc → rc.accepted = false →
      ipcPortAccept mem rc.task rc.msg s.ipc = .ok ipc →
      IpcStep s (.accept td) ⟨ipc, update s.receiving td (some { rc with accepted := true })⟩
  | deliver {s : IpcMachine θ τ} {td rc vpagep reply r} :
    s.receiving td = some rc → rc.accepted = true → ipcPortDeliver vpagep reply rc.msg = .ok r →
      IpcStep s (.deliver td r) { s with receiving := update s.receiving td none }

/-- No message is queued or in flight; the ports and the rights on them are arbitrary. -/
def Quiet (s : IpcMachine θ τ) : Prop := (∀ p, queueOf s.ipc p = []) ∧ ∀ td, s.receiving td = none

variable {s₀ s s' : IpcMachine θ τ} {e : IpcEvent θ τ} {h : List (IpcMachine θ τ × IpcEvent θ τ)}

/-! ## Provenance of rights -/

theorem right_added_cases (hs : IpcStep s e s') {t : τ} {i : ℕ}
    (hold : ¬ Holds s.ipc t p i) (hn : Holds s'.ipc t p i) :
    (e = .allocate t (.ok p) ∧ i = receiveBit) ∨
    (∃ u right, e = .rightGrant u t p right (.ok ()) ∧ right.toNat.testBit i = true ∧
      Holds s.ipc u p receiveBit) ∨
    (∃ u dst right, e = .rightSend u dst p right (.ok ()) ∧ right.toNat.testBit i = true ∧
      Holds s.ipc u p receiveBit ∧ Holds s.ipc t dst receiveBit) ∨
    ∃ td rc, e = .accept td ∧ s.receiving td = some rc ∧ rc.task = t ∧
      rc.msg.ipcmsgHeader.ipchdrSrc = p ∧
      rc.msg.ipcmsgHeader.ipchdrRight.toNat.testBit i = true := by
  cases hs with
  | allocate hc =>
    obtain ⟨hb, -⟩ := ipcPortAllocate_spec _ _ _ _ _ hc
    obtain ⟨rfl, hr, rfl⟩ := (hb t p i hn).resolve_left hold
    exact .inl ⟨congrArg _ hr, rfl⟩
  | rightGrant hc =>
    obtain ⟨hb, -⟩ := ipcPortRightGrant_spec _ _ hc
    obtain ⟨rfl, rfl, hi, hu, rfl⟩ := (hb t p i hn).resolve_left hold
    exact .inr (.inl ⟨_, _, rfl, hi, hu⟩)
  | rightSend hc =>
    obtain ⟨hb, -⟩ := ipcPortRightSend_spec _ _ _ hc
    obtain ⟨rfl, hi, hu, ht, rfl⟩ := (hb t p i hn).resolve_left hold
    exact .inr (.inr (.inl ⟨_, _, _, rfl, hi, hu, ht⟩))
  | rightDrop hc =>
    obtain ⟨hb, -⟩ := ipcPortRightDrop_spec _ hc
    exact absurd ((hb t p i).mp hn).1 hold
  | sendPage hc =>
    obtain ⟨hb, -⟩ := ipcPortSendPage_spec _ hc
    exact absurd (hb t p i hn) hold
  | dequeue _ hc =>
    obtain ⟨hb, -⟩ := ipcPortDequeue_spec _ hc
    exact absurd ((hb t p i).mp hn) hold
  | accept hrc _ hc =>
    obtain ⟨hb, -⟩ := ipcPortAccept_spec _ _ hc
    obtain ⟨rfl, rfl, hi⟩ := (hb t p i hn).resolve_left hold
    exact .inr (.inr (.inr ⟨_, _, rfl, hrc, rfl, rfl, hi⟩))
  | deliver _ _ _ => exact absurd hn hold

/-- The message has been enqueued on the port `p` by a task that held the receive right on its
source port at that moment. -/
def Sent (h : List (IpcMachine θ τ × IpcEvent θ τ)) (p : UInt32) (m : IpcMessage) : Prop :=
  m.ipcmsgHeader.ipchdrDst = p ∧
    ∃ s u, (s, IpcEvent.sendPage u m.ipcmsgHeader m.ipcmsgPage (.ok ())) ∈ h ∧
      Holds s.ipc u m.ipcmsgHeader.ipchdrSrc receiveBit

omit [DecidableEq θ] in
theorem Sent.snoc (hm : Sent h p m) (x : IpcMachine θ τ × IpcEvent θ τ) : Sent (h ++ [x]) p m := by
  obtain ⟨hp, s, u, hs, hu⟩ := hm
  exact ⟨hp, s, u, mem_append_left _ hs, hu⟩

def IpcEvent.enqueues (e : IpcEvent θ τ) (p : UInt32) : Option IpcMessage :=
  match e with
  | .sendPage _ ipch page (.ok ()) => if ipch.ipchdrDst = p then some ⟨ipch, page⟩ else none
  | _ => none

def IpcEvent.dequeues (e : IpcEvent θ τ) (p : UInt32) : Option IpcMessage :=
  match e with
  | .dequeue _ _ port (.ok msg) => if port = p then some msg else none
  | _ => none

def enqueued (h : List (IpcMachine θ τ × IpcEvent θ τ)) (p : UInt32) : List IpcMessage :=
  h.filterMap fun x => x.2.enqueues p

def dequeued (h : List (IpcMachine θ τ × IpcEvent θ τ)) (p : UInt32) : List IpcMessage :=
  h.filterMap fun x => x.2.dequeues p

theorem queue_step (hs : IpcStep s e s') (p : UInt32) :
    (e.dequeues p).toList ++ queueOf s'.ipc p = queueOf s.ipc p ++ (e.enqueues p).toList := by
  cases hs with
  | allocate hc =>
    simpa [IpcEvent.dequeues, IpcEvent.enqueues] using (ipcPortAllocate_spec _ _ _ _ _ hc).2.2.1 p
  | rightGrant hc =>
    simpa [IpcEvent.dequeues, IpcEvent.enqueues] using (ipcPortRightGrant_spec _ _ hc).2.2 p
  | rightSend hc =>
    simpa [IpcEvent.dequeues, IpcEvent.enqueues] using (ipcPortRightSend_spec _ _ _ hc).2.2 p
  | rightDrop hc =>
    simpa [IpcEvent.dequeues, IpcEvent.enqueues] using (ipcPortRightDrop_spec _ hc).2 p
  | accept _ _ hc =>
    simpa [IpcEvent.dequeues, IpcEvent.enqueues] using (ipcPortAccept_spec _ _ hc).2.2.2 p
  | deliver _ _ _ => simp [IpcEvent.dequeues, IpcEvent.enqueues]
  | @sendPage mem u ipch page ipc r hc =>
    have hq := (ipcPortSendPage_spec _ hc).2.2 p
    rw [hq]
    cases r with
    | error _ => simp [IpcEvent.dequeues, IpcEvent.enqueues]
    | ok _ =>
      by_cases hp : ipch.ipchdrDst = p
      · simp [IpcEvent.dequeues, IpcEvent.enqueues, hp]
      · have hp' : p ≠ ipch.ipchdrDst := fun e => hp e.symm
        simp [IpcEvent.dequeues, IpcEvent.enqueues, hp, hp']
  | @dequeue td t port ipc r _ hc =>
    obtain ⟨-, hok, ho⟩ := ipcPortDequeue_spec _ hc
    cases r with
    | error err =>
      simpa [IpcEvent.dequeues, IpcEvent.enqueues] using ho p (.inr ⟨err, rfl⟩)
    | ok m =>
      by_cases hp : port = p
      · subst hp
        simpa [IpcEvent.dequeues, IpcEvent.enqueues] using (hok m rfl).2.symm
      · have hp' : p ≠ port := fun e => hp e.symm
        simpa [IpcEvent.dequeues, IpcEvent.enqueues, hp] using ho p (.inl hp')

theorem holds_of_sendPage {u : τ} {ipch : IpcHeader} {page : Option UInt64}
    (hs : IpcStep s (.sendPage u ipch page (.ok ())) s') :
    Holds s.ipc u ipch.ipchdrSrc receiveBit := by
  cases hs with
  | sendPage hc => exact (ipcPortSendPage_spec _ hc).2.1 rfl

theorem holds_of_dequeue {td : θ} {t : τ}
    (hs : IpcStep s (.dequeue td t p (.ok m)) s') : Holds s.ipc t p receiveBit := by
  cases hs with
  | dequeue _ hc => exact ((ipcPortDequeue_spec _ hc).2.1 m rfl).1

theorem sent_of_enqueues (hs : IpcStep s e s')
    (hm : e.enqueues p = some m) : Sent (h ++ [(s, e)]) p m := by
  unfold IpcEvent.enqueues at hm
  split at hm
  · split at hm
    · cases hm
      exact ⟨‹_›, s, _, by simp, holds_of_sendPage hs⟩
    · cases hm
  · cases hm

theorem receiving_step (hs : IpcStep s e s') {td : θ} {rc : Receiving τ}
    (hr : s'.receiving td = some rc) :
    (∃ rc₁, s.receiving td = some rc₁ ∧ rc₁.task = rc.task ∧ rc₁.port = rc.port ∧
      rc₁.msg = rc.msg) ∨ e = .dequeue td rc.task rc.port (.ok rc.msg) := by
  cases hs with
  | allocate _ | rightGrant _ | rightSend _ | rightDrop _ => exact .inl ⟨rc, hr, rfl, rfl, rfl⟩
  | sendPage _ => exact .inl ⟨rc, hr, rfl, rfl, rfl⟩
  | @dequeue td' t port ipc r _ _ =>
    dsimp only at hr
    rw [update_apply] at hr
    split at hr
    · subst td
      cases r with
      | error _ => cases hr
      | ok m =>
        cases hr
        exact .inr rfl
    · exact .inl ⟨rc, hr, rfl, rfl, rfl⟩
  | @accept mem td' rc₁ ipc hr₁ _ _ =>
    dsimp only at hr
    rw [update_apply] at hr
    split at hr
    · subst td
      cases hr
      exact .inl ⟨rc₁, hr₁, rfl, rfl, rfl⟩
    · exact .inl ⟨rc, hr, rfl, rfl, rfl⟩
  | deliver _ _ _ =>
    dsimp only at hr
    rw [update_apply] at hr
    split at hr
    · cases hr
    · exact .inl ⟨rc, hr, rfl, rfl, rfl⟩

theorem Sent.run (h₀ : Quiet s₀) (hr : Run IpcStep s₀ h s) :
    (∀ p, ∀ m ∈ queueOf s.ipc p, Sent h p m) ∧
      ∀ td rc, s.receiving td = some rc → Sent h rc.port rc.msg ∧
        ∃ t, (t, IpcEvent.dequeue td rc.task rc.port (.ok rc.msg)) ∈ h := by
  refine hr.invariant ⟨?_, ?_⟩ ?_
  · intro p m hm
    rw [h₀.1 p] at hm
    cases hm
  · intro td rc hrc
    rw [h₀.2 td] at hrc
    cases hrc
  rintro h s e s' - ⟨hqu, hf⟩ hs
  refine ⟨fun p m hm => ?_, fun td rc hrc => ?_⟩
  · have hm' : m ∈ queueOf s.ipc p ++ (e.enqueues p).toList := by
      rw [← queue_step hs p]
      exact mem_append_right _ hm
    rcases mem_append.mp hm' with hm' | hm'
    · exact (hqu p m hm').snoc _
    · exact sent_of_enqueues hs (Option.mem_toList.mp hm')
  · rcases receiving_step hs hrc with ⟨rc₁, hrc₁, ht, hp, hm⟩ | rfl
    · obtain ⟨hsn, t, hd⟩ := hf td rc₁ hrc₁
      rw [ht, hp, hm] at hd
      rw [hp, hm] at hsn
      exact ⟨hsn.snoc _, t, mem_append_left _ hd⟩
    · -- the message dequeued by this step was queued before it
      have hq := queue_step hs rc.port
      simp only [IpcEvent.dequeues, IpcEvent.enqueues, Option.toList_none, append_nil] at hq
      exact ⟨(hqu rc.port rc.msg (by simp [← hq])).snoc _, s, by simp⟩

def idleMachine : IpcMachine ℕ ℕ := ⟨⟨fun _ => none, ipcPortUnreservedStart⟩, fun _ => none⟩

theorem quiet_idleMachine : Quiet idleMachine := ⟨fun _ => rfl, fun _ => rfl⟩

def knock : IpcMessage := ⟨⟨3, 4, ipcPortRightSendBit, ipcMsgNone, 0, 0⟩, none⟩

def secondKnock : IpcMessage := ⟨⟨3, 4, ipcPortRightNone, ipcMsgNone, 0, 1⟩, none⟩

/-- Two tasks allocate a port each, and the first knocks twice at the port of the second, which
dequeues the first message. -/
def knockEvents : List (IpcEvent ℕ ℕ) :=
  [.allocate 1 (.ok 3), .allocate 2 (.ok 4), .sendPage 1 knock.ipcmsgHeader none (.ok ()),
    .sendPage 1 secondKnock.ipcmsgHeader none (.ok ()), .dequeue 0 2 4 (.ok knock)]

theorem exists_run_knock :
    ∃ h s s', Run IpcStep idleMachine h s ∧ h.map Prod.snd = knockEvents ∧
      IpcStep s (.accept 0) s' ∧ ¬ Holds s.ipc 2 3 0 ∧ Holds s'.ipc 2 3 0 ∧
      Holds s.ipc 2 4 receiveBit := by
  have hd : ∀ {s : IpcMachine ℕ ℕ} {ipc}, s.receiving 0 = none →
      ipcPortDequeue 2 4 s.ipc = .ok (ipc, .ok knock) → IpcStep s (.dequeue 0 2 4 (.ok knock)) _ :=
    .dequeue
  refine ⟨_, _, _, ((((Run.nil.snoc
    (.allocate (rfl : ipcPortAllocate true 1 0 _ = .ok (_, .ok 3)))).snoc
    (.allocate (rfl : ipcPortAllocate true 2 0 _ = .ok (_, .ok 4)))).snoc
    (.sendPage (rfl : ipcPortSendPage true 1 knock.ipcmsgHeader none _ = .ok (_, .ok ())))).snoc
    (.sendPage
      (rfl : ipcPortSendPage true 1 secondKnock.ipcmsgHeader none _ = .ok (_, .ok ())))).snoc
    (hd rfl rfl), rfl, .accept rfl rfl (rfl : ipcPortAccept true 2 knock _ = .ok _), ?_, ?_, ?_⟩
  · rintro ⟨ipcp, h, hb⟩
    cases h
    cases hb
  · exact ⟨_, rfl, rfl⟩
  · exact ⟨_, rfl, rfl⟩

/-- **Every right has a provenance**: a step that adds a bit of a right of the task `t` on the port
`p` is the allocation of `p` by `t`; a grant or a sent right on `p` by a task with the receive right
there; or the receive by `t` of a message from `p` that carries the bit and was enqueued by a task
that then held the receive right on `p`. -/
theorem rights_have_provenance (h₀ : Quiet s₀) (hr : Run IpcStep s₀ h s) (hs : IpcStep s e s')
    {t : τ} {p : UInt32} {i : ℕ} (hold : ¬ Holds s.ipc t p i) (hnew : Holds s'.ipc t p i) :
    (e = .allocate t (.ok p) ∧ i = receiveBit) ∨
    (∃ u right r, (e = .rightGrant u t p right r ∨ ∃ dst, e = .rightSend u dst p right r) ∧
      right.toNat.testBit i = true ∧ Holds s.ipc u p receiveBit) ∨
    ∃ td rc, e = .accept td ∧ s.receiving td = some rc ∧ rc.task = t ∧
      (∃ s₁, (s₁, IpcEvent.dequeue td t rc.port (.ok rc.msg)) ∈ h) ∧
      rc.msg.ipcmsgHeader.ipchdrSrc = p ∧
      rc.msg.ipcmsgHeader.ipchdrRight.toNat.testBit i = true ∧
      ∃ s₂ u, (s₂, IpcEvent.sendPage u rc.msg.ipcmsgHeader rc.msg.ipcmsgPage (.ok ())) ∈ h ∧
        Holds s₂.ipc u p receiveBit := by
  rcases right_added_cases hs hold hnew with hc | ⟨u, right, rfl, hi, hu⟩ |
    ⟨u, dst, right, rfl, hi, hu, -⟩ | ⟨td, rc, rfl, hrc, rfl, rfl, hi⟩
  · exact .inl hc
  · exact .inr (.inl ⟨u, right, _, .inl rfl, hi, hu⟩)
  · exact .inr (.inl ⟨u, right, _, .inr ⟨dst, rfl⟩, hi, hu⟩)
  · obtain ⟨⟨-, s₂, u, hsn, hu⟩, s₁, hd⟩ := (Sent.run h₀ hr).2 td rc hrc
    exact .inr (.inr ⟨td, rc, rfl, hrc, rfl, ⟨s₁, hd⟩, rfl, hi, s₂, u, hsn, hu⟩)

/-- The send right that the knock carries comes from a sender with the receive right. -/
theorem rights_have_provenance_knock :
    ∃ (h : List (IpcMachine ℕ ℕ × IpcEvent ℕ ℕ)) (s s' : IpcMachine ℕ ℕ),
      Run IpcStep idleMachine h s ∧ IpcStep s (.accept 0) s' ∧
      ∃ s₂ u ipch page, (s₂, IpcEvent.sendPage u ipch page (.ok ())) ∈ h ∧
        ipch.ipchdrRight.toNat.testBit 0 = true ∧ Holds s₂.ipc u 3 receiveBit := by
  obtain ⟨h, s, s', hr, -, hs, hold, hn, -⟩ := exists_run_knock
  refine ⟨h, s, s', hr, hs, ?_⟩
  rcases rights_have_provenance quiet_idleMachine hr hs hold hn with ⟨he, -⟩ |
    ⟨_, _, _, he | ⟨_, he⟩, -⟩ | ⟨_, rc, -, -, -, -, -, hi, s₂, u, hsn, hu⟩
  · cases he
  · cases he
  · cases he
  · exact ⟨s₂, u, _, _, hsn, hi, hu⟩

/-! ## Confinement of the receive right -/

/-- A step in which the tasks `G` do not pass on the receive right on the port `p`, and no other
task gets a new port of that number. -/
def IpcEvent.Keeps (G : Set τ) (p : UInt32) : IpcEvent θ τ → Prop
  | allocate u r => r = .ok p → u ∈ G
  | rightGrant u t src right _ => u ∈ G → src = p → right.toNat.testBit receiveBit = true → t ∈ G
  | rightSend u _ src right _ => u ∈ G → src = p → right.toNat.testBit receiveBit = false
  | sendPage u ipch _ _ =>
    u ∈ G → ipch.ipchdrSrc = p → ipch.ipchdrRight.toNat.testBit receiveBit = false
  | _ => True

/-- **The receive right stays where it is kept.** If the tasks that have it on a port do not pass it
on, no other task ever gets it or dequeues a message from the port, whatever the others do. -/
theorem receive_right_confined (h₀ : Quiet s₀) {G : Set τ}
    (hG : ∀ u, Holds s₀.ipc u p receiveBit → u ∈ G) (hr : Run IpcStep s₀ h s)
    (hk : ∀ x ∈ h, x.2.Keeps G p) :
    (∀ u, Holds s.ipc u p receiveBit → u ∈ G) ∧
      ∀ t td u m, (t, IpcEvent.dequeue td u p (.ok m)) ∈ h → u ∈ G := by
  have hall : (∀ x ∈ h, ∀ u, Holds x.1.ipc u p receiveBit → u ∈ G) ∧
      ∀ u, Holds s.ipc u p receiveBit → u ∈ G := by
    induction hr with
    | nil => exact ⟨forall_mem_nil _, hG⟩
    | @snoc h s e s' hr hs ih =>
      rw [forall_mem_append, forall_mem_singleton] at hk
      obtain ⟨hpast, hnow⟩ := ih hk.1
      refine ⟨forall_mem_append.mpr ⟨hpast, forall_mem_singleton.mpr hnow⟩, fun u hu => ?_⟩
      by_cases hold : Holds s.ipc u p receiveBit
      · exact hnow u hold
      rcases right_added_cases hs hold hu with ⟨rfl, -⟩ | ⟨v, right, rfl, hi, hv⟩ |
        ⟨v, dst, right, rfl, hi, hv, -⟩ | ⟨td, rc, rfl, hrc, -, rfl, hi⟩
      · exact hk.2 rfl
      · exact hk.2 (hnow v hv) rfl hi
      · rw [hk.2 (hnow v hv) rfl] at hi
        cases hi
      · -- the task that sent the message had the right
        obtain ⟨⟨-, s₂, v, hsn, hv⟩, -⟩ := (Sent.run h₀ hr).2 td rc hrc
        rw [hk.1 _ hsn (hpast _ hsn v hv) rfl] at hi
        cases hi
  refine ⟨hall.2, fun t td u m hm => ?_⟩
  obtain ⟨_, _, _, -, -, hs⟩ := hr.step_of_mem hm
  exact hall.1 _ hm u (holds_of_dequeue hs)

/-- The second task is the only one that can receive from its port, whatever the first has sent. -/
theorem receive_right_confined_knock : ∃ (h : List (IpcMachine ℕ ℕ × IpcEvent ℕ ℕ)) (s : _),
    Run IpcStep idleMachine h s ∧ h.map Prod.snd = knockEvents ∧ Holds s.ipc 2 4 receiveBit ∧
      ∀ u, Holds s.ipc u 4 receiveBit → u = 2 := by
  obtain ⟨h, s, -, hr, he, -, -, -, hown⟩ := exists_run_knock
  refine ⟨h, s, hr, he, hown, (receive_right_confined (G := Set.singleton 2) quiet_idleMachine ?_ hr
    fun x hx => ?_).1⟩
  · rintro u ⟨_, hu, -⟩
    cases hu
  · have hmem : x.2 ∈ knockEvents := he ▸ mem_map_of_mem hx
    have hall : ∀ e ∈ knockEvents, e.Keeps (Set.singleton 2) 4 := by
      simp [knockEvents, IpcEvent.Keeps, knock, secondKnock, Set.singleton]
    exact hall _ hmem

/-! ## Delivery of messages -/

omit [DecidableEq θ] in
theorem enqueued_snoc : enqueued (h ++ [(s, e)]) p = enqueued h p ++ (e.enqueues p).toList := by
  rw [enqueued, enqueued]
  cases he : e.enqueues p <;> simp [he]

omit [DecidableEq θ] in
theorem dequeued_snoc : dequeued (h ++ [(s, e)]) p = dequeued h p ++ (e.dequeues p).toList := by
  rw [dequeued, dequeued]
  cases he : e.dequeues p <;> simp [he]

theorem dequeued_append_queueOf (h₀ : Quiet s₀) (hr : Run IpcStep s₀ h s) (p : UInt32) :
    dequeued h p ++ queueOf s.ipc p = enqueued h p := by
  refine hr.invariant ?_ ?_
  · rw [h₀.1 p]
    rfl
  · intro h s e s' _ ih hs
    calc dequeued (h ++ [(s, e)]) p ++ queueOf s'.ipc p
        = dequeued h p ++ ((e.dequeues p).toList ++ queueOf s'.ipc p) := by
          rw [dequeued_snoc, append_assoc]
      _ = dequeued h p ++ (queueOf s.ipc p ++ (e.enqueues p).toList) := by rw [queue_step hs p]
      _ = enqueued h p ++ (e.enqueues p).toList := by rw [← append_assoc, ih]
      _ = enqueued (h ++ [(s, e)]) p := enqueued_snoc.symm

theorem header_of_deliver {td : θ} {ipch : IpcHeader} {v : Option UInt64}
    (hs : IpcStep s (.deliver td (.ok (ipch, v))) s') :
    ∃ rc, s.receiving td = some rc ∧ rc.msg.ipcmsgHeader = ipch := by
  cases hs with
  | @deliver _ rc vpagep reply _ hr _ hc =>
    refine ⟨rc, hr, ?_⟩
    have hy : Yields (ipcPortDeliver vpagep reply rc.msg) fun r =>
        ∀ ipch v, r = .ok (ipch, v) → rc.msg.ipcmsgHeader = ipch := by
      unfold ipcPortDeliver
      split
      · exact .ret (by rintro _ _ ⟨⟩; rfl)
      · split
        · split
          · exact .ret (by rintro _ _ ⟨⟩)
          · exact yields_error
          · exact .ret (by rintro _ _ ⟨⟩; rfl)
          · exact .ret (by rintro _ _ ⟨⟩)
          · exact .ret (by rintro _ _ ⟨⟩; rfl)
        · exact .ret (by rintro _ _ ⟨⟩; rfl)
    exact hy _ hc ipch v rfl

/-- **Messages are delivered in order and unchanged**: on every port, the messages dequeued so far
followed by those still queued are the messages enqueued; a receive that succeeds returns the header
of a message that it dequeued and that was sent; and a task that dequeues holds the receive
right. -/
theorem queue_is_fifo (h₀ : Quiet s₀) (hr : Run IpcStep s₀ h s) :
    (∀ p, dequeued h p ++ queueOf s.ipc p = enqueued h p) ∧
    (∀ t td ipch v, (t, IpcEvent.deliver td (.ok (ipch, v))) ∈ h →
      ∃ rc, t.receiving td = some rc ∧ rc.msg.ipcmsgHeader = ipch ∧
        (∃ t₁, (t₁, IpcEvent.dequeue td rc.task rc.port (.ok rc.msg)) ∈ h) ∧
        ∃ t₂ u, (t₂, IpcEvent.sendPage u ipch rc.msg.ipcmsgPage (.ok ())) ∈ h) ∧
    ∀ t td u p m, (t, IpcEvent.dequeue td u p (.ok m)) ∈ h → Holds t.ipc u p receiveBit := by
  refine ⟨dequeued_append_queueOf h₀ hr, ?_, ?_⟩
  · intro t td ipch v hm
    obtain ⟨h₁, h₂, t', rfl, hr₁, hs⟩ := hr.step_of_mem hm
    obtain ⟨rc, hrc, rfl⟩ := header_of_deliver hs
    obtain ⟨⟨-, t₂, u, hsn, -⟩, t₁, hd⟩ := (Sent.run h₀ hr₁).2 td rc hrc
    exact ⟨rc, hrc, rfl, ⟨t₁, mem_append_left _ hd⟩, t₂, u, mem_append_left _ hsn⟩
  · intro t td u p m hm
    obtain ⟨h₁, h₂, t', -, -, hs⟩ := hr.step_of_mem hm
    exact holds_of_dequeue hs

/-- Of two knocks the first is dequeued, and the second is still there. -/
theorem queue_is_fifo_knock : ∃ (h : List (IpcMachine ℕ ℕ × IpcEvent ℕ ℕ)) (s : IpcMachine ℕ ℕ),
    Run IpcStep idleMachine h s ∧ h.map Prod.snd = knockEvents ∧ dequeued h 4 = [knock] ∧
      queueOf s.ipc 4 = [secondKnock] := by
  obtain ⟨h, s, -, hr, he, -⟩ := exists_run_knock
  have hd : dequeued h 4 = (h.map Prod.snd).filterMap (·.dequeues 4) := by
    rw [filterMap_map]
    rfl
  have hen : enqueued h 4 = (h.map Prod.snd).filterMap (·.enqueues 4) := by
    rw [filterMap_map]
    rfl
  have hq := (queue_is_fifo quiet_idleMachine hr).1 4
  rw [he] at hd hen
  rw [hd, hen] at hq
  exact ⟨h, s, hr, he, hd, (cons.inj hq).2⟩

end Glatt
