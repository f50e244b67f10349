import Glatt.Ipc.SendRace

/-!
# Send-once rights

`ipc_port_right_check` consumes a send-once right when it lets a message pass on it, and
`ipc_port_right_insert` merges a right with the bits the task has already. Along a run, every
message that is sent on a send-once right is paid for by a grant; but grants that arrive before the
first of them is used are merged into one bit.

## Main definitions

* `grantsOnce`, `usesOnce`, `receivesOnce`: what a run does with send-once rights
* `OneAtATime`: no such right is received while one is held

## Main results

* `send_once_used_at_most_once`: uses are bounded by grants, along every run
* `send_once_honoured`: where grants do not pile up, every one of them is good for a message
* `second_reply_refused`: where they do, a reply is refused
-/

namespace Glatt

open Imperative Transition Function List IpcStep

variable {τ : Type} [LinearOrder τ] {p : UInt32} {t : τ}

instance (s : IpcState τ) (t : τ) (p : UInt32) (i : ℕ) : Decidable (Holds s t p i) :=
  match hp : s.ipcPorts p with
  | none => .isFalse fun ⟨_, h, _⟩ => by rw [hp] at h; cases h
  | some ipcp =>
    if hi : ipcp.HasRight t i then .isTrue ⟨ipcp, hp, hi⟩
    else .isFalse fun ⟨_, h, hi'⟩ => by rw [hp] at h; cases h; exact hi hi'

instance (s : IpcState τ) (p : UInt32) : Decidable (IsPublic s p) :=
  match hp : s.ipcPorts p with
  | none => .isFalse fun ⟨_, h, _⟩ => by rw [hp] at h; cases h
  | some ipcp =>
    if hi : ipcp.ipcpFlags &&& ipcPortFlagPublic ≠ 0 then .isTrue ⟨ipcp, hp, hi⟩
    else .isFalse fun ⟨_, h, hi'⟩ => by rw [hp] at h; cases h; exact hi hi'

theorem ipcPortSendPage_keeps (mem : Bool) (current : τ) (ipch : IpcHeader) (page : Option UInt64)
    (s : IpcState τ) :
    Yields (ipcPortSendPage mem current ipch page s) fun p => ∀ t q i, Holds s t q i →
      Holds p.1 t q i ∨ t = current ∧ q = ipch.ipchdrDst ∧ i = sendOnceBit ∧ p.2 = .ok () ∧
        ipch.ipchdrMsg ≠ ipcMsgNone := by
  refine (ipcPortSendPage_cases current).yields.mono ?_
  rintro ⟨s', r⟩ (⟨rfl, -, -⟩ | ⟨-, -, dstp, dstp', ok, hdst, hc, hend⟩) t q i h
  · exact .inl h
  rcases ((ipcPortSendCheck_spec dstp current ipch).yields _ hc).2.2 with
    ⟨rfl, -⟩ | ⟨rfl, hfr, rfl⟩
  · rcases hend with ⟨-, -, rfl⟩ | ⟨-, -, rfl⟩ <;> exact .inl (h.setPort hdst id)
  rcases hend with ⟨-, rfl, rfl⟩ | ⟨hf, -⟩
  · by_cases hd : t = current ∧ q = ipch.ipchdrDst ∧ ipcPortRightSendOnceBit.toNat.testBit i = true
    · obtain ⟨rfl, rfl, hb⟩ := hd
      rw [show ipcPortRightSendOnceBit.toNat = 2 ^ sendOnceBit from rfl, Nat.testBit_two_pow] at hb
      exact .inr ⟨rfl, rfl, (of_decide_eq_true hb).symm, rfl, fun hm => hfr (.inl hm)⟩
    · refine .inl ((holds_setPort_mask hdst ?_).mpr ⟨h, hd⟩)
      exact hasRight_mask dstp t i
  · cases hf

theorem ipcPortSendPage_once {mem : Bool} {current : τ} {ipch : IpcHeader} {page : Option UInt64}
    {s s' : IpcState τ} (hcl : ipcPortSendPage mem current ipch page s = .ok (s', .ok ()))
    (hmsg : ipch.ipchdrMsg ≠ ipcMsgNone) (hp : ¬ IsPublic s ipch.ipchdrDst)
    (hsn : ¬ Holds s current ipch.ipchdrDst sendBit)
    (hrc : ¬ Holds s current ipch.ipchdrDst receiveBit) :
    Holds s current ipch.ipchdrDst sendOnceBit ∧ ¬ Holds s' current ipch.ipchdrDst sendOnceBit := by
  rcases (ipcPortSendPage_cases current).yields _ hcl with
    ⟨-, ⟨e, he, -⟩, -⟩ | ⟨-, -, dstp, dstp', ok, hd, hc, hend⟩
  · cases he
  rcases hend with ⟨rfl, -, hs'⟩ | ⟨-, hr, -⟩
  · rw [isPublic_iff hd, not_not] at hp
    rw [holds_iff_hasRight hd] at hsn hrc ⊢
    have hpd : ¬ dstp.Admits current ipch := by
      rintro (hm | hpub | hb | hb)
      · exact hmsg hm
      · exact hpub hp
      · exact hrc hb
      · exact hsn hb
    obtain ⟨-, ho, hms⟩ := (ipcPortSendCheck_spec dstp current ipch).yields _ hc
    obtain ⟨-, -, rfl⟩ := hms.resolve_left fun h => hpd (h.2 rfl)
    refine ⟨(ho.mp rfl).resolve_left hpd, fun hh => ?_⟩
    obtain rfl : s' = _ := hs'
    have hbit := holds_setPort_self.mp hh
    exact ((hasRight_mask dstp current sendOnceBit).mp hbit).2 ⟨rfl, by decide⟩
  · cases hr

theorem ipcPortSendPage_of_holds {current : τ} {ipch : IpcHeader} {page : Option UInt64}
    {s : IpcState τ} (hm : ipch.ipchdrMsg ≠ ipcMsgNone)
    (hsrc : Holds s current ipch.ipchdrSrc receiveBit) (hdst : MaySend s current ipch.ipchdrDst) :
    ∃ s', ∀ mem, ipcPortSendPage mem current ipch page s =
      if mem then .ok (s', .ok ()) else .error .fault := by
  obtain ⟨srcp, hs, hr⟩ := hsrc
  obtain ⟨dstp, hd, hmay⟩ : ∃ dstp, s.ipcPorts ipch.ipchdrDst = some dstp ∧
      (dstp.Admits current ipch ∨ dstp.HasRight current sendOnceBit) := by
    rcases hdst with ⟨dstp, hd, hi⟩ | ⟨dstp, hd, hi⟩ | ⟨dstp, hd, hi⟩
    · exact ⟨dstp, hd, .inl (.inr (.inr (.inr hi)))⟩
    · exact ⟨dstp, hd, .inr hi⟩
    · exact ⟨dstp, hd, .inl (.inr (.inr (.inl hi)))⟩
  obtain ⟨⟨dstp', ok⟩, hc, -, ho, -⟩ := ipcPortSendCheck_spec dstp current ipch
  obtain rfl : ok = true := ho.mpr hmay
  refine ⟨s.setPort ipch.ipchdrDst { dstp' with ipcpMsgs := dstp'.ipcpMsgs ++ [⟨ipch, page⟩] },
    fun mem => ?_⟩
  rw [ipcPortSendPage, if_neg fun h => hm h.1]
  simp only [hs, ipcPortRightCheck_receive, ok_bind, setPort_eq_self hs, hr, hd, ipcPortEnqueue, hc]
  cases mem <;> rfl

/-! ## Along runs -/

variable {θ : Type} [DecidableEq θ]
variable {s₀ s s' : IpcMachine θ τ} {e : IpcEvent θ τ} {h : List (IpcMachine θ τ × IpcEvent θ τ)}

theorem right_removed_cases (hs : IpcStep s e s') {i : ℕ}
    (hold : Holds s.ipc t p i) (hn : ¬ Holds s'.ipc t p i) :
    (∃ right r, e = .rightDrop t p right r ∧ right.toNat.testBit i = true) ∨
    ∃ ipch page, e = .sendPage t ipch page (.ok ()) ∧ ipch.ipchdrDst = p ∧
      ipch.ipchdrMsg ≠ ipcMsgNone ∧ i = sendOnceBit := by
  cases hs with
  | allocate hc => exact absurd ((ipcPortAllocate_spec _ _ _ _ _ hc).2.1 t p i hold) hn
  | rightGrant hc =>
    exact absurd ((ipcPortRightGrant_spec _ _ hc).2.1 t p i hold) hn
  | rightSend hc =>
    exact absurd ((ipcPortRightSend_spec _ _ _ hc).2.1 t p i hold) hn
  | rightDrop hc =>
    obtain ⟨rfl, rfl, hi⟩ := not_not.mp fun hd =>
      hn (((ipcPortRightDrop_spec _ hc).1 t p i).mpr ⟨hold, hd⟩)
    exact .inl ⟨_, _, rfl, hi⟩
  | sendPage hc =>
    obtain ⟨rfl, rfl, rfl, rfl, hm⟩ :=
      (ipcPortSendPage_keeps _ _ _ _ _ _ hc t p i hold).resolve_left hn
    exact .inr ⟨_, _, rfl, rfl, hm, rfl⟩
  | dequeue _ hc =>
    exact absurd (((ipcPortDequeue_spec _ hc).1 t p i).mpr hold) hn
  | accept _ _ hc => exact absurd ((ipcPortAccept_spec _ _ hc).2.1 t p i hold) hn
  | deliver _ _ _ => exact absurd hold hn

/-- The step grants the task `t` a send-once right on `p`: by a grant, by a sent right, or by a
message that `t` receives. -/
def grantsOnce (t : τ) (p : UInt32) (x : IpcMachine θ τ × IpcEvent θ τ) : Bool :=
  match x.2 with
  | .rightGrant _ task src right (.ok ()) =>
    decide (task = t ∧ src = p ∧ right.toNat.testBit sendOnceBit = true)
  | .rightSend _ dst src right (.ok ()) =>
    decide (Holds x.1.ipc t dst receiveBit ∧ src = p ∧ right.toNat.testBit sendOnceBit = true)
  | .accept td =>
    match x.1.receiving td with
    | some rc => decide (rc.task = t ∧ rc.msg.ipcmsgHeader.ipchdrSrc = p ∧
        rc.msg.ipcmsgHeader.ipchdrRight.toNat.testBit sendOnceBit = true)
    | none => false
  | _ => false

/-- The step enqueues a message of `t`, other than `IPC_MSG_NONE`, on the port `p`. -/
def sendsTo (t : τ) (p : UInt32) (x : IpcMachine θ τ × IpcEvent θ τ) : Bool :=
  match x.2 with
  | .sendPage current ipch _ (.ok ()) =>
    decide (current = t ∧ ipch.ipchdrDst = p ∧ ipch.ipchdrMsg ≠ ipcMsgNone)
  | _ => false

/-- The step enqueues a message of `t`, other than `IPC_MSG_NONE`, on the port `p`, which is not
public, while `t` holds neither the send right nor the receive right there. -/
def usesOnce (t : τ) (p : UInt32) (x : IpcMachine θ τ × IpcEvent θ τ) : Bool :=
  sendsTo t p x && decide (¬ IsPublic x.1.ipc p ∧ ¬ Holds x.1.ipc t p sendBit ∧
    ¬ Holds x.1.ipc t p receiveBit)

/-- The task `t` receives a message from `p`, which is not public, that carries the send-once
right. -/
def receivesOnce (t : τ) (p : UInt32) (x : IpcMachine θ τ × IpcEvent θ τ) : Bool :=
  match x.2 with
  | .accept td =>
    match x.1.receiving td with
    | some rc => decide (rc.task = t ∧ rc.msg.ipcmsgHeader.ipchdrSrc = p ∧
        rc.msg.ipcmsgHeader.ipchdrRight = ipcPortRightSendOnceBit ∧ ¬ IsPublic x.1.ipc p)
    | none => false
  | _ => false

/-- No send-once right on the port is received while one is held there, and none is dropped. -/
def OneAtATime (t : τ) (p : UInt32) (s : IpcMachine θ τ) (e : IpcEvent θ τ) : Prop :=
  (receivesOnce t p (s, e) = true → ¬ Holds s.ipc t p sendOnceBit) ∧
  ∀ right r, e = .rightDrop t p right r → ¬ right.toNat.testBit sendOnceBit = true

omit [DecidableEq θ] in
theorem sendsTo_iff :
    sendsTo t p (s, e) = true ↔ ∃ ipch page, e = .sendPage t ipch page (.ok ()) ∧
      ipch.ipchdrDst = p ∧ ipch.ipchdrMsg ≠ ipcMsgNone := by
  constructor
  · intro hx
    rw [sendsTo] at hx
    split at hx
    · rename_i current ipch page he
      obtain ⟨rfl, hr⟩ := of_decide_eq_true hx
      exact ⟨ipch, page, he, hr⟩
    · cases hx
  · rintro ⟨ipch, page, rfl, hr⟩
    exact decide_eq_true ⟨rfl, hr⟩

omit [DecidableEq θ] in
theorem receivesOnce_iff :
    receivesOnce t p (s, e) = true ↔ ∃ td rc, e = .accept td ∧ s.receiving td = some rc ∧
      rc.task = t ∧ rc.msg.ipcmsgHeader.ipchdrSrc = p ∧
      rc.msg.ipcmsgHeader.ipchdrRight = ipcPortRightSendOnceBit ∧ ¬ IsPublic s.ipc p := by
  constructor
  · intro hx
    rw [receivesOnce] at hx
    split at hx
    · rename_i td he
      split at hx
      · rename_i rc hrc
        exact ⟨td, rc, he, hrc, of_decide_eq_true hx⟩
      · cases hx
    · cases hx
  · rintro ⟨td, rc, rfl, hrc, hr⟩
    simp only [receivesOnce, hrc]
    exact decide_eq_true hr

theorem grantsOnce_of_added (hs : IpcStep s e s')
    (hold : ¬ Holds s.ipc t p sendOnceBit) (hn : Holds s'.ipc t p sendOnceBit) :
    grantsOnce t p (s, e) = true := by
  rcases right_added_cases hs hold hn with ⟨-, hi⟩ | ⟨u, right, rfl, hi, -⟩ |
    ⟨u, dst, right, rfl, hi, -, hd⟩ | ⟨td, rc, rfl, hr, rfl, rfl, hi⟩
  · cases hi
  · exact decide_eq_true ⟨rfl, rfl, hi⟩
  · exact decide_eq_true ⟨hd, rfl, hi⟩
  · simp only [grantsOnce, hr]
    exact decide_eq_true ⟨trivial, trivial, hi⟩

theorem removed_of_usesOnce (hs : IpcStep s e s') (hx : usesOnce t p (s, e) = true) :
    Holds s.ipc t p sendOnceBit ∧ ¬ Holds s'.ipc t p sendOnceBit := by
  rw [usesOnce, Bool.and_eq_true, sendsTo_iff] at hx
  obtain ⟨⟨ipch, page, rfl, rfl, hm⟩, hr⟩ := hx
  obtain ⟨hp, hsn, hrc⟩ := of_decide_eq_true hr
  cases hs with
  | sendPage hc => exact ipcPortSendPage_once hc hm hp hsn hrc

theorem usesOnce_add_held_le (hr : Run IpcStep s₀ h s) (h₀ : ¬ Holds s₀.ipc t p sendOnceBit) :
    h.countP (usesOnce t p) + (if Holds s.ipc t p sendOnceBit then 1 else 0) ≤
      h.countP (grantsOnce t p) := by
  induction hr with
  | nil => simp [h₀]
  | @snoc h s e s' hr hs ih =>
    simp only [countP_append, countP_singleton]
    by_cases hu : usesOnce t p (s, e) = true
    · -- the right that was held pays for the use
      obtain ⟨hold, hn⟩ := removed_of_usesOnce hs hu
      rw [if_pos hold] at ih
      rw [if_pos hu, if_neg hn]
      exact ih.trans (Nat.le_add_right _ _)
    · rw [if_neg hu]
      by_cases hn : Holds s'.ipc t p sendOnceBit
      · by_cases hold : Holds s.ipc t p sendOnceBit
        · rw [if_pos hold] at ih
          rw [if_pos hn]
          exact ih.trans (Nat.le_add_right _ _)
        · rw [if_neg hold] at ih
          rw [if_pos hn, if_pos (grantsOnce_of_added hs hold hn)]
          exact Nat.add_le_add_right ih 1
      · rw [if_neg hn]
        exact (Nat.le_add_right _ _).trans (ih.trans (Nat.le_add_right _ _))

/-- **A send-once right is used at most once**: along every run, the messages a task enqueues on a
port that is not public while it holds neither the send nor the receive right there are at most as
many as the send-once rights it has been granted on the port. -/
theorem send_once_used_at_most_once (hr : Run IpcStep s₀ h s) {t : τ} {p : UInt32}
    (h₀ : ¬ Holds s₀.ipc t p sendOnceBit) :
    h.countP (usesOnce t p) ≤ h.countP (grantsOnce t p) :=
  (Nat.le_add_right _ _).trans (usesOnce_add_held_le hr h₀)

/-- A message without data from port 3 to port 4 that carries a send-once right. -/
def request : IpcMessage := ⟨⟨3, 4, ipcPortRightSendOnceBit, ipcMsgNone, 0, 0⟩, none⟩

def reply : IpcHeader := ⟨4, 3, ipcPortRightNone, 1, 0, 0⟩

theorem dequeue_request {s : IpcMachine ℕ ℕ} {ipc : IpcState ℕ} (hid : s.receiving 0 = none)
    (hc : ipcPortDequeue 2 4 s.ipc = .ok (ipc, .ok request)) :
    IpcStep s (.dequeue 0 2 4 (.ok request))
      ⟨ipc, update s.receiving 0 (some ⟨2, 4, request, false⟩)⟩ :=
  .dequeue hid hc

theorem accept_request {s : IpcMachine ℕ ℕ} {ipc : IpcState ℕ}
    (hr : s.receiving 0 = some ⟨2, 4, request, false⟩)
    (hc : ipcPortAccept true 2 request s.ipc = .ok ipc) :
    IpcStep s (.accept 0) ⟨ipc, update s.receiving 0 (some ⟨2, 4, request, true⟩)⟩ :=
  .accept hr rfl hc

theorem deliver_request {s : IpcMachine ℕ ℕ} (hr : s.receiving 0 = some ⟨2, 4, request, true⟩) :
    IpcStep s (.deliver 0 (.ok (request.ipcmsgHeader, none)))
      { s with receiving := update s.receiving 0 none } :=
  .deliver hr rfl (rfl : ipcPortDeliver false (.kernel (.ok 0)) request = .ok _)

theorem exists_run_request :
    ∃ h s s', Run IpcStep idleMachine h s ∧ IpcStep s (.sendPage 2 reply none (.ok ())) s' ∧
      h.countP (receivesOnce 2 3) = 1 ∧ h.countP (grantsOnce 2 3) = 1 ∧
      h.countP (sendsTo 2 3) = 0 ∧ Holds s.ipc 2 4 receiveBit ∧
      (∀ x ∈ h, OneAtATime 2 3 x.1 x.2) ∧
      (h ++ [(s, IpcEvent.sendPage 2 reply none (.ok ()))]).countP (usesOnce 2 3) = 1 := by
  have h₁ : Run IpcStep idleMachine _ _ := Run.nil.snoc
    (allocate (rfl : ipcPortAllocate true 1 0 _ = .ok (_, .ok 3)))
  have h₂ := h₁.snoc (allocate (rfl : ipcPortAllocate true 2 0 _ = .ok (_, .ok 4)))
  have h₃ := h₂.snoc (sendPage
    (rfl : ipcPortSendPage true 1 request.ipcmsgHeader none _ = .ok (_, .ok ())))
  have h₄ := h₃.snoc (dequeue_request rfl rfl)
  have h₅ := h₄.snoc (accept_request rfl rfl)
  have h₆ := h₅.snoc (deliver_request rfl)
  refine ⟨_, _, _, h₆, sendPage
    (rfl : ipcPortSendPage true 2 reply none _ = .ok (_, .ok ())), rfl, rfl, rfl, ⟨_, rfl, rfl⟩,
    ?_, rfl⟩
  simp only [forall_mem_append, forall_mem_singleton, not_mem_nil,
    false_imp_iff, implies_true, OneAtATime, reduceCtorEq]
  decide

/-- The request is answered on the one right it grants. -/
theorem send_once_used_at_most_once_request :
    ∃ h s, Run IpcStep idleMachine h s ∧ h.countP (usesOnce 2 3) = 1 ∧
      1 ≤ h.countP (grantsOnce 2 3) := by
  obtain ⟨h, s, s', hr, hs, -, -, -, -, -, hu⟩ := exists_run_request
  have hb := send_once_used_at_most_once (hr.snoc hs)
    (by decide : ¬ Holds idleMachine.ipc 2 3 sendOnceBit)
  exact ⟨_, s', hr.snoc hs, hu, hu ▸ hb⟩

/-! ## Every grant is good for a message -/

theorem holds_of_receivesOnce (hs : IpcStep s e s')
    (hx : receivesOnce t p (s, e) = true) : Holds s'.ipc t p sendOnceBit := by
  obtain ⟨td, rc, rfl, hrc, rfl, rfl, hr, hp⟩ := receivesOnce_iff.mp hx
  cases hs with
  | accept hrc' _ hc =>
    obtain rfl := Option.some.inj (hrc.symm.trans hrc')
    exact (ipcPortAccept_spec _ _ hc).2.2.1 hp sendOnceBit (by rw [hr]; decide)

theorem receivesOnce_le (hr : Run IpcStep s₀ h s) (ho : ∀ x ∈ h, OneAtATime t p x.1 x.2) :
    h.countP (receivesOnce t p) ≤
      h.countP (sendsTo t p) + if Holds s.ipc t p sendOnceBit then 1 else 0 := by
  induction hr with
  | nil => exact Nat.zero_le _
  | @snoc h s e s' hr hs ih =>
    have hb := ih fun x hx => ho x (mem_append_left _ hx)
    obtain ⟨hf, hd⟩ := ho (s, e) (mem_append_right _ mem_cons_self)
    simp only [countP_append, countP_singleton]
    by_cases hrc : receivesOnce t p (s, e) = true
    · -- the right that is received was not held before
      rw [if_neg (hf hrc)] at hb
      rw [if_pos hrc, if_pos (holds_of_receivesOnce hs hrc)]
      omega
    · rw [if_neg hrc]
      by_cases hl : Holds s.ipc t p sendOnceBit ∧ ¬ Holds s'.ipc t p sendOnceBit
      · -- a right that is lost and not dropped has been sent on
        rcases right_removed_cases hs hl.1 hl.2 with ⟨right, r, rfl, hi⟩ |
          ⟨ipch, page, rfl, hdst, hm, -⟩
        · exact absurd hi (hd right r rfl)
        · rw [if_pos hl.1] at hb
          rw [if_pos (sendsTo_iff.mpr ⟨ipch, page, rfl, hdst, hm⟩)]
          omega
      · have hk : (if Holds s.ipc t p sendOnceBit then 1 else 0) ≤
            if Holds s'.ipc t p sendOnceBit then 1 else 0 := by
          by_cases hold : Holds s.ipc t p sendOnceBit
          · rw [if_pos (not_not.mp fun hn => hl ⟨hold, hn⟩)]
            split <;> omega
          · rw [if_neg hold]
            exact Nat.zero_le _
        omega

/-- **Every send-once grant is good for a message** in a run where none is received while one is
held and none is dropped: while the task has sent fewer messages to the port than it has received
send-once rights from it, one that it sends there, from a port it may receive on, is enqueued. -/
theorem send_once_honoured (hr : Run IpcStep s₀ h s) {t : τ} {p : UInt32}
    (hone : ∀ x ∈ h, OneAtATime t p x.1 x.2)
    (hleft : h.countP (sendsTo t p) < h.countP (receivesOnce t p))
    (ipch : IpcHeader) (page : Option UInt64) (hdst : ipch.ipchdrDst = p)
    (hmsg : ipch.ipchdrMsg ≠ ipcMsgNone) (hsrc : Holds s.ipc t ipch.ipchdrSrc receiveBit) :
    ∃ ipc, ∀ mem, ipcPortSendPage mem t ipch page s.ipc =
      if mem then .ok (ipc, .ok ()) else .error .fault := by
  have hh : Holds s.ipc t p sendOnceBit := by
    by_contra hn
    have hle := receivesOnce_le hr hone
    rw [if_neg hn] at hle
    omega
  subst hdst
  exact ipcPortSendPage_of_holds hmsg hsrc (.inr (.inl hh))

/-- The request can be answered. -/
theorem send_once_honoured_request :
    ∃ h s, Run IpcStep idleMachine h s ∧ h.countP (receivesOnce 2 3) = 1 ∧
      ∃ ipc, ipcPortSendPage true 2 reply none s.ipc = .ok (ipc, .ok ()) := by
  obtain ⟨h, s, -, hr, -, hrc, -, hs, hsrc, ho, -⟩ := exists_run_request
  obtain ⟨ipc, hc⟩ := send_once_honoured hr ho (by omega) reply none rfl (by decide) hsrc
  exact ⟨h, s, hr, hrc, ipc, hc true⟩

/-- **Two requests, one answer**: task 2 receives two requests before it answers, from a port that
is not public and where it never holds another right; the first answer uses up the one bit that both
grants have set, and the second is refused. -/
theorem second_reply_refused :
    ∃ h s s', Run IpcStep idleMachine h s ∧ h.countP (receivesOnce 2 3) = 2 ∧
      h.countP (sendsTo 2 3) = 1 ∧ ¬ IsPublic s.ipc 3 ∧
      (∀ x ∈ h, ¬ Holds x.1.ipc 2 3 sendBit ∧ ¬ Holds x.1.ipc 2 3 receiveBit) ∧
      Holds s.ipc 2 4 receiveBit ∧
      ipcPortSendPage true 2 reply none s.ipc = .ok (s', .error .noRight) := by
  have h₁ : Run IpcStep idleMachine _ _ := Run.nil.snoc
    (allocate (rfl : ipcPortAllocate true 1 0 _ = .ok (_, .ok 3)))
  have h₂ := h₁.snoc (allocate (rfl : ipcPortAllocate true 2 0 _ = .ok (_, .ok 4)))
  have h₃ := h₂.snoc (sendPage
    (rfl : ipcPortSendPage true 1 request.ipcmsgHeader none _ = .ok (_, .ok ())))
  have h₄ := h₃.snoc (sendPage
    (rfl : ipcPortSendPage true 1 request.ipcmsgHeader none _ = .ok (_, .ok ())))
  have h₇ := ((h₄.snoc (dequeue_request rfl rfl)).snoc (accept_request rfl rfl)).snoc
    (deliver_request rfl)
  have h₁₀ := ((h₇.snoc (dequeue_request rfl rfl)).snoc (accept_request rfl rfl)).snoc
    (deliver_request rfl)
  have h₁₁ := h₁₀.snoc (sendPage (rfl : ipcPortSendPage true 2 reply none _ = .ok (_, .ok ())))
  refine ⟨_, _, _, h₁₁, rfl, rfl, by decide, ?_, ⟨_, rfl, rfl⟩, rfl⟩
  decide

end Glatt
