import Glatt.Ipc.Machine

/-!
# Sending from memory that others write

`syscall_ipc_port_send` hands the header in the memory of the calling task to `ipc_port_send_page`,
which reads it field by field: the message first, then the source port, the destination port, the
message again, and at last every field for the copy that is enqueued. The other threads of the task
go on writing that memory, and other calls go on between the reads; only a port that the send has
locked stays as it is.

## Main definitions

* `SendPc`, `SendState`, `sendStep`: the send, one read after the other
* `Harmless`: a write that changes nothing the send has checked

## Main results

* `sendSteps_eq`: on its own, the send is `ipcPortSendPage`
* `sent_as_checked`: if all writes are harmless, the enqueued message is as it was checked
* `send_forged_source`: a write between check and copy enqueues a message with a forged source
-/

namespace Glatt

open Imperative Transition List IpcHeader

variable {τ : Type} [LinearOrder τ]

/-! ## The send, one read at a time -/

/-- The fields of the header, in the order of the copy. -/
inductive HeaderField
  | src
  | dst
  | right
  | msg
  | cookie
  | param

def HeaderField.next : HeaderField → Option HeaderField
  | src => some dst
  | dst => some right
  | right => some msg
  | msg => some cookie
  | cookie => some param
  | param => none

def HeaderField.copy (user copied : IpcHeader) : HeaderField → IpcHeader
  | src => { copied with ipchdrSrc := user.ipchdrSrc }
  | dst => { copied with ipchdrDst := user.ipchdrDst }
  | right => { copied with ipchdrRight := user.ipchdrRight }
  | msg => { copied with ipchdrMsg := user.ipchdrMsg }
  | cookie => { copied with ipchdrCookie := user.ipchdrCookie }
  | param => { copied with ipchdrParam := user.ipchdrParam }

/-- Where `ipc_port_send_page` is: before one of its reads of the header, or at its end. From
`checkMsg` on it holds the lock of the port it is going to queue the message on. -/
inductive SendPc
  | start
  | checkSrc
  | checkDst
  | checkMsg (port : UInt32)
  | copy (port : UInt32) (field : HeaderField) (copied : IpcHeader)
  | sent (port : UInt32) (ipch : IpcHeader)
  | failed (e : Errno)

def SendPc.locked : SendPc → Option UInt32
  | checkMsg port => some port
  | copy port _ _ => some port
  | _ => none

/-- The header in the memory of the sending task, the ports, and where the send is. -/
structure SendState (τ : Type) [LinearOrder τ] where
  user : IpcHeader
  ipc : IpcState τ
  pc : SendPc

/-- **The next step of `ipc_port_send_page`**, which makes one read of the header. `mem` says
whether the allocation of the message succeeds. -/
def sendStep (mem : Bool) (current : τ) (page : Option UInt64) (s : SendState τ) :
    Outcome (SendState τ) :=
  match s.pc with
  | .start =>
    if s.user.ipchdrMsg = ipcMsgNone ∧ page ≠ none then pure { s with pc := .failed .invalid }
    else pure { s with pc := .checkSrc }
  | .checkSrc =>
    match s.ipc.ipcPorts s.user.ipchdrSrc with
    | none => pure { s with pc := .failed .invalid }
    | some srcp => do
      let (srcp, ok) ← ipcPortRightCheck srcp current ipcPortRightReceiveBit
      let ipc := s.ipc.setPort s.user.ipchdrSrc srcp
      if ok then pure { s with ipc, pc := .checkDst }
      else pure { s with ipc, pc := .failed .noRight }
  | .checkDst =>
    match s.ipc.ipcPorts s.user.ipchdrDst with
    | none => pure { s with pc := .failed .notFound }
    | some _ => pure { s with pc := .checkMsg s.user.ipchdrDst }
  | .checkMsg port =>
    match s.ipc.ipcPorts port with
    | none => .error .fault
    | some dstp => do
      let (dstp, ok) ← ipcPortSendCheck current s.user dstp
      let ipc := s.ipc.setPort port dstp
      if ok then pure { s with ipc, pc := .copy port .src ⟨0, 0, 0, 0, 0, 0⟩ }
      else pure { s with ipc, pc := .failed .noRight }
  | .copy port field copied =>
    let copied := field.copy s.user copied
    match field.next with
    | some field => pure { s with pc := .copy port field copied }
    | none =>
      match s.ipc.ipcPorts port with
      | none => .error .fault
      | some dstp =>
        if mem then
          let dstp := { dstp with ipcpMsgs := dstp.ipcpMsgs ++ [⟨copied, page⟩] }
          pure { s with ipc := s.ipc.setPort port dstp, pc := .sent port copied }
        else .error .fault
  | .sent _ _ => pure s
  | .failed _ => pure s

def sendSteps (mem : Bool) (current : τ) (page : Option UInt64) :
    ℕ → SendState τ → Outcome (SendState τ)
  | 0, s => pure s
  | n + 1, s => do
    let s ← sendStep mem current page s
    sendSteps mem current page n s

def sendEnd (ipch : IpcHeader) : Except Errno Unit → SendPc
  | .ok () => .sent ipch.ipchdrDst ipch
  | .error e => .failed e

@[simp] theorem setPort_setPort (s : IpcState τ) (q : UInt32) (ipcp ipcp' : IpcPort τ) :
    (s.setPort q ipcp).setPort q ipcp' = s.setPort q ipcp' := by
  simp [IpcState.setPort]

variable {mem : Bool} {current : τ} {page : Option UInt64} {user : IpcHeader} {ipc : IpcState τ}

@[simp] theorem sendSteps_failed (n : ℕ) (e : Errno) :
    sendSteps mem current page n ⟨user, ipc, .failed e⟩ = .ok ⟨user, ipc, .failed e⟩ := by
  induction n with
  | zero => rfl
  | succ n ih => exact ih

theorem sendSteps_copy {user copied : IpcHeader}
    {ipc : IpcState τ} {port : UInt32} {dstp : IpcPort τ} (hp : ipc.ipcPorts port = some dstp) :
    sendSteps mem current page 6 ⟨user, ipc, .copy port .src copied⟩ =
      if mem then .ok ⟨user, ipc.setPort port { dstp with
        ipcpMsgs := dstp.ipcpMsgs ++ [⟨user, page⟩] }, .sent port user⟩
      else .error .fault := by
  simp only [sendSteps, sendStep, HeaderField.next, HeaderField.copy, hp, pure_bind]
  cases mem <;> rfl

theorem sendSteps_eq (ipch : IpcHeader) : sendSteps mem current page 10 ⟨ipch, ipc, .start⟩ =
      (ipcPortSendPage mem current ipch page ipc >>= fun p =>
        pure ⟨ipch, p.1, sendEnd ipch p.2⟩) := by
  have hf : ∀ n ipc' e,
      (pure ⟨ipch, ipc', .failed e⟩ >>= sendSteps mem current page n : Outcome (SendState τ)) =
        (pure (ipc', .error e) >>= fun p : IpcState τ × Except Errno Unit =>
          pure ⟨ipch, p.1, sendEnd ipch p.2⟩) := by
    intro n ipc' e
    rw [pure_bind, sendSteps_failed]
    rfl
  rw [ipcPortSendPage, sendSteps, sendStep]
  dsimp only
  split
  · exact hf _ _ _
  change sendSteps mem current page 9 _ = _
  rw [sendSteps, sendStep]
  cases ipc.ipcPorts ipch.ipchdrSrc with
  | none => exact hf _ _ _
  | some srcp =>
    simp only [ipcPortRightCheck_receive, ok_bind]
    split
    · change sendSteps mem current page 8 _ = _
      rw [sendSteps, sendStep]
      cases hd : (ipc.setPort ipch.ipchdrSrc srcp).ipcPorts ipch.ipchdrDst with
      | none => exact hf _ _ _
      | some dstp =>
        change sendSteps mem current page 7 _ = _
        rw [sendSteps, sendStep]
        simp only [hd, ipcPortEnqueue]
        cases ipcPortSendCheck current ipch dstp with
        | error e => rfl
        | ok r =>
          obtain ⟨-, ok⟩ := r
          cases ok with
          | false => exact hf _ _ _
          | true =>
            simp only [ok_bind, ↓reduceIte, pure_bind]
            rw [sendSteps_copy (setPort_ipcPorts |>.trans (if_pos rfl)), setPort_setPort]
            cases mem <;> rfl
    · exact hf _ _ _

/-! ## The send among writes and other calls -/

/-- The send makes its next step, another thread writes the header, or another call changes the
ports. -/
inductive SendLabel
  | send
  | write (user : IpcHeader)
  | other

/-- **One step** of a send by the task `current`. Another call may do anything to the ports but
change the one that the send has locked. -/
inductive SendRaceStep (current : τ) (page : Option UInt64) :
    SendState τ → SendLabel → SendState τ → Prop
  | send {s s' : SendState τ} {mem} : sendStep mem current page s = .ok s' →
      SendRaceStep current page s .send s'
  | write {s : SendState τ} {user} : SendRaceStep current page s (.write user) { s with user }
  | other {s : SendState τ} {ipc} :
      (∀ port, s.pc.locked = some port → ipc.ipcPorts port = s.ipc.ipcPorts port) →
      SendRaceStep current page s .other { s with ipc }

/-- The header that is enqueued if the rest of it is copied as it stands: the fields from this one
on come from `user`. -/
def HeaderField.pending (user copied : IpcHeader) : HeaderField → IpcHeader
  | src => user
  | dst => { user with ipchdrSrc := copied.ipchdrSrc }
  | right => { user with ipchdrSrc := copied.ipchdrSrc, ipchdrDst := copied.ipchdrDst }
  | msg => { copied with
      ipchdrMsg := user.ipchdrMsg, ipchdrCookie := user.ipchdrCookie
      ipchdrParam := user.ipchdrParam }
  | cookie => { copied with ipchdrCookie := user.ipchdrCookie, ipchdrParam := user.ipchdrParam }
  | param => { copied with ipchdrParam := user.ipchdrParam }

theorem HeaderField.pending_next {f f' : HeaderField} (h : f.next = some f')
    (user copied : IpcHeader) : f'.pending user (f.copy user copied) = f.pending user copied := by
  cases f <;> cases h <;> rfl

theorem HeaderField.copy_last {f : HeaderField} (h : f.next = none) (user copied : IpcHeader) :
    f.copy user copied = f.pending user copied := by
  cases f with
  | param => rfl
  | _ => cases h

def SendState.header (s : SendState τ) : IpcHeader :=
  match s.pc with
  | .copy _ field copied => field.pending s.user copied
  | .sent _ ipch => ipch
  | _ => s.user

/-- How many of the first reads are behind: of the message, the source, the destination, and the
message again. A send that has failed promises nothing. -/
def SendPc.stage : SendPc → ℕ
  | start => 0
  | checkSrc => 1
  | checkDst => 2
  | checkMsg _ => 3
  | copy _ _ _ => 4
  | sent _ _ => 4
  | failed _ => 0

def SendPc.port : SendPc → Option UInt32
  | checkMsg port => some port
  | copy port _ _ => some port
  | sent port _ => some port
  | _ => none

/-- **A harmless write** changes nothing that has been checked: the message once it has been read,
the source port once the right on it has been checked, the destination port once it has been
looked up, each until it has been copied. -/
structure Harmless (s : SendState τ) (user : IpcHeader) : Prop where
  msg : 1 ≤ s.pc.stage → ({ s with user } : SendState τ).header.ipchdrMsg = s.header.ipchdrMsg
  src : 2 ≤ s.pc.stage → ({ s with user } : SendState τ).header.ipchdrSrc = s.header.ipchdrSrc
  dst : 3 ≤ s.pc.stage → ({ s with user } : SendState τ).header.ipchdrDst = s.header.ipchdrDst

/-- The task has a right on the port that allows to send: to send, to send once, or to receive. -/
def MaySend (s : IpcState τ) (t : τ) (p : UInt32) : Prop :=
  Holds s t p 0 ∨ Holds s t p 1 ∨ Holds s t p receiveBit

section Checks

variable (current : τ) (page : Option UInt64)
variable (h : List (SendState τ × SendLabel))

def HeldSource (src : UInt32) : Prop :=
  ∃ x ∈ h, x.1.pc = .checkSrc ∧ Holds x.1.ipc current src receiveBit

/-- When the send had locked the port, it was public or the sender might send to it. -/
def Covered (dst : UInt32) : Prop :=
  ∃ x ∈ h, x.1.pc = .checkMsg dst ∧ (IsPublic x.1.ipc dst ∨ MaySend x.1.ipc current dst)

/-- **What the checks promise** of a message on the port: the sender held the receive right on its
source port, the port is its destination, and unless it is a knock without a page the sender was
allowed to send to it. -/
structure SentAsChecked (port : UInt32) (ipch : IpcHeader) : Prop where
  src : HeldSource current h ipch.ipchdrSrc
  dst : ipch.ipchdrDst = port
  msg : (ipch.ipchdrMsg = ipcMsgNone ∧ page = none) ∨ Covered current h port

/-- What the reads so far have checked. -/
structure Checked (s : SendState τ) : Prop where
  knock : 1 ≤ s.pc.stage → s.header.ipchdrMsg = ipcMsgNone → page = none
  src : 2 ≤ s.pc.stage → HeldSource current h s.header.ipchdrSrc
  dst : 3 ≤ s.pc.stage → s.pc.port = some s.header.ipchdrDst
  msg : 4 ≤ s.pc.stage → s.header.ipchdrMsg = ipcMsgNone ∨ Covered current h s.header.ipchdrDst

end Checks

variable {current : τ} {page : Option UInt64} {h : List (SendState τ × SendLabel)}
variable {s₀ s s' : SendState τ}

/-! ## What a step keeps -/

variable {x : SendState τ × SendLabel}

theorem HeldSource.snoc {src : UInt32} (hs : HeldSource current h src)
    (x : SendState τ × SendLabel) : HeldSource current (h ++ [x]) src := by
  obtain ⟨y, hy, hpc, hr⟩ := hs
  exact ⟨y, mem_append_left _ hy, hpc, hr⟩

theorem Covered.snoc {dst : UInt32} (hs : Covered current h dst)
    (x : SendState τ × SendLabel) : Covered current (h ++ [x]) dst := by
  obtain ⟨y, hy, hpc, hr⟩ := hs
  exact ⟨y, mem_append_left _ hy, hpc, hr⟩

theorem Checked.keep (hc : Checked current page h s)
    (hs : s'.pc.stage = s.pc.stage) (hp : s'.pc.port = s.pc.port)
    (hm : 1 ≤ s.pc.stage → s'.header.ipchdrMsg = s.header.ipchdrMsg)
    (hsrc : 2 ≤ s.pc.stage → s'.header.ipchdrSrc = s.header.ipchdrSrc)
    (hd : 3 ≤ s.pc.stage → s'.header.ipchdrDst = s.header.ipchdrDst) :
    Checked current page (h ++ [x]) s' := by
  constructor
  · intro hn
    rw [hs] at hn
    rw [hm hn]
    exact hc.knock hn
  · intro hn
    rw [hs] at hn
    rw [hsrc hn]
    exact (hc.src hn).snoc x
  · intro hn
    rw [hs] at hn
    rw [hd hn, hp]
    exact hc.dst hn
  · intro hn
    rw [hs] at hn
    rw [hm (by omega), hd (by omega)]
    exact (hc.msg hn).imp_right fun hcov => hcov.snoc x

theorem checked_failed {e : Errno} (hs : s.pc = .failed e) : Checked current page h s := by
  constructor <;> (rw [hs]; intro hn; simp [SendPc.stage] at hn)

theorem Checked.sendStep {mem : Bool} (hc : Checked current page h s) :
    Yields (sendStep mem current page s) fun s' => Checked current page (h ++ [(s, .send)]) s' := by
  have hin : (s, SendLabel.send) ∈ h ++ [(s, .send)] := by simp
  obtain ⟨user, ipc, pc⟩ := s
  cases pc with
  | start =>
    rw [sendStep]
    dsimp only
    split
    · exact .ret (checked_failed rfl)
    · rename_i hn
      refine .ret ⟨fun _ hm => ?_, ?_, ?_, ?_⟩
      · by_contra hpg
        exact hn ⟨hm, hpg⟩
      all_goals intro hst; simp [SendPc.stage] at hst
  | checkSrc =>
    rw [sendStep]
    dsimp only
    split
    · exact .ret (checked_failed rfl)
    · rename_i srcp hs
      rw [ipcPortRightCheck_receive, ok_bind]
      split
      · rename_i hhl
        refine .ret ⟨fun _ => hc.knock (by simp [SendPc.stage]), fun _ => ?_, ?_, ?_⟩
        · exact ⟨_, hin, rfl, srcp, hs, of_decide_eq_true hhl⟩
        all_goals intro hst; simp [SendPc.stage] at hst
      · exact .ret (checked_failed rfl)
  | checkDst =>
    rw [sendStep]
    dsimp only
    split
    · exact .ret (checked_failed rfl)
    · refine .ret ⟨fun _ => hc.knock (by simp [SendPc.stage]),
        fun _ => (hc.src (by simp [SendPc.stage])).snoc _, fun _ => rfl, ?_⟩
      intro hst
      simp [SendPc.stage] at hst
  | checkMsg port =>
    rw [sendStep]
    dsimp only
    split
    · exact yields_error
    · rename_i dstp hd
      have hp : port = user.ipchdrDst := Option.some.inj (hc.dst (by simp [SendPc.stage]))
      refine (ipcPortSendCheck_spec dstp current user).yields.bind ?_
      rintro ⟨dstp', ok⟩ ⟨-, ho, -⟩
      split
      · rename_i ht
        refine .ret ⟨fun _ => hc.knock (by simp [SendPc.stage]),
          fun _ => (hc.src (by simp [SendPc.stage])).snoc _, fun _ => congrArg some hp,
          fun _ => ?_⟩
        subst hp
        rcases ho.mp ht with (hm | hpub | hb | hb) | hb
        · exact .inl hm
        · exact .inr ⟨_, hin, rfl, .inl ⟨dstp, hd, hpub⟩⟩
        · exact .inr ⟨_, hin, rfl, .inr (.inr (.inr ⟨dstp, hd, hb⟩))⟩
        · exact .inr ⟨_, hin, rfl, .inr (.inl ⟨dstp, hd, hb⟩)⟩
        · exact .inr ⟨_, hin, rfl, .inr (.inr (.inl ⟨dstp, hd, hb⟩))⟩
      · exact .ret (checked_failed rfl)
  | copy port field copied =>
    rw [sendStep]
    dsimp only
    split
    · rename_i field' hnx
      have hh := HeaderField.pending_next hnx user copied
      exact .ret (hc.keep rfl rfl (fun _ => congrArg ipchdrMsg hh)
        (fun _ => congrArg ipchdrSrc hh) fun _ => congrArg ipchdrDst hh)
    · rename_i hnx
      have hh := HeaderField.copy_last hnx user copied
      split
      · exact yields_error
      · split
        · exact .ret (hc.keep rfl rfl (fun _ => congrArg ipchdrMsg hh)
            (fun _ => congrArg ipchdrSrc hh) fun _ => congrArg ipchdrDst hh)
        · exact yields_error
  | sent port ipch =>
    exact .ret (hc.keep rfl rfl (fun _ => rfl) (fun _ => rfl) fun _ => rfl)
  | failed e => exact .ret (checked_failed rfl)

theorem Checked.run (h₀ : s₀.pc = .start) (hr : Run (SendRaceStep current page) s₀ h s) :
    (∀ t user, (t, SendLabel.write user) ∈ h → Harmless t user) → Checked current page h s := by
  refine hr.invariant ?_ ?_
  · intro _
    constructor <;> (rw [h₀]; intro hn; simp [SendPc.stage] at hn)
  · intro h s a s' _ ih hs hw
    have hc := ih fun t user hm => hw t user (mem_append_left _ hm)
    cases hs with
    | send hst => exact hc.sendStep _ hst
    | @write user =>
      have hl := hw s user (by simp)
      exact hc.keep rfl rfl hl.msg hl.src hl.dst
    | other => exact hc.keep rfl rfl (fun _ => rfl) (fun _ => rfl) fun _ => rfl

theorem sendStep_spec : Yields (sendStep mem current page s) fun s' => s'.user = s.user ∧
      (∀ t p i, Holds s'.ipc t p i → Holds s.ipc t p i) ∧
      ((∀ p, queueOf s'.ipc p = queueOf s.ipc p) ∨
        ∃ port field copied, s.pc = .copy port field copied ∧
          ∀ p, queueOf s'.ipc p = if p = port then queueOf s.ipc p ++ [⟨s.header, page⟩]
            else queueOf s.ipc p) := by
  obtain ⟨user, -, pc⟩ := s
  cases pc with
  | start =>
    rw [sendStep]
    dsimp only
    split <;> exact .ret ⟨rfl, fun _ _ _ hh => hh, .inl fun _ => rfl⟩
  | checkSrc =>
    rw [sendStep]
    dsimp only
    split
    · exact .ret ⟨rfl, fun _ _ _ hh => hh, .inl fun _ => rfl⟩
    · rename_i srcp hs
      rw [ipcPortRightCheck_receive, ok_bind]
      split <;> exact .ret ⟨rfl, fun _ _ _ => (Narrows.refl srcp).holds hs,
        .inl (queueOf_setPort_of_msgs hs rfl)⟩
  | checkDst =>
    rw [sendStep]
    dsimp only
    split <;> exact .ret ⟨rfl, fun _ _ _ hh => hh, .inl fun _ => rfl⟩
  | checkMsg port =>
    rw [sendStep]
    dsimp only
    split
    · exact yields_error
    · rename_i dstp hd
      refine (ipcPortSendCheck_spec dstp current user).yields.bind ?_
      rintro ⟨dstp', ok⟩ ⟨hn, -⟩
      split <;> exact .ret ⟨rfl, fun _ _ _ => hn.holds hd,
        .inl (queueOf_setPort_of_msgs hd hn.msgs)⟩
  | copy port field copied =>
    rw [sendStep]
    dsimp only
    split
    · exact .ret ⟨rfl, fun _ _ _ hh => hh, .inl fun _ => rfl⟩
    · rename_i hnx
      split
      · exact yields_error
      · rename_i dstp hd
        split
        · refine .ret ⟨rfl, fun t p i hh => ?_, .inr ⟨port, field, copied, rfl, ?_⟩⟩
          · rcases holds_setPort hh with hh' | ⟨rfl, hh'⟩
            · exact hh'
            · exact ⟨dstp, hd, hh'⟩
          · intro p
            rw [queueOf_setPort, HeaderField.copy_last hnx]
            split
            · rw [‹p = port›, queueOf_eq hd]
              rfl
            · rfl
        · exact yields_error
  | sent port ipch | failed e => exact .ret ⟨rfl, fun _ _ _ hh => hh, .inl fun _ => rfl⟩

/-- **The header that is checked is the header that is sent**, in every run in which all writes to
the header are harmless: a message that a step of the send enqueues is as the checks promise. -/
theorem sent_as_checked (h₀ : s₀.pc = .start) (hr : Run (SendRaceStep current page) s₀ h s)
    (hw : ∀ t user, (t, SendLabel.write user) ∈ h → Harmless t user)
    (hs : SendRaceStep current page s .send s') {port : UInt32} {m : IpcMessage}
    (hq : queueOf s'.ipc port = queueOf s.ipc port ++ [m]) :
    SentAsChecked current page h port m.ipcmsgHeader ∧ m.ipcmsgPage = page := by
  have hc := Checked.run h₀ hr hw
  cases hs with
  | send hst =>
    rcases (sendStep_spec _ hst).2.2 with hsm | ⟨dst, field, copied, hpc, hqu⟩
    · simp [hsm port] at hq
    · rw [hqu port] at hq
      split at hq
      · rename_i hp
        obtain rfl : ⟨s.header, page⟩ = m := by simpa using hq
        have hsg : s.pc.stage = 4 := by rw [hpc]; rfl
        have hd : s.header.ipchdrDst = port := by
          have := hc.dst (by omega)
          rw [hpc] at this
          exact (Option.some.inj this).symm.trans hp.symm
        refine ⟨⟨hc.src (by omega), hd, ?_⟩, rfl⟩
        rcases hc.msg (by omega) with hm | hcov
        · exact .inl ⟨hm, hc.knock (by omega) hm⟩
        · exact .inr (hd ▸ hcov)
      · simp at hq

theorem exists_run_sendSteps {mem : Bool} {n : ℕ} :
    ∀ {h s}, Run (SendRaceStep current page) s₀ h s → sendSteps mem current page n s = .ok s' →
      ∃ h', Run (SendRaceStep current page) s₀ (h ++ h') s' ∧ ∀ x ∈ h', x.2 = .send ∧
        ∀ t p i, Holds x.1.ipc t p i → Holds s.ipc t p i := by
  induction n with
  | zero =>
    intro h s hr hn
    cases hn
    exact ⟨[], by rwa [append_nil], nofun⟩
  | succ n ih =>
    intro h s hr hn
    obtain ⟨s₁, hs, hn⟩ := bind_eq_ok.mp hn
    obtain ⟨h', hr', hh'⟩ := ih (hr.snoc (.send hs)) hn
    refine ⟨(s, .send) :: h', by simpa using hr', fun x hx => ?_⟩
    rcases mem_cons.mp hx with rfl | hx
    · exact ⟨rfl, fun _ _ _ hh => hh⟩
    · exact ⟨(hh' x hx).1, fun t p i hh => (sendStep_spec _ hs).2.1 t p i ((hh' x hx).2 t p i hh)⟩

def portOf (t : ℕ) : IpcPort ℕ := ⟨0, [], .put t ipcPortRightReceiveBit .empty⟩

def racePorts : IpcState ℕ :=
  (((⟨fun _ => none, 6⟩ : IpcState ℕ).setPort 3 (portOf 1)).setPort 4 (portOf 1)).setPort 5
    (portOf 2)

def raceHeader : IpcHeader := ⟨3, 4, ipcPortRightReceiveBit, ipcMsgNone, 0, 0⟩

theorem exists_run_written (user : IpcHeader) (hd : user.ipchdrDst = 4)
    (hm : user.ipchdrMsg = ipcMsgNone) :
    ∃ (h₁ h₂ : List (SendState ℕ × SendLabel)) (s₁ s₂ s₃ : SendState ℕ),
      Run (SendRaceStep 1 none) ⟨raceHeader, racePorts, .start⟩
        (h₁ ++ [(s₁, .write user)] ++ h₂) s₂ ∧
      s₁.pc = .checkDst ∧ s₁.user = raceHeader ∧ s₃.ipc.ipcPorts 5 = racePorts.ipcPorts 5 ∧
      SendRaceStep 1 none s₂ .send s₃ ∧ queueOf s₃.ipc 4 = queueOf s₂.ipc 4 ++ [⟨user, none⟩] ∧
      (∀ x ∈ h₁ ++ h₂, x.2 = .send) ∧
      ∀ x ∈ h₁ ++ [(s₁, .write user)] ++ h₂, ∀ t p i, Holds x.1.ipc t p i →
        Holds racePorts t p i := by
  obtain ⟨src, dst, right, msg, cookie, param⟩ := user
  subst hd hm
  obtain ⟨h₁, hr₁, hh₁⟩ := exists_run_sendSteps Run.nil
    (rfl : sendSteps true 1 none 2 ⟨raceHeader, racePorts, .start⟩ = .ok _)
  obtain ⟨h₂, hr₂, hh₂⟩ := exists_run_sendSteps
    (hr₁.snoc (.write : SendRaceStep 1 none _
      (.write ⟨src, 4, right, ipcMsgNone, cookie, param⟩) _))
    (rfl : sendSteps true 1 none 7 _ = .ok _)
  -- the check of the source port has written it back as it was
  have hb : ∀ {t p i}, Holds (racePorts.setPort 3 _) t p i → Holds racePorts t p i :=
    (Narrows.refl _).holds rfl
  refine ⟨h₁, h₂, _, _, _, hr₂, rfl, rfl, rfl, .send (rfl : sendStep true 1 none _ = .ok _), rfl,
    fun x hx => ?_, fun x hx t p i hh => ?_⟩
  · rcases mem_append.mp hx with hx | hx
    · exact (hh₁ x hx).1
    · exact (hh₂ x hx).1
  · rcases mem_append.mp hx with hx | hx
    · rcases mem_append.mp hx with hx | hx
      · exact (hh₁ x hx).2 t p i hh
      · cases mem_singleton.mp hx
        exact hb hh
    · exact hb ((hh₂ x hx).2 t p i hh)

/-- Writing the cookie between the check and the copy is harmless. -/
theorem sent_as_checked_cookie : ∃ (h : List (SendState ℕ × SendLabel)) (s : SendState ℕ),
      Run (SendRaceStep 1 none) ⟨raceHeader, racePorts, .start⟩ h s ∧
      SentAsChecked 1 none h 4 { raceHeader with ipchdrCookie := 7 } := by
  obtain ⟨h₁, h₂, s₁, s₂, s₃, hr, hpc, hu, -, hs, hq, ha, -⟩ :=
    exists_run_written { raceHeader with ipchdrCookie := 7 } rfl rfl
  refine ⟨_, s₂, hr, (sent_as_checked rfl hr ?_ hs hq).1⟩
  intro t user hm
  have hm' : (t, SendLabel.write user) ∈ h₁ ++ h₂ ∨
      (t, SendLabel.write user) = (s₁, .write { raceHeader with ipchdrCookie := 7 }) := by
    simpa [or_comm, or_left_comm] using hm
  rcases hm' with hm' | hm'
  · cases ha _ hm'
  · obtain ⟨rfl, he⟩ := Prod.mk.inj hm'
    cases he
    constructor <;> (intro _; simp [SendState.header, hpc, hu])

/-- **A forged source**: the sender rewrites the source port after the check. The message is
enqueued with a source port on which the sender never held a right, and its receiver, here the
sender itself, gets the receive right there. -/
theorem send_forged_source : (∃ h₀, Run IpcStep idleMachine h₀ ⟨racePorts, fun _ => none⟩) ∧
    ∃ (h : List (SendState ℕ × SendLabel)) (s s' : SendState ℕ) (m : IpcMessage) (ipc : IpcState ℕ),
      Run (SendRaceStep 1 none) ⟨raceHeader, racePorts, .start⟩ h s ∧
      SendRaceStep 1 none s .send s' ∧ queueOf s'.ipc 4 = queueOf s.ipc 4 ++ [m] ∧
      ¬ SentAsChecked 1 none h 4 m.ipcmsgHeader ∧
      (∀ x ∈ h, ¬ Holds x.1.ipc 1 5 receiveBit) ∧
      ipcPortAccept true 1 m s'.ipc = .ok ipc ∧ Holds ipc 1 5 receiveBit := by
  constructor
  · exact ⟨_, ((Run.nil.snoc (.allocate (rfl : ipcPortAllocate true 1 0 _ = .ok (_, .ok 3)))).snoc
      (.allocate (rfl : ipcPortAllocate true 1 0 _ = .ok (_, .ok 4)))).snoc
      (.allocate (rfl : ipcPortAllocate true 2 0 _ = .ok (_, .ok 5)))⟩
  · obtain ⟨h₁, h₂, s₁, s₂, s₃, hr, -, -, hf, hs, hq, -, hold⟩ :=
      exists_run_written { raceHeader with ipchdrSrc := 5 } rfl rfl
    have hno : ∀ x ∈ h₁ ++ [(s₁, .write { raceHeader with ipchdrSrc := 5 })] ++ h₂,
        ¬ Holds x.1.ipc 1 5 receiveBit := by
      intro x hx hh
      obtain ⟨ipcp, hp, hb⟩ := hold x hx _ _ _ hh
      cases hp
      cases hb
    have ha : ipcPortAccept true 1 ⟨{ raceHeader with ipchdrSrc := 5 }, none⟩ s₃.ipc =
        .ok (s₃.ipc.setPort 5
          ⟨0, [], .put 1 ipcPortRightReceiveBit (.put 2 ipcPortRightReceiveBit .empty)⟩) := by
      unfold ipcPortAccept
      rw [hf]
      rfl
    refine ⟨_, s₂, s₃, _, _, hr, hs, hq, fun hsn => ?_, hno, ha, ?_⟩
    · obtain ⟨x, hx, -, hhl⟩ := hsn.src
      exact hno x hx hhl
    · exact ⟨_, setPort_ipcPorts.trans (if_pos rfl), rfl⟩

end Glatt
