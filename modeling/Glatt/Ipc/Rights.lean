import Glatt.Ipc.Port

/-!
# Rights on ports

What each call of `ipc_port.c` does to the rights and to the queues of all ports. A right is a word
of bits; `Holds s t p i` says that the task `t` has the bit `i` on the port `p`.

## Main definitions

* `Holds`: a task has a right
* `IpcPort.Admits`: a port lets a message of a task pass

## Main results

* `ipcPortRightCheck_receive`: the check for the receive right, as a decision
* `ipcPortAllocate_spec`, `ipcPortRightGrant_spec`, `ipcPortRightSend_spec`,
  `ipcPortRightDrop_spec`, `ipcPortSendPage_spec`, `ipcPortDequeue_spec`, `ipcPortAccept_spec`:
  which bits a call can add or remove, and what it does to the queues
* `ipcPortSendPage_cases`, `ipcPortDequeue_cases`: what a send and the start of a receive can be
-/

namespace Glatt

open Imperative Option

variable {τ : Type} [LinearOrder τ] {i : ℕ} {p : UInt32} {t current task : τ} {mem : Bool}
  {ipch : IpcHeader} {page : Option UInt64}

/-! ## Bits -/

def sendBit : ℕ := 0

def sendOnceBit : ℕ := 1

def receiveBit : ℕ := 2

theorem and_ne_zero_iff_testBit (r b : UInt16) (hb : b.toNat = 2 ^ i) :
    r &&& b ≠ 0 ↔ r.toNat.testBit i = true := by
  rw [Ne, ← UInt16.toNat_inj, UInt16.toNat_and, hb, Nat.and_two_pow]
  cases r.toNat.testBit i <;> simp

variable {q : UInt16}

theorem testBit_and_not (r : UInt16) :
    (r &&& ~~~ q).toNat.testBit i = (r.toNat.testBit i && !q.toNat.testBit i) := by
  rw [← UInt16.toNat_toBitVec, ← UInt16.toNat_toBitVec, ← UInt16.toNat_toBitVec]
  simp only [BitVec.testBit_toNat]
  by_cases h : i < 16
  · simp [h]
  · simp [BitVec.getLsbD_of_ge r.toBitVec i (not_lt.mp h)]

/-! ## One port -/

def IpcPort.right (ipcp : IpcPort τ) (t : τ) : UInt16 := (ipcPortRightLookup ipcp t).getD 0

def IpcPort.HasRight (ipcp : IpcPort τ) (t : τ) (i : ℕ) : Prop :=
  (ipcp.right t).toNat.testBit i = true

instance (ipcp : IpcPort τ) (t : τ) (i : ℕ) : Decidable (ipcp.HasRight t i) :=
  inferInstanceAs (Decidable (_ = true))

/-- Two ports that differ at most in their rights, and the second has no right that the first does
not have. -/
structure Narrows (ipcp ipcp' : IpcPort τ) : Prop where
  flags : ipcp'.ipcpFlags = ipcp.ipcpFlags
  msgs : ipcp'.ipcpMsgs = ipcp.ipcpMsgs
  rights : ∀ t i, ipcp'.HasRight t i → ipcp.HasRight t i

section

variable (ipcp : IpcPort τ)
include ipcp

theorem Narrows.refl : Narrows ipcp ipcp := ⟨rfl, rfl, fun _ _ h => h⟩

theorem right_modifyRight (f : UInt16 → UInt16) : (ipcp.modifyRight task f).right t =
      if t = task then ((ipcPortRightLookup ipcp t).map f).getD 0 else ipcp.right t := by
  rw [IpcPort.right, ipcPortRightLookup, IpcPort.modifyRight, KeyedList.get_modify]
  split <;> rfl

omit ipcp in
theorem hasRight_of_lookup {ipcp : IpcPort τ} {task : τ} {r : UInt16}
    (hl : ipcPortRightLookup ipcp task = some r) (b : UInt16) (i : ℕ) (hb : b.toNat = 2 ^ i) :
    r &&& b ≠ 0 ↔ ipcp.HasRight task i := by
  rw [and_ne_zero_iff_testBit r b hb, IpcPort.HasRight, IpcPort.right, hl, getD_some]

theorem hasRight_mask (t : τ) (i : ℕ) : (ipcp.modifyRight task fun r => r &&& ~~~ q).HasRight t i ↔
      ipcp.HasRight t i ∧ ¬ (t = task ∧ q.toNat.testBit i = true) := by
  rw [IpcPort.HasRight, IpcPort.HasRight, right_modifyRight]
  by_cases ht : t = task
  · rw [if_pos ht, IpcPort.right]
    cases ipcPortRightLookup ipcp t with
    | none => simp
    | some r =>
      rw [map_some, getD_some, testBit_and_not]
      simp [ht]
  · simp [ht]

theorem narrows_mask : Narrows ipcp (ipcp.modifyRight task fun r => r &&& ~~~ q) :=
  ⟨rfl, rfl, fun t i h => ((hasRight_mask ipcp t i).mp h).1⟩

theorem ipcPortRightCheck_receive : ipcPortRightCheck ipcp task ipcPortRightReceiveBit =
      .ok (ipcp, decide (ipcp.HasRight task receiveBit)) := by
  have hp : ¬ ipcPortRightReceiveBit &&& ipcPortRightSendOnceBit ≠ 0 := by decide
  have hs : ipcPortRightReceiveBit ≠ ipcPortRightSendBit := by decide
  rw [ipcPortRightCheck, if_neg hp]
  cases hl : ipcPortRightLookup ipcp task with
  | none => simp [IpcPort.HasRight, IpcPort.right, hl, pure, Except.pure]
  | some r =>
    simp only [← hasRight_of_lookup hl ipcPortRightReceiveBit receiveBit rfl]
    by_cases hr : r &&& ipcPortRightReceiveBit ≠ 0
    · simp [hr, pure, Except.pure]
    · simp [hr, hs, pure, Except.pure]

theorem ipcPortRightCheck_send_eq : ipcPortRightCheck ipcp task ipcPortRightSendBit = .ok (
      if ipcp.HasRight task receiveBit ∨ ipcp.HasRight task sendBit then (ipcp, true)
      else if ipcp.HasRight task sendOnceBit then
        (ipcp.modifyRight task fun r => r &&& ~~~ ipcPortRightSendOnceBit, true)
      else (ipcp, false)) := by
  have hp : ¬ ipcPortRightSendBit &&& ipcPortRightSendOnceBit ≠ 0 := by decide
  rw [ipcPortRightCheck, if_neg hp]
  cases hl : ipcPortRightLookup ipcp task with
  | none => simp [IpcPort.HasRight, IpcPort.right, hl, pure, Except.pure]
  | some r =>
    simp only [← hasRight_of_lookup hl ipcPortRightReceiveBit receiveBit rfl,
      ← hasRight_of_lookup hl ipcPortRightSendBit sendBit rfl,
      ← hasRight_of_lookup hl ipcPortRightSendOnceBit sendOnceBit rfl]
    by_cases hr : r &&& ipcPortRightReceiveBit ≠ 0
    · simp [hr, pure, Except.pure]
    · by_cases hs : r &&& ipcPortRightSendBit ≠ 0
      · simp [hs, pure, Except.pure]
      · by_cases ho : r &&& ipcPortRightSendOnceBit ≠ 0
        · simp [hr, hs, ho, pure, Except.pure]
        · simp [hr, hs, ho, pure, Except.pure]

/-- **What lets a message pass** to the port at no cost: a knock, a public port, the receive right
or the send right. -/
def IpcPort.Admits (task : τ) (ipch : IpcHeader) : Prop :=
  ipch.ipchdrMsg = ipcMsgNone ∨ ipcp.ipcpFlags &&& ipcPortFlagPublic ≠ 0 ∨
    ipcp.HasRight task receiveBit ∨ ipcp.HasRight task sendBit

theorem ipcPortSendCheck_spec (current : τ) (ipch : IpcHeader) :
    Ensures (ipcPortSendCheck current ipch ipcp) fun p => Narrows ipcp p.1 ∧
      (p.2 = true ↔ ipcp.Admits current ipch ∨ ipcp.HasRight current sendOnceBit) ∧
      (p.1 = ipcp ∧ (p.2 = true → ipcp.Admits current ipch) ∨
        p.2 = true ∧ ¬ ipcp.Admits current ipch ∧
          p.1 = ipcp.modifyRight current fun r => r &&& ~~~ ipcPortRightSendOnceBit) := by
  rw [ipcPortSendCheck]
  split_ifs with hc
  · have ha : ipcp.Admits current ipch ↔
        ipcp.HasRight current receiveBit ∨ ipcp.HasRight current sendBit := by
      rw [IpcPort.Admits, or_iff_right hc.2, or_iff_right (not_not.mpr hc.1)]
    rw [ipcPortRightCheck_send_eq]
    refine ensures_ok.mpr ?_
    split_ifs with hs ho
    · have hf := ha.mpr hs
      exact ⟨Narrows.refl ipcp, iff_of_true rfl (.inl hf), .inl ⟨rfl, fun _ => hf⟩⟩
    · exact ⟨narrows_mask ipcp, iff_of_true rfl (.inr ho), .inr ⟨rfl, ha.not.mpr hs, rfl⟩⟩
    · refine ⟨Narrows.refl ipcp, iff_of_false (by simp) ?_, .inl ⟨rfl, nofun⟩⟩
      exact not_or.mpr ⟨ha.not.mpr hs, ho⟩
  · have hf : ipcp.Admits current ipch := by
      by_cases hn : ipch.ipchdrMsg = ipcMsgNone
      · exact .inl hn
      · exact .inr (.inl fun hp => hc ⟨hp, hn⟩)
    exact .ret ⟨Narrows.refl ipcp, iff_of_true rfl (.inl hf), .inl ⟨rfl, fun _ => hf⟩⟩

end

variable {right : UInt16}

theorem ipcPortRightInsert_spec (ipcp : IpcPort τ) :
    Guarded (mem = true) (ipcPortRightInsert mem ipcp task right) fun ipcp' =>
      ipcp'.ipcpMsgs = ipcp.ipcpMsgs ∧
      ∀ t i, ipcp'.HasRight t i ↔ ipcp.HasRight t i ∨ t = task ∧ right.toNat.testBit i = true ∧
        ¬ (right &&& ipcPortRightReceiveBit = 0 ∧ ipcp.ipcpFlags &&& ipcPortFlagPublic ≠ 0) := by
  rw [ipcPortRightInsert]
  split
  · rename_i hp
    exact guarded_pure ⟨rfl, fun t i => (or_iff_left fun h => h.2.2 hp).symm⟩
  rename_i hp
  split
  · rename_i r hl
    refine guarded_pure ⟨rfl, fun t i => ?_⟩
    rw [IpcPort.HasRight, IpcPort.HasRight, right_modifyRight]
    by_cases ht : t = task
    · simp [ht, IpcPort.right, hl, hp]
    · simp [ht]
  · rename_i hl
    split_ifs with hmem
    · refine guarded_pure ⟨rfl, fun t i => ?_⟩
      rw [IpcPort.HasRight, IpcPort.HasRight, IpcPort.right, IpcPort.right, ipcPortRightLookup,
        KeyedList.get_put]
      by_cases ht : t = task
      · simp [ht, hl, hp]
      · simp [ht, ipcPortRightLookup]
    · exact guarded_error hmem

/-! ## All ports -/

/-- The task `t` has the bit `i` on the registered port `p`. -/
def Holds (s : IpcState τ) (t : τ) (p : UInt32) (i : ℕ) : Prop :=
  ∃ ipcp, s.ipcPorts p = some ipcp ∧ ipcp.HasRight t i

def IsPublic (s : IpcState τ) (p : UInt32) : Prop :=
  ∃ ipcp, s.ipcPorts p = some ipcp ∧ ipcp.ipcpFlags &&& ipcPortFlagPublic ≠ 0

def queueOf (s : IpcState τ) (p : UInt32) : List IpcMessage :=
  ((s.ipcPorts p).map IpcPort.ipcpMsgs).getD []

variable {s : IpcState τ} {q : UInt32} {ipcp ipcp' : IpcPort τ}

@[simp] theorem setPort_ipcPorts :
    (s.setPort q ipcp).ipcPorts p = if p = q then some ipcp else s.ipcPorts p := by
  simp [IpcState.setPort, Function.update_apply]

theorem holds_setPort (h : Holds (s.setPort q ipcp) t p i) :
    Holds s t p i ∨ p = q ∧ ipcp.HasRight t i := by
  obtain ⟨x, hx, hi⟩ := h
  rw [setPort_ipcPorts] at hx
  split at hx
  · cases hx
    exact .inr ⟨‹_›, hi⟩
  · exact .inl ⟨x, hx, hi⟩

theorem queueOf_setPort :
    queueOf (s.setPort q ipcp) p = if p = q then ipcp.ipcpMsgs else queueOf s p := by
  rw [queueOf, setPort_ipcPorts]
  split <;> rfl

section

variable (hq : s.ipcPorts q = some ipcp)
include hq

theorem queueOf_eq : queueOf s q = ipcp.ipcpMsgs := by
  rw [queueOf, hq]
  rfl

theorem queueOf_setPort_of_msgs (hm : ipcp'.ipcpMsgs = ipcp.ipcpMsgs) (p : UInt32) :
    queueOf (s.setPort q ipcp') p = queueOf s p := by
  rw [queueOf_setPort]
  split
  · rw [‹p = q›, queueOf_eq hq, hm]
  · rfl

theorem Holds.of_setPort {C : Prop} (h : Holds (s.setPort q ipcp') t p i)
    (hb : ipcp'.HasRight t i → ipcp.HasRight t i ∨ C) :
    Holds s t p i ∨ p = q ∧ C := by
  rcases holds_setPort h with h' | ⟨rfl, h'⟩
  · exact .inl h'
  · exact (hb h').imp (fun h => ⟨ipcp, hq, h⟩) fun hC => ⟨rfl, hC⟩

theorem Narrows.holds (hn : Narrows ipcp ipcp')
    (h : Holds (s.setPort q ipcp') t p i) : Holds s t p i :=
  (h.of_setPort hq fun h => .inl (hn.rights t i h)).resolve_right And.right

theorem Holds.setPort (h : Holds s t p i) (hk : ipcp.HasRight t i → ipcp'.HasRight t i) :
    Holds (s.setPort q ipcp') t p i := by
  obtain ⟨x, hx, hi⟩ := h
  by_cases hp : p = q
  · subst hp
    obtain rfl : ipcp = x := some.inj (hq.symm.trans hx)
    exact ⟨ipcp', by simp, hk hi⟩
  · exact ⟨x, by simp [hp, hx], hi⟩

omit hq in
theorem holds_setPort_of_ne (hp : p ≠ q) : Holds (s.setPort q ipcp) t p i ↔ Holds s t p i := by
  simp only [Holds, setPort_ipcPorts, if_neg hp]

theorem exists_port_iff {P : IpcPort τ → Prop} : (∃ x, s.ipcPorts q = some x ∧ P x) ↔ P ipcp := by
  constructor
  · rintro ⟨x, hx, hi⟩
    obtain rfl : ipcp = x := some.inj (hq.symm.trans hx)
    exact hi
  · exact fun hi => ⟨ipcp, hq, hi⟩

theorem holds_iff_hasRight : Holds s t q i ↔ ipcp.HasRight t i := exists_port_iff hq

omit hq in
theorem holds_setPort_self : Holds (s.setPort q ipcp) t q i ↔ ipcp.HasRight t i :=
  exists_port_iff (by simp)

theorem isPublic_iff : IsPublic s q ↔ ipcp.ipcpFlags &&& ipcPortFlagPublic ≠ 0 := exists_port_iff hq

theorem setPort_eq_self : s.setPort q ipcp = s := by
  rw [IpcState.setPort, ← hq, Function.update_eq_self]

theorem holds_setPort_mask {t task : τ} {r : UInt16}
    (hm : ipcp'.HasRight t i ↔ ipcp.HasRight t i ∧ ¬ (t = task ∧ r.toNat.testBit i = true)) :
    Holds (s.setPort q ipcp') t p i ↔
      Holds s t p i ∧ ¬ (t = task ∧ p = q ∧ r.toNat.testBit i = true) := by
  by_cases hp : p = q
  · subst hp
    rw [holds_setPort_self, holds_iff_hasRight hq, hm]
    simp only [true_and]
  · rw [holds_setPort_of_ne hp]
    simp only [hp, false_and, and_false, not_false_eq_true, and_true]

end

/-! ## The calls -/

variable {port : UInt32}

theorem ipcPortRightDrop_spec : Yields (ipcPortRightDrop task port right s) fun p =>
      (∀ t q i, Holds p.1 t q i ↔
        Holds s t q i ∧ ¬ (t = task ∧ q = port ∧ right.toNat.testBit i = true)) ∧
      ∀ q, queueOf p.1 q = queueOf s q := by
  rw [ipcPortRightDrop]
  split
  · rename_i hn
    refine .ret ⟨fun t q i => (and_iff_left_of_imp ?_).symm, fun _ => rfl⟩
    rintro ⟨x, hx, -⟩ ⟨-, rfl, -⟩
    rw [hn] at hx
    cases hx
  · rename_i ipcp hp
    obtain ⟨hm, hb⟩ : (ipcPortRightRemove ipcp task right).1.ipcpMsgs = ipcp.ipcpMsgs ∧
        ∀ t i, (ipcPortRightRemove ipcp task right).1.HasRight t i ↔
          ipcp.HasRight t i ∧ ¬ (t = task ∧ right.toNat.testBit i = true) := by
      rw [ipcPortRightRemove]
      split
      -- a task without an entry has no bit
      · rename_i hl
        refine ⟨rfl, fun t i => (and_iff_left_of_imp ?_).symm⟩
        rintro hi ⟨rfl, -⟩
        simp [IpcPort.HasRight, IpcPort.right, hl] at hi
      · exact ⟨rfl, fun t i => hasRight_mask ipcp t i⟩
    exact .ret ⟨fun t q i => holds_setPort_mask hp (hb t i), queueOf_setPort_of_msgs hp hm⟩

theorem ipcPortRightGrant_spec (src : UInt32) :
    Yields (ipcPortRightGrant mem current task src right s) fun p =>
      (∀ t q i, Holds p.1 t q i → Holds s t q i ∨ t = task ∧ q = src ∧
        right.toNat.testBit i = true ∧ Holds s current src receiveBit ∧ p.2 = .ok ()) ∧
      (∀ t q i, Holds s t q i → Holds p.1 t q i) ∧ ∀ q, queueOf p.1 q = queueOf s q := by
  rw [ipcPortRightGrant]
  split
  · exact .ret ⟨fun _ _ _ h => .inl h, fun _ _ _ h => h, fun _ => rfl⟩
  rename_i ipcp hp
  rw [ipcPortRightCheck_receive, ok_bind]
  simp only [setPort_eq_self hp]
  by_cases hr : ipcp.HasRight current receiveBit
  · simp only [hr]
    refine (ipcPortRightInsert_spec ipcp).yields.bind ?_
    rintro ipcp' ⟨hm, hb⟩
    refine .ret ⟨fun t q i h => ?_, fun t q i h => h.setPort hp fun hi => (hb t i).mpr (.inl hi),
      queueOf_setPort_of_msgs hp hm⟩
    refine (h.of_setPort hp (hb t i).mp).imp_right ?_
    rintro ⟨rfl, rfl, h, -⟩
    exact ⟨rfl, rfl, h, ⟨ipcp, hp, hr⟩, rfl⟩
  · simp only [hr]
    exact .ret ⟨fun _ _ _ h => .inl h, fun _ _ _ h => h, fun _ => rfl⟩

theorem ipcPortRightSendAll_spec {rights : List (τ × UInt16)} (srcp : IpcPort τ) :
    Yields (ipcPortRightSendAll mem right rights srcp) fun srcp' =>
      srcp'.ipcpMsgs = srcp.ipcpMsgs ∧
      (∀ t i, srcp'.HasRight t i → srcp.HasRight t i ∨ right.toNat.testBit i = true ∧
        ∃ r, (t, r) ∈ rights ∧ r &&& ipcPortRightReceiveBit ≠ 0) ∧
      ∀ t i, srcp.HasRight t i → srcp'.HasRight t i := by
  induction rights generalizing srcp with
  | nil => exact .ret ⟨rfl, fun t i h => .inl h, fun t i h => h⟩
  | cons e rights ih =>
    obtain ⟨-, r⟩ := e
    rw [ipcPortRightSendAll]
    split
    · rename_i hrc
      refine (ipcPortRightInsert_spec srcp).yields.bind ?_
      rintro srcp₁ ⟨hm₁, hb₁⟩
      refine (ih srcp₁).mono ?_
      rintro srcp₂ ⟨hm₂, hb₂, hk₂⟩
      refine ⟨hm₂.trans hm₁, fun t i h => ?_, fun t i h => hk₂ t i ((hb₁ t i).mpr (.inl h))⟩
      rcases hb₂ t i h with h | ⟨h, r', hr', hrc'⟩
      · rcases (hb₁ t i).mp h with h | ⟨rfl, h, -⟩
        · exact .inl h
        · exact .inr ⟨h, r, List.mem_cons_self, hrc⟩
      · exact .inr ⟨h, r', List.mem_cons_of_mem _ hr', hrc'⟩
    · refine (ih srcp).mono ?_
      rintro srcp' ⟨hm, hb, hk⟩
      refine ⟨hm, fun t i h => (hb t i h).imp_right ?_, hk⟩
      rintro ⟨h, r', hr', hrc'⟩
      exact ⟨h, r', List.mem_cons_of_mem _ hr', hrc'⟩

theorem ipcPortRightSend_spec (dst src : UInt32) :
    Yields (ipcPortRightSend mem current dst src right s) fun p =>
      (∀ t q i, Holds p.1 t q i → Holds s t q i ∨ q = src ∧ right.toNat.testBit i = true ∧
        Holds s current src receiveBit ∧ Holds s t dst receiveBit ∧ p.2 = .ok ()) ∧
      (∀ t q i, Holds s t q i → Holds p.1 t q i) ∧ ∀ q, queueOf p.1 q = queueOf s q := by
  rw [ipcPortRightSend]
  split
  · exact .ret ⟨fun _ _ _ h => .inl h, fun _ _ _ h => h, fun _ => rfl⟩
  rename_i srcp hp
  rw [ipcPortRightCheck_receive, ok_bind]
  simp only [setPort_eq_self hp]
  by_cases hrc : srcp.HasRight current receiveBit
  · simp only [hrc, decide_true, if_true]
    split
    · exact .ret ⟨fun _ _ _ h => .inl h, fun _ _ _ h => h, fun _ => rfl⟩
    split
    · exact yields_error
    rename_i dstp hd _
    refine (ipcPortRightSendAll_spec srcp).bind ?_
    rintro srcp' ⟨hm, hbt, hk⟩
    refine .ret ⟨fun t q i h => ?_, fun t q i h => h.setPort hp (hk t i),
      queueOf_setPort_of_msgs hp hm⟩
    refine (h.of_setPort hp (hbt t i)).imp_right ?_
    rintro ⟨rfl, h, r, hr, hb⟩
    refine ⟨rfl, h, ⟨srcp, hp, hrc⟩, ⟨dstp, hd, ?_⟩, rfl⟩
    rw [IpcPort.HasRight, IpcPort.right, ipcPortRightLookup, KeyedList.get_eq_some_iff.mpr hr]
    exact (and_ne_zero_iff_testBit r _ rfl).mp hb
  · simp only [hrc]
    exact .ret ⟨fun _ _ _ h => .inl h, fun _ _ _ h => h, fun _ => rfl⟩

theorem testBit_receive (h : ipcPortRightReceiveBit.toNat.testBit i = true) : i = receiveBit := by
  rw [show ipcPortRightReceiveBit.toNat = 2 ^ receiveBit from rfl, Nat.testBit_two_pow] at h
  exact (of_decide_eq_true h).symm

theorem ipcPortAlloc_spec : Yields (ipcPortAlloc mem task) fun ipcp => ipcp.ipcpMsgs = [] ∧
      ∀ t i, ipcp.HasRight t i → t = task ∧ i = receiveBit := by
  rw [ipcPortAlloc]
  split
  · refine (ipcPortRightInsert_spec _).yields.mono ?_
    rintro ipcp ⟨hm, hb⟩
    refine ⟨hm, fun t i h => ?_⟩
    rcases (hb t i).mp h with h' | ⟨rfl, h', -⟩
    · simp [IpcPort.HasRight, IpcPort.right, ipcPortRightLookup] at h'
    · exact ⟨rfl, testBit_receive h'⟩
  · exact yields_error

theorem ipcPortNumber_spec :
    Yields (ipcPortNumber s) fun p => s.ipcPorts p.1 = none ∧ ipcPortUnreservedStart ≤ p.1 := by
  intro p hp
  refine loop_induction (P := fun p => s.ipcPorts p.1 = none ∧ ipcPortUnreservedStart ≤ p.1)
    (fun _ _ _ _ => trivial) ?_ trivial hp
  intro next r _ hr
  split at hr
  · cases hr
  · rename_i hl
    split at hr
    · cases hr
    · cases hr
      exact ⟨‹_›, UInt32.not_lt.mp hl⟩

theorem ipcPortNumber_returns {s : IpcState τ} (hp : ipcPortUnreservedStart ≤ p)
    (hf : s.ipcPorts p = none) :
    Ensures (ipcPortNumber s) fun r => s.ipcPorts r.1 = none ∧ ipcPortUnreservedStart ≤ r.1 := by
  refine Ensures.and (P := fun _ => True) ?_ ipcPortNumber_spec |>.mono fun _ h => h.2
  -- the counter comes closer to the number, from below or around the end
  refine Ensures.loop (I := fun n next => n = (p - next).toNat) ?_ rfl ?_
  · rintro n next rfl
    rw [UInt32.le_iff_toNat_le] at hp
    split
    · rename_i hl
      refine .ret ⟨_, ?_, rfl⟩
      rw [UInt32.lt_iff_toNat_lt] at hl
      rw [UInt32.toNat_sub_of_le _ _ (UInt32.le_iff_toNat_le.mpr hp),
        UInt32.toNat_sub_of_le _ _ (UInt32.le_iff_toNat_le.mpr (by omega))]
      omega
    · split
      · rename_i ipcp hu
        refine .ret ⟨_, ?_, rfl⟩
        have hpos : 1 ≤ (p - next).toNat := by
          refine Nat.one_le_iff_ne_zero.mpr fun hz => ?_
          rw [sub_eq_zero.mp (UInt32.toNat_inj.mp hz), hu] at hf
          cases hf
        have hle : 1 ≤ p - next := UInt32.le_iff_toNat_le.mpr hpos
        rw [← sub_sub, UInt32.toNat_sub_of_le _ _ hle]
        exact Nat.sub_lt hpos Nat.one_pos
      · exact .ret trivial
  · have := (p - s.ipcPortNext).toNat_lt
    omega

theorem ipcPortAllocate_spec (mem : Bool) (task : τ) (flags : UInt32) (s : IpcState τ) :
    Yields (ipcPortAllocate mem task flags s) fun p =>
      (∀ t q i, Holds p.1 t q i → Holds s t q i ∨ t = task ∧ p.2 = .ok q ∧ i = receiveBit) ∧
      (∀ t q i, Holds s t q i → Holds p.1 t q i) ∧ (∀ q, queueOf p.1 q = queueOf s q) ∧
      ∀ q, p.2 = .ok q → s.ipcPorts q = none := by
  rw [ipcPortAllocate]
  refine ipcPortAlloc_spec.bind ?_
  rintro ipcp ⟨hm, hb⟩
  refine ipcPortNumber_spec.bind ?_
  rintro ⟨port, next⟩ ⟨hf, -⟩
  simp only [ipcPortRegister, hf]
  refine .ret ⟨fun t q i h => ?_, ?_, fun q => ?_, ?_⟩
  · rcases holds_setPort h with h' | ⟨rfl, h'⟩
    · exact .inl h'
    · obtain ⟨rfl, rfl⟩ := hb t i h'
      exact .inr ⟨rfl, rfl, rfl⟩
  -- the number was free, so the port of any right is another one
  · rintro t q i ⟨x, hx, hi⟩
    have hq : q ≠ port := by
      rintro rfl
      rw [hf] at hx
      cases hx
    exact (holds_setPort_of_ne hq).mpr ⟨x, hx, hi⟩
  · rw [queueOf_setPort]
    split
    · rw [‹q = port›, hm, queueOf, hf]
      rfl
    · rfl
  · rintro _ ⟨⟩
    exact hf

theorem ipcPortSendPage_cases (current : τ) :
    Guarded (mem = true) (ipcPortSendPage mem current ipch page s) fun p =>
      (p.1 = s ∧ (∃ e, p.2 = .error e ∧
          (e = .noRight → ¬ Holds s current ipch.ipchdrSrc receiveBit)) ∧
        ¬ ((ipch.ipchdrMsg = ipcMsgNone → page = none) ∧
          Holds s current ipch.ipchdrSrc receiveBit ∧ s.ipcPorts ipch.ipchdrDst ≠ none)) ∨
      (ipch.ipchdrMsg = ipcMsgNone → page = none) ∧ Holds s current ipch.ipchdrSrc receiveBit ∧
      ∃ dstp dstp' ok, s.ipcPorts ipch.ipchdrDst = some dstp ∧
        ipcPortSendCheck current ipch dstp = .ok (dstp', ok) ∧
        ((ok = true ∧ p.2 = .ok () ∧ p.1 = s.setPort ipch.ipchdrDst
            { dstp' with ipcpMsgs := dstp'.ipcpMsgs ++ [⟨ipch, page⟩] }) ∨
          (ok = false ∧ p.2 = .error .noRight ∧ p.1 = s.setPort ipch.ipchdrDst dstp')) := by
  rw [ipcPortSendPage]
  split
  · rename_i ht
    exact guarded_pure (.inl ⟨rfl, ⟨_, rfl, nofun⟩, fun h => ht.2 (h.1 ht.1)⟩)
  rename_i ht
  replace ht : ipch.ipchdrMsg = ipcMsgNone → page = none :=
    fun hm => not_not.mp fun hp => ht ⟨hm, hp⟩
  split
  · rename_i hn
    refine guarded_pure (.inl ⟨rfl, ⟨_, rfl, nofun⟩, ?_⟩)
    rintro ⟨-, ⟨x, hx, -⟩, -⟩
    rw [hn] at hx
    cases hx
  rename_i srcp hs
  rw [ipcPortRightCheck_receive, ok_bind]
  simp only [setPort_eq_self hs]
  by_cases hr : srcp.HasRight current receiveBit
  · simp only [hr, decide_true, if_true]
    split
    · rename_i hn
      exact guarded_pure (.inl ⟨rfl, ⟨_, rfl, nofun⟩, fun h => h.2.2 hn⟩)
    rename_i dstp hd
    obtain ⟨⟨dstp', ok⟩, hc, -⟩ := ipcPortSendCheck_spec dstp current ipch
    simp only [ipcPortEnqueue, hc]
    cases ok with
    | false =>
      exact guarded_pure (.inr ⟨ht, ⟨srcp, hs, hr⟩, dstp, dstp', _, hd, hc, .inr ⟨rfl, rfl, rfl⟩⟩)
    | true =>
      cases mem with
      | false => exact guarded_error Bool.false_ne_true
      | true =>
        exact guarded_pure (.inr ⟨ht, ⟨srcp, hs, hr⟩, dstp, dstp', _, hd, hc, .inl ⟨rfl, rfl, rfl⟩⟩)
  · have hnot : ¬ Holds s current ipch.ipchdrSrc receiveBit :=
      fun h => hr ((holds_iff_hasRight hs).mp h)
    simp only [hr]
    exact guarded_pure (.inl ⟨rfl, ⟨_, rfl, fun _ => hnot⟩, fun h => hnot h.2.1⟩)

theorem ipcPortSendPage_spec : Yields (ipcPortSendPage mem current ipch page s) fun p =>
      (∀ t q i, Holds p.1 t q i → Holds s t q i) ∧
      (p.2 = .ok () → Holds s current ipch.ipchdrSrc receiveBit) ∧
      ∀ q, queueOf p.1 q = if p.2 = .ok () ∧ q = ipch.ipchdrDst
        then queueOf s q ++ [⟨ipch, page⟩] else queueOf s q := by
  refine (ipcPortSendPage_cases current).yields.mono ?_
  rintro ⟨s', r⟩ (⟨rfl, ⟨e, rfl, -⟩, -⟩ | ⟨-, hs, dstp, dstp', ok, hd, hc, hend⟩)
  · exact ⟨fun _ _ _ h => h, nofun, fun q => by simp⟩
  have hn : Narrows dstp dstp' := ((ipcPortSendCheck_spec dstp current ipch).yields _ hc).1
  rcases hend with ⟨-, rfl, rfl⟩ | ⟨-, rfl, rfl⟩
  · refine ⟨fun t q i h => ?_, fun _ => hs, fun q => ?_⟩
    · exact (h.of_setPort hd fun h => .inl (hn.rights t i h)).resolve_right And.right
    · rw [queueOf_setPort]
      by_cases hq : q = ipch.ipchdrDst
      · simp [hq, queueOf_eq hd, hn.msgs]
      · simp [hq]
  · refine ⟨fun t q i h => hn.holds hd h, nofun, fun q => ?_⟩
    rw [queueOf_setPort_of_msgs hd hn.msgs]
    simp

theorem ipcPortSendPage_ok_iff : Yields (ipcPortSendPage mem current ipch page s) fun p =>
      p.2 = .ok () ↔ (ipch.ipchdrMsg = ipcMsgNone → page = none) ∧
        Holds s current ipch.ipchdrSrc receiveBit ∧ ∃ dstp, s.ipcPorts ipch.ipchdrDst = some dstp ∧
          (dstp.Admits current ipch ∨ dstp.HasRight current sendOnceBit) := by
  refine (ipcPortSendPage_cases current).yields.mono ?_
  rintro ⟨s', r⟩ (⟨-, ⟨e, rfl, -⟩, hn⟩ | ⟨ht, hs, dstp, dstp', ok, hd, hc, hend⟩)
  · refine iff_of_false nofun fun ⟨ht, hs, dstp, hd, _⟩ => ?_
    exact hn ⟨ht, hs, hd ▸ some_ne_none dstp⟩
  have ho := ((ipcPortSendCheck_spec dstp current ipch).yields _ hc).2.1
  rcases hend with ⟨rfl, rfl, -⟩ | ⟨rfl, rfl, -⟩
  · exact iff_of_true rfl ⟨ht, hs, dstp, hd, ho.mp rfl⟩
  · refine iff_of_false nofun ?_
    rintro ⟨-, -, _, hd', hp⟩
    obtain rfl := some.inj (hd.symm.trans hd')
    cases ho.mpr hp

theorem ipcPortDequeue_cases (current : τ) :
    ((∃ e, ipcPortDequeue current port s = .ok (s, .error e)) ∧
      (Holds s current port receiveBit → queueOf s port = [])) ∨
    ∃ ipcp m msgs, s.ipcPorts port = some ipcp ∧ ipcp.ipcpMsgs = m :: msgs ∧
      Holds s current port receiveBit ∧ ipcPortDequeue current port s =
        .ok (s.setPort port { ipcp with ipcpMsgs := msgs }, .ok m) := by
  rw [ipcPortDequeue]
  cases hp : s.ipcPorts port with
  | none =>
    refine .inl ⟨⟨_, rfl⟩, fun _ => ?_⟩
    rw [queueOf, hp]
    rfl
  | some ipcp =>
    simp only [ipcPortRightCheck_receive, ok_bind, setPort_eq_self hp]
    by_cases hr : ipcp.HasRight current receiveBit
    · rw [if_pos (decide_eq_true hr)]
      cases hm : ipcp.ipcpMsgs with
      | nil =>
        refine .inl ⟨⟨_, rfl⟩, fun _ => ?_⟩
        rw [queueOf, hp]
        exact hm
      | cons m msgs => exact .inr ⟨ipcp, m, msgs, rfl, hm, ⟨ipcp, hp, hr⟩, rfl⟩
    · rw [if_neg (by simpa using hr)]
      exact .inl ⟨⟨_, rfl⟩, fun h => absurd ((holds_iff_hasRight hp).mp h) hr⟩

theorem ipcPortDequeue_spec : Yields (ipcPortDequeue current port s) fun p =>
      (∀ t q i, Holds p.1 t q i ↔ Holds s t q i) ∧
      (∀ m, p.2 = .ok m → Holds s current port receiveBit ∧
        queueOf s port = m :: queueOf p.1 port) ∧
      ∀ q, (q ≠ port ∨ ∃ e, p.2 = .error e) → queueOf p.1 q = queueOf s q := by
  intro p hp
  rcases ipcPortDequeue_cases current with ⟨⟨e, hc⟩, -⟩ | ⟨ipcp, m, msgs, hpr, hm, hr, hc⟩
  · obtain rfl := Except.ok.inj (hp.symm.trans hc)
    exact ⟨fun _ _ _ => Iff.rfl, nofun, fun _ _ => rfl⟩
  · obtain rfl := Except.ok.inj (hp.symm.trans hc)
    refine ⟨fun t q i => ⟨fun h => ?_, fun h => h.setPort hpr id⟩, ?_, ?_⟩
    · exact (h.of_setPort hpr .inl).resolve_right And.right
    · rintro _ ⟨⟩
      exact ⟨hr, by rw [queueOf_eq hpr, hm, queueOf_setPort, if_pos rfl]⟩
    · rintro q (hq | ⟨e, he⟩)
      · rw [queueOf_setPort, if_neg hq]
      · cases he

theorem ipcPortAccept_spec (m : IpcMessage) : Yields (ipcPortAccept mem current m s) fun s' =>
      (∀ t q i, Holds s' t q i → Holds s t q i ∨ t = current ∧ q = m.ipcmsgHeader.ipchdrSrc ∧
        m.ipcmsgHeader.ipchdrRight.toNat.testBit i = true) ∧
      (∀ t q i, Holds s t q i → Holds s' t q i) ∧
      (¬ IsPublic s m.ipcmsgHeader.ipchdrSrc →
        ∀ i, m.ipcmsgHeader.ipchdrRight.toNat.testBit i = true →
          Holds s' current m.ipcmsgHeader.ipchdrSrc i) ∧
      ∀ q, queueOf s' q = queueOf s q := by
  rw [ipcPortAccept]
  split
  · split
    · exact yields_error
    rename_i ipcp hp
    refine (ipcPortRightInsert_spec ipcp).yields.bind ?_
    rintro ipcp' ⟨hm, hb⟩
    refine .ret ⟨fun t q i h => ?_,
      fun t q i h => h.setPort hp fun hi => (hb t i).mpr (.inl hi), fun hpub i hi => ?_,
      queueOf_setPort_of_msgs hp hm⟩
    · refine (h.of_setPort hp (hb t i).mp).imp_right ?_
      rintro ⟨rfl, rfl, h, -⟩
      exact ⟨rfl, rfl, h⟩
    · rw [isPublic_iff hp] at hpub
      exact holds_setPort_self.mpr ((hb current i).mpr (.inr ⟨rfl, hi, fun h => hpub h.2⟩))
  · rename_i hn
    refine .ret ⟨fun _ _ _ h => .inl h, fun _ _ _ h => h, fun _ i hi => ?_, fun _ => rfl⟩
    rw [not_not.mp hn, ipcPortRightNone] at hi
    simp at hi

end Glatt
