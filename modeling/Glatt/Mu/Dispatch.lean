import Glatt.Lib.Outcome
import Glatt.Lib.Transition

/-!
# Replies to the messages of a dispatch

`libmu/ipc_dispatch.c`: a message is sent with the cookie of a handler, and a reply that has the
cookie goes to the handler. Handlers are numbered from 0, which is also the cookie of a message
without a handler, and of one with the default handler.

## Main definitions

* `IpcDispatch`, `DispatchStep`: a program that sends and gets replies
* `Routed`: each reply goes to the handler of its message

## Main results

* `replies_routed_iff`: replies are routed unless one for the default handler meets another handler
-/

namespace Glatt

open Imperative Transition List

variable {κ : Type}

/-- `struct ipc_dispatch_handler`, in a page of the task that `malloc` has returned. -/
structure DispatchHandler (κ : Type) where
  page : ℕ
  idhCookie : UInt32
  idhCallback : κ

/-- `struct ipc_dispatch`. -/
structure IpcDispatch (κ : Type) where
  idCookieNext : UInt32
  idHandlers : List (DispatchHandler κ)
  idDefault : Option (DispatchHandler κ)

def ipcDispatchAllocate : IpcDispatch κ := ⟨0, [], none⟩

def ipcDispatchRegister (page : ℕ) (cb : κ) (id : IpcDispatch κ) : IpcDispatch κ :=
  { id with
    idCookieNext := id.idCookieNext + 1
    idHandlers := ⟨page, id.idCookieNext, cb⟩ :: id.idHandlers }

def ipcDispatchRegisterDefault (page : ℕ) (cb : κ) (id : IpcDispatch κ) : Outcome (IpcDispatch κ) :=
  if id.idDefault.isSome then .error .panic
  else pure { id with idDefault := some ⟨page, 0, cb⟩ }

def ipcDispatchCookie : Option (DispatchHandler κ) → UInt64
  | none => 0
  | some idh => idh.idhCookie.toUInt64

/-- `ipc_dispatch_message`: the handler that gets the message; without one it is dropped. -/
def ipcDispatchMessage (id : IpcDispatch κ) (cookie : UInt64) : Option (DispatchHandler κ) :=
  (id.idHandlers.find? fun idh => idh.idhCookie.toUInt64 = cookie).or id.idDefault

/-- A dispatch, and the handlers that messages have been sent with. -/
structure DispatchMachine (κ : Type) where
  id : IpcDispatch κ
  sent : List (Option (DispatchHandler κ))

/-- A call, or a reply to a message that was sent with `idh`. -/
inductive DispatchEvent (κ : Type)
  | register (page : ℕ) (cb : κ)
  | registerDefault (page : ℕ) (cb : κ)
  | send (idh : Option (DispatchHandler κ))
  | reply (idh : Option (DispatchHandler κ))

def IpcDispatch.Fresh (id : IpcDispatch κ) (page : ℕ) : Prop :=
  page < 2 ^ 27 ∧ ∀ h, h ∈ id.idHandlers ∨ id.idDefault = some h → h.page ≠ page

/-- A message is sent with a handler that is registered, or with none. -/
inductive DispatchStep : DispatchMachine κ → DispatchEvent κ → DispatchMachine κ → Prop
  | register {s : DispatchMachine κ} {page : ℕ} {cb : κ} : s.id.Fresh page →
      DispatchStep s (.register page cb) { s with id := ipcDispatchRegister page cb s.id }
  | registerDefault {s : DispatchMachine κ} {page : ℕ} {cb : κ} {id : IpcDispatch κ} :
      s.id.Fresh page → ipcDispatchRegisterDefault page cb s.id = .ok id →
      DispatchStep s (.registerDefault page cb) { s with id := id }
  | send {s : DispatchMachine κ} {idh : Option (DispatchHandler κ)} :
      (∀ h, idh = some h → h ∈ s.id.idHandlers ∨ s.id.idDefault = some h) →
      DispatchStep s (.send idh) { s with sent := idh :: s.sent }
  | reply {s : DispatchMachine κ} {idh : Option (DispatchHandler κ)} : idh ∈ s.sent →
      DispatchStep s (.reply idh) s

def IpcDispatch.ToDefault (id : IpcDispatch κ) (idh : Option (DispatchHandler κ)) : Prop :=
  ∀ h, idh = some h → id.idDefault = some h

/-- **The reply to a message** that was sent with `idh` goes to that handler, or to the default. -/
def Routed (id : IpcDispatch κ) (idh : Option (DispatchHandler κ)) : Prop :=
  (id.ToDefault idh → ipcDispatchMessage id (ipcDispatchCookie idh) = id.idDefault) ∧
    (¬ id.ToDefault idh → ipcDispatchMessage id (ipcDispatchCookie idh) = idh)

/-- **What every step keeps.** Each handler has a page of its own, so cookies do not wrap. -/
structure DispatchInv (s : DispatchMachine κ) : Prop where
  pages : (s.id.idHandlers.map (·.page)).Nodup
  bound : ∀ h ∈ s.id.idHandlers, h.page < 2 ^ 27
  next : s.id.idCookieNext.toNat = s.id.idHandlers.length
  cookies : s.id.idHandlers.map (·.idhCookie.toNat) = (range s.id.idHandlers.length).reverse
  default : ∀ h, s.id.idDefault = some h →
    h.idhCookie = 0 ∧ ∀ h' ∈ s.id.idHandlers, h'.page ≠ h.page
  sent : ∀ h, some h ∈ s.sent → h ∈ s.id.idHandlers ∨ s.id.idDefault = some h

variable {s s' : DispatchMachine κ} {idh : Option (DispatchHandler κ)}

theorem exists_handler {l : List (DispatchHandler κ)} {d : DispatchHandler κ} {cookie : UInt64}
    (hd : d ∈ l) (heq : d.idhCookie.toUInt64 = cookie) :
    ∃ y ∈ l, y.idhCookie.toUInt64 = cookie ∧
      l.find? (fun idh => idh.idhCookie.toUInt64 = cookie) = some y := by
  have hs : (l.find? (fun idh => idh.idhCookie.toUInt64 = cookie)).isSome :=
    find?_isSome.mpr ⟨d, hd, decide_eq_true heq⟩
  obtain ⟨y, hy⟩ := Option.isSome_iff_exists.mp hs
  exact ⟨y, mem_of_find?_eq_some hy, by simpa using find?_some hy, hy⟩

section

variable (h : DispatchInv s)
include h

theorem DispatchInv.length_le : s.id.idHandlers.length ≤ 2 ^ 27 := by
  have hs : s.id.idHandlers.map (·.page) ⊆ range (2 ^ 27) := by
    intro p hp
    obtain ⟨idh, hidh, rfl⟩ := mem_map.mp hp
    exact mem_range.mpr (h.bound idh hidh)
  simpa using (h.pages.subperm hs).length_le

theorem DispatchInv.step {e : DispatchEvent κ} (hs : DispatchStep s e s') : DispatchInv s' := by
  cases hs with
  | register hf =>
    obtain ⟨hpg, ho⟩ := hf
    have hlen := h.length_le
    refine ⟨nodup_cons.mpr ⟨fun hmem => ?_, h.pages⟩, forall_mem_cons.mpr ⟨hpg, h.bound⟩,
      ?_, ?_, fun d hd => ?_, fun d hd => ?_⟩
    · obtain ⟨idh, hidh, hp⟩ := mem_map.mp hmem
      exact ho idh (.inl hidh) hp
    · show (s.id.idCookieNext + 1).toNat = s.id.idHandlers.length + 1
      rw [UInt32.toNat_add, h.next, UInt32.toNat_one]
      exact Nat.mod_eq_of_lt (by omega)
    · show s.id.idCookieNext.toNat :: s.id.idHandlers.map _ = (range (_ + 1)).reverse
      rw [h.cookies, h.next, range_succ, reverse_append]
      rfl
    · obtain ⟨hz, hd'⟩ := h.default d hd
      exact ⟨hz, forall_mem_cons.mpr ⟨fun hp => ho d (.inr hd) hp.symm, hd'⟩⟩
    · exact (h.sent d hd).imp_left (mem_cons_of_mem _)
  | registerDefault hf hrun =>
    rw [ipcDispatchRegisterDefault] at hrun
    split_ifs at hrun with hsm
    cases hrun
    refine ⟨h.pages, h.bound, h.next, h.cookies, ?_, fun d hd => .inl ?_⟩
    · rintro _ ⟨⟩
      exact ⟨rfl, fun h' hmem => hf.2 h' (.inl hmem)⟩
    · refine (h.sent d hd).resolve_right fun hd => hsm ?_
      rw [hd]
      rfl
  | send hidh =>
    refine ⟨h.pages, h.bound, h.next, h.cookies, h.default, fun d hd => ?_⟩
    rcases mem_cons.mp hd with hd | hd
    · exact hidh d hd.symm
    · exact h.sent d hd
  | reply => exact h

theorem DispatchInv.eq_of_cookie {d d' : DispatchHandler κ} (hd : d ∈ s.id.idHandlers)
    (hd' : d' ∈ s.id.idHandlers) (heq : d.idhCookie.toUInt64 = d'.idhCookie.toUInt64) : d = d' := by
  refine inj_on_of_nodup_map (f := (·.idhCookie.toNat)) ?_ hd hd' ?_
  · rw [h.cookies]
    exact nodup_reverse.mpr nodup_range
  · simpa using congrArg UInt64.toNat heq

theorem DispatchInv.routed_iff (hs : idh ∈ s.sent) :
    Routed s.id idh ↔ (s.id.ToDefault idh → s.id.idHandlers = []) := by
  constructor
  · intro hr hdef
    by_contra hne
    have hc : ipcDispatchCookie idh = 0 := by
      cases idh with
      | none => rfl
      | some d => rw [ipcDispatchCookie, (h.default d (hdef d rfl)).1]; rfl
    have hfr : 0 ∈ s.id.idHandlers.map (·.idhCookie.toNat) := by
      rw [h.cookies]
      simpa [length_pos_iff] using hne
    obtain ⟨h₀, hmem, hz⟩ := mem_map.mp hfr
    have hm : h₀.idhCookie.toUInt64 = ipcDispatchCookie idh := by
      rw [hc, show h₀.idhCookie = 0 from UInt32.toNat_inj.mp hz]
      rfl
    obtain ⟨y, hy, -, hf⟩ := exists_handler hmem hm
    have ht := hr.1 hdef
    rw [ipcDispatchMessage, hf, Option.some_or] at ht
    exact (h.default y ht.symm).2 y hy rfl
  · intro hdf
    refine ⟨fun hdef => ?_, fun hn => ?_⟩
    · rw [ipcDispatchMessage, hdf hdef]
      rfl
    · cases idh with
      | none => exact absurd (fun _ => nofun) hn
      | some d =>
        have hd := (h.sent d hs).resolve_right fun hd => hn fun _ heq => heq ▸ hd
        obtain ⟨y, hy, hc, hf⟩ := exists_handler hd rfl
        rw [ipcDispatchMessage, ipcDispatchCookie, hf, Option.some_or, h.eq_of_cookie hy hd hc]

end

theorem dispatchInv_run {h : List (DispatchMachine κ × DispatchEvent κ)}
    (hr : Run DispatchStep ⟨ipcDispatchAllocate, []⟩ h s) : DispatchInv s := by
  induction hr with
  | nil => exact ⟨nodup_nil, forall_mem_nil _, rfl, rfl, fun _ => nofun, fun _ => nofun⟩
  | snoc _ hs ih => exact ih.step hs

/-- **Replies reach the handler their message was sent with**, as long as none that is for the
default handler comes to a dispatch with another handler. -/
theorem replies_routed_iff {h : List (DispatchMachine κ × DispatchEvent κ)}
    (hr : Run DispatchStep ⟨ipcDispatchAllocate, []⟩ h s) :
    (∀ t idh, (t, .reply idh) ∈ h → Routed t.id idh) ↔
      ∀ t idh, (t, .reply idh) ∈ h → t.id.ToDefault idh → t.id.idHandlers = [] := by
  refine forall₃_congr fun t idh hmem => ?_
  obtain ⟨h₁, -, t', -, hr₁, hs⟩ := hr.step_of_mem hmem
  cases hs with
  | reply hsn => exact (dispatchInv_run hr₁).routed_iff hsn

def oneHandler (d : Option (DispatchHandler Unit)) (sent : List (Option (DispatchHandler Unit))) :
    DispatchMachine Unit :=
  ⟨⟨1, [⟨1, 0, ()⟩], d⟩, sent⟩

theorem oneHandler_run : Run DispatchStep ⟨ipcDispatchAllocate, []⟩
    [(⟨ipcDispatchAllocate, []⟩, .register 1 ())] (oneHandler none []) :=
  .snoc .nil (.register ⟨by decide, by rintro h (⟨⟨⟩⟩ | ⟨⟨⟩⟩)⟩)

theorem oneHandler_send (d idh : Option (DispatchHandler Unit))
    (hidh : ∀ h, idh = some h → h = ⟨1, 0, ()⟩) :
    Run DispatchStep (oneHandler d []) [(oneHandler d [], .send idh),
      (oneHandler d [idh], .reply idh)] (oneHandler d [idh]) :=
  (Run.nil.snoc (.send fun h hh => .inl (mem_singleton.mpr (hidh h hh)))).snoc (.reply (.head _))

theorem replies_routed_iff_one :
    Routed (oneHandler none [some ⟨1, 0, ()⟩]).id (some ⟨1, 0, ()⟩) := by
  have hr := oneHandler_run.append (oneHandler_send none (some ⟨1, 0, ()⟩)
    fun _ hh => (Option.some.inj hh).symm)
  refine (replies_routed_iff hr).mpr ?_ _ _ (.tail _ (.tail _ (.head _)))
  intro t idh hmem hd
  obtain ⟨rfl, rfl⟩ : t = oneHandler none [some ⟨1, 0, ()⟩] ∧ idh = some ⟨1, 0, ()⟩ := by
    simpa using hmem
  cases hd _ rfl

/-- The reply to a message without a handler goes to the handler, with a default registered. -/
theorem reply_misses_default : ∃ (h : List (DispatchMachine Unit × DispatchEvent Unit)) (s t : _),
    Run DispatchStep ⟨ipcDispatchAllocate, []⟩ h s ∧ (t, .reply none) ∈ h ∧ ¬ Routed t.id none := by
  have hf : (oneHandler none []).id.Fresh 2 := by
    refine ⟨by decide, ?_⟩
    rintro h (hmem | ⟨⟨⟩⟩)
    rw [mem_singleton.mp hmem]
    decide
  have hd : DispatchStep (oneHandler none []) (.registerDefault 2 ())
    (oneHandler (some ⟨2, 0, ()⟩) []) := .registerDefault hf rfl
  refine ⟨_, _, _, (oneHandler_run.snoc hd).append (oneHandler_send _ none nofun),
    mem_append_right _ (.tail _ (.head _)), fun hr => ?_⟩
  have ht := hr.1 fun _ => nofun
  exact absurd (congrArg (·.map (·.page)) ht) (by decide)

end Glatt
