import Glatt.Fs.Service

/-!
# The life cycle of open files

The services of a file system and its clients: any IPC calls of any tasks, and rounds of the
services, in any order. A close handler closes the context of its service, and the service goes on
to take messages; nothing in the handlers keeps a later message from reaching the context.

## Main definitions

* `UsesOpen`: calls on contexts that are open, each closed at most once
* `ClosedLast`: no message for a context follows one that closes it

## Main results

* `fs_calls_safe`: the calls of every run are on open contexts, if no message follows a close
* `fs_file_closed_twice`: a client has a file closed twice
-/

namespace Glatt

open Imperative Transition List FsWorld

variable {σ κ θ τ : Type} [DecidableEq θ] [LinearOrder τ]

/-! ## Runs -/

/-- The services, and the receives that other threads have under way. -/
structure FsState (σ κ θ τ : Type) [LinearOrder τ] where
  world : FsWorld σ κ τ
  receiving : θ → Option (Receiving τ)

/-- A part of an IPC call of a client, or a round of the `i`-th service, in which the page of the
message has `req` in it. -/
inductive FsEvent (θ τ : Type)
  | client (e : IpcEvent θ τ)
  | serve (i : ℕ) (req : FsRequest)

/-- The steps of the clients and the services. A round that ends in a panic is a step too: the calls
that it has made count. -/
inductive FsStep (ops : FsOps σ κ) : FsState σ κ θ τ → FsEvent θ τ → FsState σ κ θ τ → Prop
  | client {s e m} (hs : IpcStep ⟨s.world.ipc, s.receiving⟩ e m) :
      FsStep ops s (.client e) ⟨{ s.world with ipc := m.ipc }, m.receiving⟩
  | serve {s i q v u} (hi : s.world.services[i]? = some v) :
      FsStep ops s (.serve i q) { s with world := (ipcServiceRound ops u q v).after s.world }

def startFs (ipc : IpcState τ) (fs : σ) (mounts : List (UInt32 × τ)) : FsState σ κ θ τ :=
  ⟨⟨ipc, fs, [], 0, mounts.map fun m => ⟨.fs, m.1, m.2⟩⟩, fun _ => none⟩

/-! ## Calls on open contexts -/

/-- A call may follow others: an open makes a new context, and a context is used only after its
open and before its close. -/
def FsCall.Allowed (before : List FsCall) : FsCall → Prop
  | opened n => .opened n ∉ before
  | used n _ => .opened n ∈ before ∧ .used n .close ∉ before

/-- **Calls on open contexts**: none is before the open of its context or after the close. -/
def UsesOpen (calls : List FsCall) : Prop :=
  ∀ before call after, calls = before ++ call :: after → call.Allowed before

theorem usesOpen_nil : UsesOpen [] := by
  intro before call after h
  cases before <;> cases h

theorem UsesOpen.snoc {calls : List FsCall} {call : FsCall} (h : UsesOpen calls)
    (hcl : call.Allowed calls) : UsesOpen (calls ++ [call]) := by
  intro before c after heq
  rcases after.eq_nil_or_concat with rfl | ⟨after', d, rfl⟩
  · obtain ⟨rfl, hc⟩ := append_inj' heq rfl
    cases hc
    exact hcl
  · rw [concat_eq_append, ← cons_append, ← append_assoc] at heq
    exact h before c after' (append_inj' heq rfl).1

/-! ## What is asked -/

def FsEvent.asked (s : FsState σ κ θ τ) : FsEvent θ τ → Option (ℕ × FsUse)
  | .client _ => none
  | .serve i req =>
    s.world.services[i]?.bind fun svc => (svc.asked s.world.ipc req).map fun u => (i, u)

def asked (h : List (FsState σ κ θ τ × FsEvent θ τ)) : List (ℕ × FsUse) :=
  h.filterMap fun e => e.2.asked e.1

def ClosedLast (asks : List (ℕ × FsUse)) : Prop := asks.Pairwise fun a b => a.1 = b.1 → a.2 ≠ .close

variable {ops : FsOps σ κ} {h : List (FsState σ κ θ τ × FsEvent θ τ)} {s s' : FsState σ κ θ τ}
  {e : FsEvent θ τ}

omit [DecidableEq θ] in
theorem asked_snoc : asked (h ++ [(s, e)]) = asked h ++ (e.asked s).toList := by
  rw [asked, asked]
  cases he : e.asked s <;> simp [he]

/-! ## The invariant -/

def FsWorld.Serves (w : FsWorld σ κ τ) (i n : ℕ) : Prop :=
  ∃ svc, w.services[i]? = some svc ∧ svc.ipcscHandler.number = some n

/-- What holds after a history: contexts are numbered by their opens, no two services have the same
one, a service's context is closed only if the service was asked to, and calls are on open ones. -/
structure FsInvariant (asks : List (ℕ × FsUse)) (w : FsWorld σ κ τ) : Prop where
  opened_lt : ∀ n, .opened n ∈ w.calls → n < w.opens
  used_lt : ∀ n u, .used n u ∈ w.calls → n < w.opens
  opened : ∀ i n, w.Serves i n → .opened n ∈ w.calls
  inj : ∀ i j n, w.Serves i n → w.Serves j n → i = j
  closed : ∀ i n, w.Serves i n → .used n .close ∈ w.calls → (i, .close) ∈ asks
  usesOpen : UsesOpen w.calls

variable {asks : List (ℕ × FsUse)} {w w' : FsWorld σ κ τ}

theorem FsWorld.serves_congr (hs : w'.services = w.services) {i n : ℕ} :
    w'.Serves i n ↔ w.Serves i n := by
  rw [Serves, Serves, hs]

theorem FsInvariant.frame (h : FsInvariant asks w) (hf : FsFrame w w')
    (more : List (ℕ × FsUse)) : FsInvariant (asks ++ more) w' where
  opened_lt n hn := by
    rw [hf.calls] at hn
    rw [hf.opens]
    exact h.opened_lt n hn
  used_lt n u hn := by
    rw [hf.calls] at hn
    rw [hf.opens]
    exact h.used_lt n u hn
  opened i n hi := by
    rw [hf.calls]
    exact h.opened i n ((serves_congr hf.services).mp hi)
  inj i j n hi hj :=
    h.inj i j n ((serves_congr hf.services).mp hi) ((serves_congr hf.services).mp hj)
  closed i n hi hn := by
    rw [hf.calls] at hn
    exact mem_append_left _ (h.closed i n ((serves_congr hf.services).mp hi) hn)
  usesOpen := hf.calls ▸ h.usesOpen

theorem FsInvariant.uses (h : FsInvariant asks w) {i n : ℕ} {u : FsUse} (hi : w.Serves i n)
    (hu : Uses n u w w') (hl : (i, .close) ∉ asks) :
    FsInvariant (asks ++ [(i, u)]) w' where
  opened_lt m hm := by
    rw [hu.calls] at hm
    rw [hu.opens]
    exact h.opened_lt m (by simpa using hm)
  used_lt m v hm := by
    rw [hu.calls] at hm
    rw [hu.opens]
    rcases mem_append.mp hm with hm | hm
    · exact h.used_lt m v hm
    · cases mem_singleton.mp hm
      exact h.opened_lt _ (h.opened i _ hi)
  opened j m hj := by
    rw [hu.calls]
    exact mem_append_left _ (h.opened j m ((serves_congr hu.services).mp hj))
  inj j k m hj hk :=
    h.inj j k m ((serves_congr hu.services).mp hj) ((serves_congr hu.services).mp hk)
  closed j m hj hm := by
    have hj' := (serves_congr hu.services).mp hj
    rw [hu.calls] at hm
    rcases mem_append.mp hm with hm | hm
    · exact mem_append_left _ (h.closed j m hj' hm)
    · -- the call just made: the service is the only one with the context
      cases mem_singleton.mp hm
      obtain rfl := h.inj i j _ hi hj'
      exact mem_append_right _ mem_cons_self
  usesOpen := by
    rw [hu.calls]
    exact h.usesOpen.snoc ⟨h.opened i n hi, fun hc => hl (h.closed i n hi hc)⟩

theorem FsInvariant.allowed_opened (h : FsInvariant asks w) :
    (FsCall.opened w.opens).Allowed w.calls :=
  fun hmem => (h.opened_lt _ hmem).false

theorem FsInvariant.openedContext (h : FsInvariant asks w)
    (hc : w'.calls = w.calls ++ [.opened w.opens]) (ho : w'.opens = w.opens + 1)
    (hs : ∀ i n, w'.Serves i n → w.Serves i n ∨ i = w.services.length ∧ n = w.opens) :
    FsInvariant asks w' where
  opened_lt m hm := by
    rw [hc] at hm
    rw [ho]
    rcases mem_append.mp hm with hm | hm
    · exact Nat.lt_succ_of_lt (h.opened_lt m hm)
    · cases mem_singleton.mp hm
      exact Nat.lt_succ_self _
  used_lt m u hm := by
    rw [hc] at hm
    rw [ho]
    exact Nat.lt_succ_of_lt (h.used_lt m u (by simpa using hm))
  opened i n hi := by
    rw [hc]
    rcases hs i n hi with hi | ⟨-, rfl⟩
    · exact mem_append_left _ (h.opened i n hi)
    · exact mem_append_right _ mem_cons_self
  inj i j n hi hj := by
    -- an older service does not have the new context
    have hold : ∀ k, w.Serves k n → n ≠ w.opens := fun k hk hn =>
      h.allowed_opened (hn ▸ h.opened k n hk)
    rcases hs i n hi with hi | ⟨hi, hn⟩
    · rcases hs j n hj with hj | ⟨-, hn⟩
      · exact h.inj i j n hi hj
      · exact absurd hn (hold i hi)
    · rcases hs j n hj with hj | ⟨hj, -⟩
      · exact absurd hn (hold j hj)
      · exact hi.trans hj.symm
  closed i n hi hn := by
    rw [hc] at hn
    replace hn : .used n .close ∈ w.calls := by simpa using hn
    rcases hs i n hi with hi | ⟨-, rfl⟩
    · exact h.closed i n hi hn
    · exact absurd (h.used_lt _ _ hn) (Nat.lt_irrefl _)
  usesOpen := hc ▸ h.usesOpen.snoc h.allowed_opened

theorem FsInvariant.closedContext (h : FsInvariant asks w)
    (hc : w'.calls = w.calls ++ [.opened w.opens, .used w.opens .close])
    (ho : w'.opens = w.opens + 1) (hs : w'.services = w.services) :
    FsInvariant asks w' where
  opened_lt m hm := by
    rw [hc] at hm
    rw [ho]
    rcases mem_append.mp hm with hm | hm
    · exact Nat.lt_succ_of_lt (h.opened_lt m hm)
    · obtain rfl : m = w.opens := by simpa using hm
      exact Nat.lt_succ_self _
  used_lt m u hm := by
    rw [hc] at hm
    rw [ho]
    rcases mem_append.mp hm with hm | hm
    · exact Nat.lt_succ_of_lt (h.used_lt m u hm)
    · obtain ⟨rfl, -⟩ : m = w.opens ∧ u = .close := by simpa using hm
      exact Nat.lt_succ_self _
  opened i n hi := by
    rw [hc]
    exact mem_append_left _ (h.opened i n ((serves_congr hs).mp hi))
  inj i j n hi hj := h.inj i j n ((serves_congr hs).mp hi) ((serves_congr hs).mp hj)
  closed i n hi hn := by
    have hi' := (serves_congr hs).mp hi
    rw [hc] at hn
    rcases mem_append.mp hn with hn | hn
    · exact h.closed i n hi' hn
    · obtain rfl : n = w.opens := by simpa using hn
      exact absurd (h.opened i _ hi') h.allowed_opened
  usesOpen := by
    have hop := h.usesOpen.snoc h.allowed_opened
    have hcl : (FsCall.used w.opens .close).Allowed (w.calls ++ [.opened w.opens]) := by
      refine ⟨mem_append_right _ mem_cons_self, fun hmem => ?_⟩
      exact absurd (h.used_lt _ _ (by simpa using hmem)) (Nat.lt_irrefl _)
    have hb := hop.snoc hcl
    rw [append_assoc] at hb
    exact hc ▸ hb

theorem FsInvariant.opens (h : FsInvariant asks w) (ho : Opens w w') : FsInvariant asks w' := by
  cases ho with
  | nothing hf =>
    have hinv := h.frame hf []
    rwa [append_nil] at hinv
  | closed hc ho hs => exact h.closedContext hc ho hs
  | opened hc ho hs =>
    refine h.openedContext hc ho fun i n hi => ?_
    rcases hs with hs | ⟨svc, hs, hn⟩
    · exact .inl ((serves_congr hs).mp hi)
    · obtain ⟨svc', hsvc', hn'⟩ := hi
      rw [hs, getElem?_append] at hsvc'
      split_ifs at hsvc' with hlt
      · exact .inl ⟨svc', hsvc', hn'⟩
      · have hlen : i - w.services.length = 0 := by
          by_contra hne
          rw [getElem?_eq_none (by simp only [length_singleton]; omega)] at hsvc'
          cases hsvc'
        rw [hlen] at hsvc'
        cases hsvc'
        rw [hn'] at hn
        exact .inr ⟨by omega, Option.some.inj hn⟩

theorem IpcServiceContext.asked_eq_none (svc : IpcServiceContext κ τ)
    (hn : svc.ipcscHandler.number = none) {ipc : IpcState τ} {req : FsRequest} :
    svc.asked ipc req = none := by
  rw [asked]
  cases hh : svc.ipcscHandler with
  | fs => exact Option.bind_fun_none _
  | file fsf | directory fsd =>
    rw [hh] at hn
    cases hn

theorem FsInvariant.step (hinv : FsInvariant asks s.world) (hs : FsStep ops s e s')
    (hl : ∀ i u, e.asked s = some (i, u) → (i, .close) ∉ asks) :
    FsInvariant (asks ++ (e.asked s).toList) s'.world := by
  cases hs with
  | @client e m hs =>
    have hf : FsFrame s.world { s.world with ipc := m.ipc } := ⟨rfl, rfl, rfl⟩
    exact hinv.frame hf _
  | @serve i q v u hi =>
    cases hn : v.ipcscHandler.number with
    | none =>
      have ha : (FsEvent.serve i q).asked s = none := by
        rw [FsEvent.asked, hi, Option.bind_some, v.asked_eq_none hn, Option.map_none]
      rw [ha, Option.toList_none, append_nil]
      exact hinv.opens (ipcServiceRound_fs hn s.world)
    | some n =>
      have ha : (FsEvent.serve i q).asked s = (v.asked s.world.ipc q).map fun u => (i, u) := by
        rw [FsEvent.asked, hi, Option.bind_some]
      rcases ipcServiceRound_node hn with hf | ⟨use, huse, hu⟩
      · exact hinv.frame hf _
      · rw [huse] at ha
        rw [ha]
        exact hinv.uses ⟨v, hi, hn⟩ hu (hl i use ha)

omit [DecidableEq θ] in
theorem invariant_startFs {ipc : IpcState τ} {fs : σ} {mounts : List (UInt32 × τ)} :
    FsInvariant [] (startFs ipc fs mounts : FsState σ κ θ τ).world := by
  -- the services are those of the file systems, which have no context
  have hs : ∀ i n, ¬ (startFs ipc fs mounts : FsState σ κ θ τ).world.Serves i n := by
    rintro i n ⟨svc, hsvc, hn⟩
    obtain ⟨m, -, rfl⟩ := mem_map.mp (mem_of_getElem? hsvc)
    cases hn
  exact ⟨nofun, nofun, fun i n h => absurd h (hs i n),
    fun i _ n h => absurd h (hs i n), fun i n h => absurd h (hs i n), usesOpen_nil⟩

theorem ClosedLast.snoc_asked {i : ℕ} {u : FsUse} (h : ClosedLast (asks ++ [(i, u)])) :
    (i, .close) ∉ asks := by
  intro hmem
  exact (pairwise_append.mp h).2.2 _ hmem _ mem_cons_self rfl rfl

def plainOps : FsOps Unit Unit where
  fsFileOpen _ fs := (fs, .ok ())
  fsFileRead _ _ length fs := (fs, .ok length)
  fsFileClose _ fs := (fs, .ok ())
  fsDirectoryOpen _ fs := (fs, .ok ())
  fsDirectoryRead _ offset fs := (fs, .ok (offset, 1))
  fsDirectoryClose _ fs := (fs, .ok ())
  execTask _ _ _ fs := (fs, .ok 0)

def plainSupply : FsSupply ℕ := ⟨true, true, .ok 3, .ok (), .ok 0, .ok ()⟩

def plainRequest : FsRequest := ⟨[0x2f, 0x61], 0, 8⟩

/-- The file system on the public port 3 of the task 1, and a client, the task 2, with its
port 4. -/
def plainPorts : IpcState ℕ where
  ipcPorts
    | 3 => some ⟨ipcPortFlagPublic, [], .put 1 ipcPortRightReceiveBit .empty⟩
    | 4 => some ⟨0, [], .put 2 ipcPortRightReceiveBit .empty⟩
    | _ => none
  ipcPortNext := 5

def plainFs : FsState Unit Unit ℕ ℕ := startFs plainPorts () [(3, 1)]

/-- **The handlers use open contexts only**, and close each at most once, in every run in which no
service of a file or directory takes a message for its context after one that closes it. -/
theorem fs_calls_safe {ipc : IpcState τ} {fs : σ} {mounts : List (UInt32 × τ)}
    (hr : Run (FsStep ops) (startFs ipc fs mounts) h s) (hlast : ClosedLast (asked h)) :
    UsesOpen s.world.calls := by
  have hinv : ClosedLast (asked h) → FsInvariant (asked h) s.world := by
    refine Run.invariant ?_ ?_ hr
    · exact fun _ => invariant_startFs
    · intro h s e s' _ ih hs hlast
      rw [asked_snoc] at hlast ⊢
      refine (ih (pairwise_append.mp hlast).1).step hs fun i u ha => ?_
      rw [ha] at hlast
      exact hlast.snoc_asked
  exact (hinv hlast).usesOpen

/-- A file is opened, read and closed. -/
theorem fs_calls_safe_once : ∃ h s, Run (FsStep plainOps) plainFs h s ∧ ClosedLast (asked h) ∧
    s.world.calls = [.opened 0, .used 0 .read, .used 0 .close] ∧ UsesOpen s.world.calls := by
  have h₁ : Run (FsStep plainOps) plainFs _ _ := Run.nil.snoc (.client (.sendPage
    (rfl : ipcPortSendPage true 2 ⟨4, 3, 0, fsMsgOpenFile, 0, 0⟩ (some 7) _ = .ok (_, .ok ()))))
  have h₂ := h₁.snoc (.serve (i := 0) (q := plainRequest) (u := plainSupply) rfl)
  have h₃ := h₂.snoc (.client (.sendPage
    (rfl : ipcPortSendPage true 2 ⟨4, 5, 0, fsMsgRead, 0, 0⟩ (some 8) _ = .ok (_, .ok ()))))
  have h₄ := h₃.snoc (.serve (i := 1) (q := plainRequest) (u := plainSupply) rfl)
  have h₅ := h₄.snoc (.client (.sendPage
    (rfl : ipcPortSendPage true 2 ⟨4, 5, 0, fsMsgClose, 0, 0⟩ none _ = .ok (_, .ok ()))))
  have h₆ := h₅.snoc (.serve (i := 1) (q := plainRequest) (u := plainSupply) rfl)
  obtain ⟨h, s, hr, ha, hc⟩ : ∃ h s, Run (FsStep plainOps) plainFs h s ∧
      asked h = [(1, .read), (1, .close)] ∧
      s.world.calls = [.opened 0, .used 0 .read, .used 0 .close] := ⟨_, _, h₆, rfl, rfl⟩
  have hl : ClosedLast (asked h) := by
    rw [ha]
    unfold ClosedLast
    decide
  exact ⟨h, s, hr, hl, hc, fs_calls_safe hr hl⟩

/-- A file is opened, closed, and closed again: the client sends two close messages to the port of
the file. -/
theorem fs_file_closed_twice : ∃ h s, Run (FsStep plainOps) plainFs h s ∧
    s.world.calls = [.opened 0, .used 0 .close, .used 0 .close] ∧ ¬ UsesOpen s.world.calls := by
  have h₁ : Run (FsStep plainOps) plainFs _ _ := Run.nil.snoc (.client (.sendPage
    (rfl : ipcPortSendPage true 2 ⟨4, 3, 0, fsMsgOpenFile, 0, 0⟩ (some 7) _ = .ok (_, .ok ()))))
  have h₂ := h₁.snoc (.serve (i := 0) (q := plainRequest) (u := plainSupply) rfl)
  have h₃ := h₂.snoc (.client (.sendPage
    (rfl : ipcPortSendPage true 2 ⟨4, 5, 0, fsMsgClose, 0, 0⟩ none _ = .ok (_, .ok ()))))
  have h₄ := h₃.snoc (.serve (i := 1) (q := plainRequest) (u := plainSupply) rfl)
  have h₅ := h₄.snoc (.client (.sendPage
    (rfl : ipcPortSendPage true 2 ⟨4, 5, 0, fsMsgClose, 0, 0⟩ none _ = .ok (_, .ok ()))))
  have h₆ := h₅.snoc (.serve (i := 1) (q := plainRequest) (u := plainSupply) rfl)
  refine ⟨_, _, h₆, rfl, fun hs => ?_⟩
  exact (hs [.opened 0, .used 0 .close] (.used 0 .close) [] rfl).2 (by decide)

end Glatt
