import Glatt.Ns.Directory
import Glatt.Storage.TarfsOpen

/-!
# What services read of the page of a message

The name service and a file system on an archive find strings in the pages that they are sent: the
name of a service, and the path of a file or directory. The pages come from user programs, which may
fill them as they like, and what is behind a page in memory is not for the handlers to read.

## Main definitions

* `ServiceCall`, `ServiceStep`: a message to one of the services
* `ServiceCall.Stays`: the messages whose string is not walked, or ends in the page

## Main results

* `services_stay_in_page`: the messages whose handlers read nothing outside of the page
-/

namespace Glatt

open Imperative Traced Transition Buffer

/-! ## Open requests -/

/-- The memory that an open request gets: contexts for the file system, and `fsf` or `fsd`, with
what is in its path. -/
structure OpenSupply where
  vmAlloc : ℕ → Except Errno TarfsPath
  node : Option (ℕ → UInt8)

/-- `fs_ipc_open_file_handler` and `fs_ipc_open_directory_handler`, up to the start of the service:
the context of what has been opened and its path. The rest, `Glatt.fsIpcOpenHandler`, reads nothing
of the page. -/
def fsIpcOpenReads (openOp : TarfsVolume → ByteSource ℕ →
      Traced ℕ (TarfsVolume × Except Errno TarfsNode)) (sup : OpenSupply) (tm : TarfsVolume) :
    Option (ℕ → UInt8) → Traced ℕ (TarfsVolume × Except Errno (TarfsNode × (ℕ → UInt8)))
  | none => pure (tm, .error .invalid)
  | some req => do
    let (tm, r) ← openOp tm (.page req)
    match r with
    | .error e => pure (tm, .error e)
    | .ok context =>
      match sup.node with
      | none => pure (tm, .error .exhausted)
      | some path => do
        let (path, _) ← Cstr.strlcpy path (.page req) 64
        pure (tm, .ok (context, path))

def fsIpcReads (sup : OpenSupply) (tm : TarfsVolume) (reqh : IpcHeader)
    (pagep : Option (ℕ → UInt8)) :
    Traced ℕ (TarfsVolume × Except Errno (TarfsNode × (ℕ → UInt8))) :=
  if reqh.ipchdrMsg = fsMsgOpenFile then
    fsIpcOpenReads (tarfsOpFileOpen sup.vmAlloc) sup tm pagep
  else if reqh.ipchdrMsg = fsMsgOpenDirectory then
    fsIpcOpenReads (tarfsOpDirectoryOpen sup.vmAlloc) sup tm pagep
  else pure (tm, .error .invalid)

variable {sup : OpenSupply} {tm : TarfsVolume} {reqh : IpcHeader} {req : ℕ → UInt8}

theorem safe_fsIpcOpenReads
    {openOp : TarfsVolume → ByteSource ℕ → Traced ℕ (TarfsVolume × Except Errno TarfsNode)}
    (ho : ReadsOnly InPage (openOp tm (.page req)) ↔
      ∀ fPath, sup.vmAlloc 0 = .ok fPath → (ByteSource.page req).OkPath InPage)
    (hop : Yields (openOp tm (.page req)).outcome fun r => ∀ node, r.2 = .ok node →
      (∃ fPath, sup.vmAlloc 0 = .ok fPath) ∧ req 0 = 0x2f) :
    ReadsOnly InPage (fsIpcOpenReads openOp sup tm (some req)) ↔
      ((∃ fPath, sup.vmAlloc 0 = .ok fPath) → req 0 = 0x2f → 0 ∈ slice req 0 8192) := by
  rw [fsIpcOpenReads]
  refine safe_bind.trans ⟨fun h => ?_, fun h => ⟨ho.mpr fun fPath hf => ?_, fun r hr => ?_⟩⟩
  · rintro ⟨fPath, hf⟩ hs
    exact okToEnd_page.mp ((ho.mp h.1 fPath hf).2 hs)
  · refine ⟨ByteSource.ok_page.mpr (show 0 < 8192 by decide), fun hs => ?_⟩
    exact okToEnd_page.mpr (h ⟨fPath, hf⟩ hs)
  · obtain ⟨tm, r⟩ := r
    cases r with
    | error e => exact safe_pure
    | ok context =>
      -- the path is copied once more
      obtain ⟨hmem, hs⟩ := hop _ hr context rfl
      dsimp only
      split
      · exact safe_pure
      · refine safe_bind.mpr ⟨(safe_strlcpy (by decide) (by decide)).mpr ?_, fun _ _ => safe_pure⟩
        exact okToEnd_page.mpr (h hmem hs)

/-! ## The services -/

/-- The state of both services: the directory, and the mounted archive. -/
structure Services where
  directory : ServiceDirectory
  volume : TarfsVolume

/-- A message to the name service or to the file system, and the memory that its handler gets. -/
inductive ServiceCall
  | ns (sde : Option ℕ) (reqh : IpcHeader) (pagep : Option (ℕ → UInt8))
  | fs (sup : OpenSupply) (reqh : IpcHeader) (pagep : Option (ℕ → UInt8))

def ServiceCall.serve (order : ByteOrder) (s : Services) : ServiceCall → Traced ℕ Services
  | ns sde reqh pagep => do
    let (directory, _) ← nsHandler order s.directory sde reqh pagep
    pure { s with directory := directory }
  | fs sup reqh pagep => do
    let (volume, _) ← fsIpcReads sup s.volume reqh pagep
    pure { s with volume := volume }

def ServiceStep (order : ByteOrder) (s : Services) (c : ServiceCall) (s' : Services) : Prop :=
  (c.serve order s).outcome = .ok s'

/-- **The messages whose handlers stay inside the page.** A registration of a name and an open
request for an absolute path need a NUL byte in the page, if there is memory to go on with. -/
def ServiceCall.Stays : ServiceCall → Prop
  | ns sde reqh pagep => ∀ req, pagep = some req → reqh.ipchdrMsg = 2 →
      req 0 ≠ 0 → sde.isSome → 0 ∈ slice req 0 8192
  | fs sup reqh pagep => ∀ req, pagep = some req →
      reqh.ipchdrMsg = fsMsgOpenFile ∨ reqh.ipchdrMsg = fsMsgOpenDirectory →
      (∃ fPath, sup.vmAlloc 0 = .ok fPath) → req 0 = 0x2f → 0 ∈ slice req 0 8192

variable {order : ByteOrder} {s s₀ : Services} {c : ServiceCall}

theorem ServiceStep.terminated {s' : Services} (h : s.directory.Terminated)
    (hs : ServiceStep order s c s') : s'.directory.Terminated := by
  cases c with
  | ns sde reqh pagep =>
    rw [ServiceStep, ServiceCall.serve, outcome_bind_eq] at hs
    obtain ⟨r, hr, hs⟩ := bind_eq_ok.mp hs
    cases hs
    exact nsHandler_terminated h r hr
  | fs sup reqh pagep =>
    rw [ServiceStep, ServiceCall.serve, outcome_bind_eq] at hs
    obtain ⟨r, -, hs⟩ := bind_eq_ok.mp hs
    cases hs
    exact h

theorem Services.run_terminated {h : List (Services × ServiceCall)}
    (h₀ : s₀.directory.Terminated) (hr : Run (ServiceStep order) s₀ h s) :
    s.directory.Terminated :=
  hr.invariant h₀ fun _ _ _ _ _ hI hs => hs.terminated hI

theorem safe_nsHandler {dir : ServiceDirectory} {sde : Option ℕ} {pagep : Option (ℕ → UInt8)}
    (h : dir.Terminated) : ReadsOnly InPage (nsHandler order dir sde reqh pagep) ↔
      (ServiceCall.ns sde reqh pagep).Stays := by
  rw [nsHandler]
  split_ifs with hl hr
  · refine iff_of_true (safe_nsHandleLookup h) fun req _ hm => ?_
    rw [hl] at hm
    exact absurd hm (by decide)
  · cases pagep with
    | none => exact iff_of_true safe_pure fun _ h => by cases h
    | some req =>
      refine safe_nsHandleRegister.trans ⟨?_, fun hs => hs req rfl hr⟩
      rintro hs _ ⟨⟩ -
      exact hs
  · exact iff_of_true safe_pure fun req _ hm => absurd hm hr

theorem safe_fsIpcReads {pagep : Option (ℕ → UInt8)} : ReadsOnly InPage
    (fsIpcReads sup tm reqh pagep) ↔ (ServiceCall.fs sup reqh pagep).Stays := by
  rw [fsIpcReads]
  cases pagep with
  | none =>
    refine iff_of_true ?_ nofun
    split_ifs <;> exact safe_pure
  | some req =>
    split_ifs with hf hd
    · refine (safe_fsIpcOpenReads safe_tarfsOpFileOpen tarfsOpFileOpen_opened).trans
        ⟨?_, fun hs => hs req rfl (Or.inl hf)⟩
      rintro hs _ ⟨⟩ -
      exact hs
    · refine (safe_fsIpcOpenReads safe_tarfsOpDirectoryOpen tarfsOpDirectoryOpen_opened).trans
        ⟨?_, fun hs => hs req rfl (Or.inr hd)⟩
      rintro hs _ ⟨⟩ -
      exact hs
    · exact iff_of_true safe_pure fun _ _ hm => absurd hm (not_or.mpr ⟨hf, hd⟩)

theorem ServiceCall.readsOnly_iff (h : s.directory.Terminated) :
    ReadsOnly InPage (c.serve order s) ↔ c.Stays := by
  cases c with
  | ns sde reqh pagep =>
    have hn : ReadsOnly InPage (nsHandler order s.directory sde reqh pagep) ↔ _ := safe_nsHandler h
    refine safe_bind.trans (Iff.trans ?_ hn)
    exact ⟨fun h => h.1, fun h => ⟨h, fun _ _ => safe_pure⟩⟩
  | fs sup reqh pagep =>
    have hf : ReadsOnly InPage (fsIpcReads sup s.volume reqh pagep) ↔ _ := safe_fsIpcReads
    refine safe_bind.trans (Iff.trans ?_ hf)
    exact ⟨fun h => h.1, fun h => ⟨h, fun _ _ => safe_pure⟩⟩

/-- **Services stay inside the page of a message** exactly for the messages of
`ServiceCall.Stays`, in every state that the services get into: a lookup of a name always does, and
every message does whose page has a NUL byte. -/
theorem services_stay_in_page {tm : TarfsVolume} {h : List (Services × ServiceCall)}
    (hr : Run (ServiceStep order) ⟨serviceDirectoryInit, tm⟩ h s) (c : ServiceCall) :
    ReadsOnly InPage (c.serve order s) ↔ c.Stays :=
  ServiceCall.readsOnly_iff (Services.run_terminated serviceDirectoryInit_terminated hr)

def fullPage (i : ℕ) : UInt8 := if i < 8192 then 0x61 else 0

def namePage (i : ℕ) : UInt8 := if i < 2 then 0x61 else 0

/-- After the registration of a name, a lookup of the name in a full page reads its first bytes. -/
theorem services_stay_in_page_lookup : ∃ s, ServiceStep .big ⟨serviceDirectoryInit, emptyVolume⟩
    (.ns (some 1) ⟨9, 1, 2, 2, 0, 0⟩ (some namePage)) s ∧
    2 ∈ ((ServiceCall.ns none ⟨9, 1, 2, 1, 0, 0⟩ (some fullPage)).serve .big s).log ∧
    ReadsOnly InPage ((ServiceCall.ns none ⟨9, 1, 2, 1, 0, 0⟩ (some fullPage)).serve .big s) := by
  obtain ⟨s, hs, hlog⟩ : ∃ s, ServiceStep .big ⟨serviceDirectoryInit, emptyVolume⟩
      (.ns (some 1) ⟨9, 1, 2, 2, 0, 0⟩ (some namePage)) s ∧
      2 ∈ ((ServiceCall.ns none ⟨9, 1, 2, 1, 0, 0⟩ (some fullPage)).serve .big s).log :=
    ⟨_, rfl, by decide +kernel⟩
  refine ⟨s, hs, hlog, (services_stay_in_page (Run.nil.snoc hs) _).mpr fun req _ hm => ?_⟩
  exact absurd hm (by decide)

/-- **A registration with a full page** is read past its end. -/
theorem register_reads_past_page : ∃ i ∈
    ((ServiceCall.ns (some 1) ⟨9, 1, 2, 2, 0, 0⟩ (some fullPage)).serve .big
      ⟨serviceDirectoryInit, emptyVolume⟩).log, 8192 ≤ i := by
  by_contra hn
  have hs := (ServiceCall.readsOnly_iff serviceDirectoryInit_terminated).mp
    (⟨fun i hi => Nat.not_le.mp fun hle => hn ⟨i, hi, hle⟩, fun _ _ => trivial⟩ :
      ReadsOnly InPage ((ServiceCall.ns (some 1) ⟨9, 1, 2, 2, 0, 0⟩ (some fullPage)).serve .big
        ⟨serviceDirectoryInit, emptyVolume⟩))
  obtain ⟨i, hi, hz⟩ := List.mem_map.mp (hs fullPage rfl rfl (by decide) rfl)
  rw [Nat.zero_add, fullPage, if_pos (List.mem_range.mp hi)] at hz
  exact absurd hz (by decide)

end Glatt
