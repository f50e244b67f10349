import Glatt.Core.BTree
import Glatt.Core.String
import Glatt.Fs.Service

/-!
# The name service

The directory of services of `ns/service_directory.c`, a tree of names with the ports that they
stand for, and the handlers of `ns/ns.c`. The names of requests are in the page of the message.

## Main definitions

* `ServiceDirectory`: the tree of names
* `nsHandler`: the handler

## Main results

* `nsHandler_terminated`: the handler keeps the names terminated
* `safe_nsHandleLookup`: a lookup reads nothing outside of the page
* `safe_nsHandleRegister`: what a registration reads of the page
-/

namespace Glatt

open Imperative Traced Buffer Function List ByteSource

variable {ε : Type}

/-! ## The directory -/

/-- The directory: the tree of its entries, with `sde_name` and `sde_port` of each entry. -/
structure ServiceDirectory where
  tree : LinkedTree ℕ
  sdeName : ℕ → ℕ → UInt8
  sdePort : ℕ → UInt32

def serviceDirectoryInit : ServiceDirectory := ⟨.empty, fun _ _ => 0, fun _ => 0⟩

def btreeFindRound (cmp hit : ℕ → Traced ε Bool) (tree : LinkedTree ℕ) (iter : ℕ) :
    Traced ε (ℕ ⊕ Option ℕ) := do
  if ← cmp iter then
    match tree.left iter with
    | none => pure (.inr none)
    | some l => pure (.inl l)
  else if ← hit iter then pure (.inr (some iter))
  else
    match tree.right iter with
    | none => pure (.inr none)
    | some r => pure (.inl r)

def btreeFindReading (cmp hit : ℕ → Traced ε Bool) (tree : LinkedTree ℕ) : Traced ε (Option ℕ) :=
  match tree.child with
  | none => pure none
  | some iter => loop (btreeFindRound cmp hit tree) tree.bound iter

def sdeCompare (a b : ℕ → UInt8) : Option Int :=
  (strcmp (ε := Empty) (.quiet a 0) (.quiet b 0)).outcome.toOption

/-- `service_directory_enter`. The entry that `pool_allocate` returns is `sde`; without one, the
first byte of the name is copied to no memory. -/
def serviceDirectoryEnter (dir : ServiceDirectory) (sde : Option ℕ) (serviceName : ByteSource ε)
    (port : UInt32) : Traced ε (ServiceDirectory × Except Errno Unit) := do
  let b ← serviceName.read 0
  if b = 0 then pure (dir, .error .invalid)
  else
    match sde with
    | none => do
      let _ ← serviceName.read 0
      halt .fault
    | some sde => do
      let (name, _) ← Cstr.strlcpy (dir.sdeName sde) serviceName 24
      let dir := { dir with
        sdeName := update dir.sdeName sde name
        sdePort := update dir.sdePort sde port }
      let less iter := (sdeCompare name (dir.sdeName iter)).any (· < 0)
      let same iter := (sdeCompare name (dir.sdeName iter)).any (· = 0)
      let old ← lift (btreeFind less same dir.tree)
      match old with
      | some _ => pure (dir, .error .notFree)
      | none => do
        let tree ← lift (btreeInsert less sde dir.tree)
        pure ({ dir with tree := tree }, .ok ())

def serviceDirectoryLookup (dir : ServiceDirectory) (serviceName : ByteSource ε) :
    Traced ε (Except Errno UInt32) := do
  let compare iter := strcmp serviceName (.quiet (dir.sdeName iter) 0)
  let sde ← btreeFindReading (fun iter => do let d ← compare iter; pure (d < 0))
    (fun iter => do let d ← compare iter; pure (d = 0)) dir.tree
  match sde with
  | none => pure (.error .notFound)
  | some sde => pure (.ok (dir.sdePort sde))

/-! ## The handlers -/

def nsHandleLookup (dir : ServiceDirectory) (reqh : IpcHeader) :
    Option (ℕ → UInt8) → Traced ℕ (ServiceDirectory × Option IpcHeader)
  | none => pure (dir, none)
  | some req => do
    match ← serviceDirectoryLookup dir (.page req) with
    | .error e => pure (dir, some (ipcHeaderError reqh e))
    | .ok port => pure (dir, some { ipcHeaderReply reqh with ipchdrParam := port.toUInt64 })

/-- `ns_handle_register`, with the header of the reply. The port is behind the 24 bytes of the
name. -/
def nsHandleRegister (order : ByteOrder) (dir : ServiceDirectory) (sde : Option ℕ)
    (reqh : IpcHeader) : Option (ℕ → UInt8) → Traced ℕ (ServiceDirectory × Option IpcHeader)
  | none => pure (dir, none)
  | some req => do
    let port ← (page req).readNumber order 24 4
    let (dir, r) ← serviceDirectoryEnter dir sde (.page req) (UInt32.ofNat port)
    match r with
    | .error e => pure (dir, some (ipcHeaderError reqh e))
    | .ok () => pure (dir, some (ipcHeaderReply reqh))

def nsHandler (order : ByteOrder) (dir : ServiceDirectory) (sde : Option ℕ) (reqh : IpcHeader)
    (pagep : Option (ℕ → UInt8)) : Traced ℕ (ServiceDirectory × Option IpcHeader) :=
  if reqh.ipchdrMsg = 1 then nsHandleLookup dir reqh pagep
  else if reqh.ipchdrMsg = 2 then nsHandleRegister order dir sde reqh pagep
  else pure (dir, none)

/-! ## The names end -/

def ServiceDirectory.Terminated (dir : ServiceDirectory) : Prop :=
  ∀ x, 0 ∈ slice (dir.sdeName x) 0 24

theorem serviceDirectoryInit_terminated : serviceDirectoryInit.Terminated := fun _ =>
  mem_map.mpr ⟨0, mem_range.mpr (by decide), rfl⟩

variable {dir : ServiceDirectory} {sde : Option ℕ} {order : ByteOrder} {reqh : IpcHeader}
  {pagep : Option (ℕ → UInt8)}

theorem serviceDirectoryEnter_terminated {serviceName : ByteSource ε} {port : UInt32}
    (h : dir.Terminated) : Yields (serviceDirectoryEnter dir sde serviceName port).outcome
      fun r => r.1.Terminated := by
  rw [serviceDirectoryEnter.eq_def, outcome_bind_eq, outcome_read, ok_bind]
  split_ifs
  · exact .ret h
  cases sde with
  | none =>
    exact yields_error
  | some sde =>
    rw [outcome_bind_eq]
    refine (strlcpy_terminated (by decide)).bind ?_
    rintro ⟨name, n⟩ hn
    have hnew : ∀ x, 0 ∈ slice (update dir.sdeName sde name x) 0 24 := by
      intro x
      by_cases hx : x = sde
      · rw [hx, update_self]
        exact hn
      · rw [update_of_ne hx]
        exact h x
    rw [outcome_bind_eq]
    refine yields_bind_of_forall fun old => ?_
    cases old with
    | some y => exact .ret hnew
    | none =>
      rw [outcome_bind_eq]
      exact yields_bind_of_forall fun _ => .ret hnew

theorem nsHandler_terminated (h : dir.Terminated) :
    Yields (nsHandler order dir sde reqh pagep).outcome fun r => r.1.Terminated := by
  rw [nsHandler]
  split_ifs
  · cases pagep with
    | none => exact .ret h
    | some req =>
      rw [nsHandleLookup, outcome_bind_eq]
      refine yields_bind_of_forall fun r => ?_
      cases r with
      | error e | ok port => exact .ret h
  · cases pagep with
    | none => exact .ret h
    | some req =>
      rw [nsHandleRegister, outcome_bind_eq]
      refine yields_bind_of_forall fun port => ?_
      rw [outcome_bind_eq]
      refine (serviceDirectoryEnter_terminated h).bind ?_
      rintro ⟨dir, r⟩ hd
      cases r with
      | error e | ok u => exact .ret hd
  · exact .ret h

/-! ## What the handlers read -/

abbrev InPage (i : ℕ) : Prop := i < 8192

theorem safe_btreeFindReading {P : ε → Prop} {cmp hit : ℕ → Traced ε Bool} {tree : LinkedTree ℕ}
    (hc : ∀ x, ReadsOnly P (cmp x)) (hh : ∀ x, ReadsOnly P (hit x)) :
    ReadsOnly P (btreeFindReading cmp hit tree) := by
  rw [btreeFindReading]
  split
  · exact safe_pure
  · refine safe_loop_of_forall trivial fun x => ?_
    refine safe_bind.mpr ⟨hc x, fun less _ => ?_⟩
    split_ifs
    · split <;> exact safe_pure
    · refine safe_bind.mpr ⟨hh x, fun same _ => ?_⟩
      split_ifs
      · exact safe_pure
      · split <;> exact safe_pure

theorem safe_strcmp_name {req name : ℕ → UInt8} (h : 0 ∈ slice name 0 24) :
    ReadsOnly InPage (strcmp (.page req) (.quiet name 0)) := by
  obtain ⟨k, hk, hz⟩ := mem_map.mp h
  refine safe_strcmp fun i hi => ⟨ok_page.mpr ?_, ok_quiet⟩
  have hle : i ≤ k := Nat.not_lt.mp fun hlt => (hi k hlt).1 ((hi k hlt).2.trans hz)
  have hk := mem_range.mp hk
  show i < 8192
  omega

theorem safe_nsHandleLookup (h : dir.Terminated) :
    ReadsOnly InPage (nsHandleLookup dir reqh pagep) := by
  cases pagep with
  | none => exact safe_pure
  | some req =>
    have hc (test : Int → Bool) (x : ℕ) : ReadsOnly InPage
        (do let d ← strcmp (.page req) (.quiet (dir.sdeName x) 0); pure (test d)) :=
      safe_bind.mpr ⟨safe_strcmp_name (h x), fun _ _ => safe_pure⟩
    refine safe_bind.mpr ⟨safe_bind.mpr ⟨?_, fun o _ => ?_⟩, fun r _ => ?_⟩
    · exact safe_btreeFindReading (hc fun d => d < 0) (hc fun d => d = 0)
    · cases o with
      | none | some x => exact safe_pure
    · cases r with
      | error e | ok port => exact safe_pure

theorem safe_serviceDirectoryEnter {P : ε → Prop} {serviceName : ByteSource ε} {port : UInt32} :
    ReadsOnly P (serviceDirectoryEnter dir sde serviceName port) ↔ serviceName.Ok P 0 ∧
      (serviceName.byte 0 ≠ 0 → sde.isSome → serviceName.OkToEnd P 0) := by
  rw [serviceDirectoryEnter.eq_def]
  refine safe_bind.trans ⟨fun h => ⟨safe_read.mp h.1, fun hne hs => ?_⟩,
    fun h => ⟨safe_read.mpr h.1, fun b hb => ?_⟩⟩
  · obtain ⟨x, rfl⟩ := Option.isSome_iff_exists.mp hs
    have hr := h.2 _ rfl
    rw [if_neg hne] at hr
    exact (safe_strlcpy (by decide) (by decide)).mp (safe_bind.mp hr).1
  · cases hb
    split_ifs with hz
    · exact safe_pure
    cases sde with
    | none =>
      exact safe_bind.mpr ⟨safe_read.mpr h.1, fun _ _ => safe_halt.mpr trivial⟩
    | some x =>
      have hend := h.2 hz rfl
      refine safe_bind.mpr ⟨(safe_strlcpy (by decide) (by decide)).mpr hend, fun r _ => ?_⟩
      refine safe_bind.mpr ⟨safe_lift.mpr fun _ _ => trivial, fun old _ => ?_⟩
      cases old with
      | some y => exact safe_pure
      | none => exact safe_bind.mpr ⟨safe_lift.mpr fun _ _ => trivial, fun _ _ => safe_pure⟩

theorem okToEnd_page {req : ℕ → UInt8} : (page req).OkToEnd InPage 0 ↔ 0 ∈ slice req 0 8192 := by
  constructor
  · intro h
    by_contra hn
    -- nothing stops the walk before the byte behind the page
    have ho := h 8192 (Nat.zero_le _) (by decide) fun j _ hj hz =>
      hn (mem_map.mpr ⟨j, mem_range.mpr hj, by rw [Nat.zero_add]; exact hz⟩)
    exact absurd (ok_page.mp ho) (Nat.lt_irrefl 8192)
  · intro hmem k _ _ hb
    obtain ⟨j, hj, hz⟩ := mem_map.mp hmem
    rw [Nat.zero_add] at hz
    refine ok_page.mpr (Nat.lt_of_le_of_lt (Nat.not_lt.mp fun hlt => ?_) (mem_range.mp hj))
    exact hb j j.zero_le hlt hz

theorem safe_nsHandleRegister {req : ℕ → UInt8} :
    ReadsOnly InPage (nsHandleRegister order dir sde reqh (some req)) ↔
      (req 0 ≠ 0 → sde.isSome → 0 ∈ slice req 0 8192) := by
  rw [← okToEnd_page]
  refine safe_bind.trans ⟨fun h => ?_, fun h => ⟨?_, fun port _ => ?_⟩⟩
  · exact (safe_serviceDirectoryEnter.mp (safe_bind.mp (h.2 _ rfl)).1).2
  · refine safe_readNumber fun i hi => ok_page.mpr ?_
    show 24 + i < 8192
    omega
  · refine safe_bind.mpr ⟨safe_serviceDirectoryEnter.mpr ⟨ok_page.mpr ?_, h⟩, ?_⟩
    · show 0 < 8192
      decide
    · rintro ⟨-, r⟩ _
      cases r with
      | error e | ok u => exact safe_pure

end Glatt
