import Glatt.Core.BTree
import Glatt.Ipc.Rights
import Glatt.Lib.Transition

/-!
# The tree of ports

`ipc_ports` as the kernel keeps it: a tree of `struct ipc_port`, linked through the structures and
ordered by their numbers. `ipc_port_lookup` searches it, `ipc_port_register` inserts a structure,
and `ipc_port_allocate` counts `ipc_port_next` up, around the end and past the reserved numbers,
until the search finds nothing.

A call is not one step: it fills in a structure before it takes the lock of the tree. Between the
two a structure is pending, and others may register theirs.

## Main definitions

* `PortTable`: the structures, their links and their ports
* `PortTable.view`: the ports by number
* `PortMachine`, `PortStep`: parts of calls, in any order

## Main results

* `port_numbers_distinct`: `ipc_port_allocate` ends with a new number, and along every run each port
  is found under its own number
* `port_tree_refines`: along every run the calls on the tree do what they do on a map
-/

namespace Glatt

open Imperative BinaryTree Transition Function List Option

/-- The structures `struct ipc_port` by their addresses, with their numbers `ipcp_port`; the tree
`ipc_ports` of those that are registered; and `ipc_port_next`. -/
structure PortTable (π τ : Type) [LinearOrder τ] where
  ipcPorts : LinkedTree π
  ipcpPort : π → UInt32
  ipcp : π → IpcPort τ
  ipcPortNext : UInt32

variable {π τ : Type} [LinearOrder τ] {flags : UInt32}

namespace PortTable

/-! ## The search -/

def ipcPortLookup (port : UInt32) (s : PortTable π τ) : Outcome (Option π) :=
  btreeFind (fun iter => port < s.ipcpPort iter) (fun iter => port = s.ipcpPort iter) s.ipcPorts

def Registered (s : PortTable π τ) (x : π) : Prop := s.ipcPorts.Reaches x

/-- **The links form a search tree by number.** -/
def Sound (s : PortTable π τ) : Prop :=
  ∃ T, s.ipcPorts.Represents T ∧ SearchTree (fun x => (s.ipcpPort x).toNat) T

/-- The structure can be registered: it is not linked, and links to nothing. -/
structure Pending (s : PortTable π τ) (x : π) : Prop where
  unregistered : ¬ s.Registered x
  left : s.ipcPorts.left x = none
  right : s.ipcPorts.right x = none

variable {s s' : PortTable π τ} {x y : π} {port : UInt32}

section

variable (h : s.Sound)
include h

theorem Sound.lookup (port : UInt32) : ∃ r, ipcPortLookup port s = .ok r ∧
    (∀ x, r = some x ↔ s.Registered x ∧ s.ipcpPort x = port) ∧
    (r = none ↔ ∀ x, s.Registered x → s.ipcpPort x ≠ port) := by
  obtain ⟨T, hT, hk⟩ := h
  refine ⟨_, btreeFind_eq hT _ _, fun x => ?_, ?_⟩
  · rw [hk.find_eq_some_iff (fun a => ?_) (fun a => ?_), hT.mem_iff, UInt32.toNat_inj]
    · exact Iff.rfl
    · rw [decide_eq_true_iff, UInt32.lt_iff_toNat_lt]
    · rw [decide_eq_true_iff, UInt32.toNat_inj]
  · rw [hk.find_eq_none_iff (fun a => ?_) (fun a => ?_)]
    · refine forall_congr' fun x => ?_
      rw [hT.mem_iff, Ne, UInt32.toNat_inj]
      exact Iff.rfl
    · rw [decide_eq_true_iff, UInt32.lt_iff_toNat_lt]
    · rw [decide_eq_true_iff, UInt32.toNat_inj]

theorem Sound.lookup_eq_some_iff :
    ipcPortLookup port s = .ok (some x) ↔ s.Registered x ∧ s.ipcpPort x = port := by
  obtain ⟨r, hr, hs, -⟩ := h.lookup port
  rw [hr, Except.ok.injEq, hs]

theorem Sound.lookup_eq_none_iff :
    ipcPortLookup port s = .ok none ↔ ∀ x, s.Registered x → s.ipcpPort x ≠ port := by
  obtain ⟨r, hr, -, hn⟩ := h.lookup port
  rw [hr, Except.ok.injEq, hn]

theorem Sound.eq_of_ipcpPort_eq (hx : s.Registered x) (hy : s.Registered y)
    (hxy : s.ipcpPort x = s.ipcpPort y) : x = y := by
  obtain ⟨T, hT, hk⟩ := h
  exact hk.eq_of_key_eq (hT.mem_iff.mpr hx) (hT.mem_iff.mpr hy) (congrArg UInt32.toNat hxy)

omit h in
theorem sound_of_empty (h : s.ipcPorts.child = none) : s.Sound ∧ ∀ x, ¬ s.Registered x := by
  have hT : s.ipcPorts.Represents .nil := ⟨h, nodup_nil, Nat.zero_le _⟩
  exact ⟨⟨.nil, hT, searchTree_nil⟩, fun x hx => not_mem_nil (hT.mem_iff.mpr hx)⟩

/-! ## The functions -/

variable [DecidableEq π]

/-- `ipc_port_alloc`, with what `pool_allocate` returns for the structure: its fields are set, and
the task gets the receive right. -/
def ipcPortAlloc (mem : Bool) (new : Option π) (task : τ) (s : PortTable π τ) :
    Outcome (PortTable π τ × π) :=
  match new with
  | none => .error .fault
  | some x => do
    let ipcp ← Glatt.ipcPortAlloc mem task
    pure ({ s with
      ipcPorts := s.ipcPorts.clear x
      ipcpPort := update s.ipcpPort x ipcPortUnknown
      ipcp := update s.ipcp x ipcp }, x)

def ipcPortRegister (x : π) (port flags : UInt32) (s : PortTable π τ) :
    Outcome (PortTable π τ × Except Errno Unit) := do
  match ← ipcPortLookup port s with
  | some _ => pure (s, .error .notFree)
  | none =>
    let ipcpPort := update s.ipcpPort x port
    let ipcPorts ← btreeInsert (fun iter => ipcpPort x < ipcpPort iter) x s.ipcPorts
    let ipcp := { s.ipcp x with
      ipcpFlags := ((s.ipcp x).ipcpFlags &&& ~~~ ipcPortFlagNew) ||| flags }
    pure ({ s with ipcPorts, ipcpPort, ipcp := update s.ipcp x ipcp }, .ok ())

def ipcPortAllocateRound (x : π) (flags : UInt32) (s : PortTable π τ) :
    Outcome (PortTable π τ ⊕ PortTable π τ × Except Errno UInt32) :=
  if s.ipcPortNext < ipcPortUnreservedStart then
    pure (.inl { s with ipcPortNext := ipcPortUnreservedStart })
  else do
    let port := s.ipcPortNext
    let s := { s with ipcPortNext := port + 1 }
    match ← ipcPortLookup port s with
    | some _ => pure (.inl s)
    | none =>
      match ← ipcPortRegister x port flags s with
      | (_, .error _) => .error .panic
      | (s, .ok ()) => pure (.inr (s, .ok port))

/-- The part of `ipc_port_allocate` under the lock of the tree. No number comes a second time before
all have come. -/
def ipcPortAllocateLocked (x : π) (flags : UInt32) (s : PortTable π τ) :
    Outcome (PortTable π τ × Except Errno UInt32) :=
  loop (ipcPortAllocateRound x flags) (2 ^ 32 + 2) s

def ipcPortAllocate (mem : Bool) (new : Option π) (task : τ) (flags : UInt32)
    (s : PortTable π τ) : Outcome (PortTable π τ × Except Errno UInt32) := do
  let (s, x) ← ipcPortAlloc mem new task s
  ipcPortAllocateLocked x flags s

def ipcPortAllocateReserved (mem : Bool) (new : Option π) (task : τ) (port flags : UInt32)
    (s : PortTable π τ) : Outcome (PortTable π τ × Except Errno Unit) :=
  if port = ipcPortUnknown ∨ ipcPortUnreservedStart ≤ port then pure (s, .error .invalid)
  else do
    match ← ipcPortLookup port s with
    | some _ => pure (s, .error .notFree)
    | none =>
      let (s, x) ← ipcPortAlloc mem new task s
      match ← ipcPortRegister x port flags s with
      | (_, .error _) => .error .panic
      | (s, .ok ()) => pure (s, .ok ())

/-! ## Allocation and registration -/

/-- What `ipc_port_alloc` does to the tree: nothing. -/
structure Allocated (s s' : PortTable π τ) (x : π) : Prop where
  sound : s'.Sound
  pending : s'.Pending x
  registered : ∀ y, s'.Registered y ↔ s.Registered y
  pendingOf : ∀ y, s.Pending y → s'.Pending y
  ipcpPort : ∀ y ≠ x, s'.ipcpPort y = s.ipcpPort y
  ipcp : ∀ y ≠ x, s'.ipcp y = s.ipcp y
  ipcPortNext : s'.ipcPortNext = s.ipcPortNext

theorem Sound.alloc (hx : ¬ s.Registered x) (ipcp : IpcPort τ) : Allocated s { s with
      ipcPorts := s.ipcPorts.clear x
      ipcpPort := update s.ipcpPort x ipcPortUnknown
      ipcp := update s.ipcp x ipcp } x := by
  obtain ⟨T, hT, hk⟩ := h
  have hxT : x ∉ T.inorder := fun hm => hx (hT.mem_iff.mp hm)
  have hreg : ∀ y, (s.ipcPorts.clear x).Reaches y ↔ s.ipcPorts.Reaches y := fun y => by
    rw [← (hT.clear hxT).mem_iff, hT.mem_iff]
  refine ⟨⟨T, hT.clear hxT, hk.congr fun y hy => ?_⟩, ⟨fun hr => hx ((hreg x).mp hr), ?_, ?_⟩,
    hreg, fun y hy => ⟨fun hr => hy.unregistered ((hreg y).mp hr), ?_, ?_⟩, fun y hy => ?_,
    fun y hy => ?_, rfl⟩
  · have hne : y ≠ x := fun e => hxT (e ▸ hy)
    exact congrArg UInt32.toNat (update_of_ne hne _ _)
  · simp [LinkedTree.clear]
  · simp [LinkedTree.clear]
  · simp [hy.left]
  · simp [hy.right]
  · exact update_of_ne hy _ _
  · exact update_of_ne hy _ _

theorem Sound.alloc_guarded {mem : Bool} {new : Option π} {task : τ}
    (hn : ∀ x, new = some x → ¬ s.Registered x) :
    Guarded (mem = true ∧ new ≠ none) (s.ipcPortAlloc mem new task) fun r =>
      (mem = true ∧ new ≠ none) ∧ new = some r.2 ∧ Allocated s r.1 r.2 := by
  rw [ipcPortAlloc.eq_def]
  cases new with
  | none => exact guarded_error fun hm => hm.2 rfl
  | some x =>
    cases mem with
    | false => exact guarded_error fun hm => Bool.false_ne_true hm.1
    | true =>
      obtain ⟨ipcp, ha⟩ : ∃ ipcp, Glatt.ipcPortAlloc true task = .ok ipcp := ⟨_, rfl⟩
      simp only [ha]
      exact guarded_pure ⟨⟨trivial, some_ne_none x⟩, rfl, h.alloc (hn x rfl) ipcp⟩

/-- What the registration of a structure under a new number does. -/
structure RegisteredAs (s s' : PortTable π τ) (x : π) (port flags : UInt32) : Prop where
  sound : s'.Sound
  registered : ∀ y, s'.Registered y ↔ y = x ∨ s.Registered y
  pendingOf : ∀ y ≠ x, s.Pending y → s'.Pending y
  ipcpPort : s'.ipcpPort = update s.ipcpPort x port
  ipcp : s'.ipcp = update s.ipcp x { s.ipcp x with
    ipcpFlags := ((s.ipcp x).ipcpFlags &&& ~~~ ipcPortFlagNew) ||| flags }
  ipcPortNext : s'.ipcPortNext = s.ipcPortNext

theorem Sound.register (hx : s.Pending x) : Ensures (ipcPortRegister x port flags s) fun r =>
      ((∃ y, ipcPortLookup port s = .ok (some y)) ∧ r = (s, .error .notFree)) ∨
      (ipcPortLookup port s = .ok none ∧ r.2 = .ok () ∧ RegisteredAs s r.1 x port flags) := by
  obtain ⟨r, hr, -, hno⟩ := h.lookup port
  rw [ipcPortRegister, hr]
  cases r with
  | some y => exact .ret (.inl ⟨⟨y, rfl⟩, rfl⟩)
  | none =>
    have hf := hno.mp rfl
    obtain ⟨T, hT, hk⟩ := h
    have hxT : x ∉ T.inorder := fun hm => hx.unregistered (hT.mem_iff.mp hm)
    have hn : ∀ y ∈ T.inorder, update s.ipcpPort x port y = s.ipcpPort y := by
      intro y hy
      have hne : y ≠ x := fun e => hxT (e ▸ hy)
      exact update_of_ne hne _ _
    refine (btreeInsert_spec hT _ hxT hx.left hx.right).bind ?_
    rintro tree ⟨hT', hln⟩
    refine .ret (.inr ⟨rfl, rfl, ⟨_, hT', ?_⟩, fun y => ?_, fun y hy hp => ?_, rfl, rfl,
      rfl⟩)
    -- the number is new in the tree
    · refine (hk.congr fun y hy => congrArg _ (hn y hy)).insert (fun y hy => ?_) fun y hy => ?_
      · rw [decide_eq_true_iff, UInt32.lt_iff_toNat_lt]
      · rw [hn y hy, update_self, Ne, UInt32.toNat_inj]
        exact hf y (hT.mem_iff.mp hy)
    · exact hT'.mem_iff.symm.trans (mem_inorder_insert.trans (or_congr_right hT.mem_iff))
    -- the links of the other structures outside the tree are as before
    · have hyT : y ∉ T.inorder := fun hm => hp.unregistered (hT.mem_iff.mp hm)
      obtain ⟨hl, hr, -⟩ := hln y hyT hy
      refine ⟨fun hreg => ?_, hl.trans hp.left, hr.trans hp.right⟩
      rcases mem_inorder_insert.mp (hT'.mem_iff.mpr hreg) with rfl | hm
      · exact hy rfl
      · exact hyT hm

/-! ## The ports by number -/

def view (s : PortTable π τ) : IpcState τ where
  ipcPorts port :=
    match ipcPortLookup port s with
    | .ok (some x) => some (s.ipcp x)
    | _ => none
  ipcPortNext := s.ipcPortNext

omit h in
omit [DecidableEq π] in
theorem view_ipcPorts {r : Option π} (hl : ipcPortLookup port s = .ok r) :
    s.view.ipcPorts port = r.map s.ipcp := by
  simp only [view, hl]
  cases r with
  | none => rfl
  | some x => rfl

omit [DecidableEq π] in
theorem Sound.view_eq_none_iff : s.view.ipcPorts port = none ↔ ipcPortLookup port s = .ok none := by
  obtain ⟨r, hr, -⟩ := h.lookup port
  rw [view_ipcPorts hr, hr, map_eq_none_iff, Except.ok.injEq]

theorem RegisteredAs.lookup (hx : s.Pending x) (hr : RegisteredAs s s' x port flags) (q : UInt32) :
    ipcPortLookup q s' = if q = port then .ok (some x) else ipcPortLookup q s := by
  split
  · rename_i hq
    refine hr.sound.lookup_eq_some_iff.mpr ⟨(hr.registered x).mpr (.inl rfl), ?_⟩
    rw [hr.ipcpPort, update_self, hq]
  · rename_i hq
    obtain ⟨r, hl, hs, hno⟩ := h.lookup q
    have hn : ∀ y, s.Registered y → s'.ipcpPort y = s.ipcpPort y := by
      intro y hy
      have hne : y ≠ x := fun e => hx.unregistered (e ▸ hy)
      rw [hr.ipcpPort, update_of_ne hne]
    rw [hl]
    cases r with
    | some y =>
      obtain ⟨hy, hyq⟩ := (hs y).mp rfl
      exact hr.sound.lookup_eq_some_iff.mpr ⟨(hr.registered y).mpr (.inr hy), hn y hy ▸ hyq⟩
    | none =>
      refine hr.sound.lookup_eq_none_iff.mpr fun y hy => ?_
      rcases (hr.registered y).mp hy with rfl | hy
      · rw [hr.ipcpPort, update_self]
        exact symm hq
      · rw [hn y hy]
        exact hno.mp rfl y hy

theorem RegisteredAs.view (hx : s.Pending x)
    (hf : ipcPortLookup port s = .ok none) (hr : RegisteredAs s s' x port flags) :
    Glatt.ipcPortRegister (s.ipcp x) port flags s.view = (s'.view, .ok ()) := by
  rw [Glatt.ipcPortRegister, h.view_eq_none_iff.mpr hf]
  refine Prod.ext (congrArg₂ IpcState.mk (funext fun q => ?_) hr.ipcPortNext.symm) rfl
  obtain ⟨r, hl, hs, -⟩ := h.lookup q
  change _ = s'.view.ipcPorts q
  by_cases hq : q = port
  · have hl' := hr.lookup h hx q
    rw [if_pos hq] at hl'
    rw [view_ipcPorts hl', map_some, hr.ipcp, update_self, hq, update_self]
  · have hl' := hr.lookup h hx q
    rw [if_neg hq, hl] at hl'
    rw [update_of_ne hq, view_ipcPorts hl, view_ipcPorts hl']
    cases r with
    | none => rfl
    | some y =>
      have hne : y ≠ x := fun e => hx.unregistered (e ▸ ((hs y).mp rfl).1)
      rw [map_some, map_some, hr.ipcp, update_of_ne hne]

theorem Sound.write_view (x : π) (ipcp : IpcPort τ) :
    (s.Registered x → view { s with ipcp := update s.ipcp x ipcp } =
      s.view.setPort (s.ipcpPort x) ipcp) ∧
    (¬ s.Registered x → view { s with ipcp := update s.ipcp x ipcp } = s.view) := by
  have hv : ∀ {q r}, ipcPortLookup q s = .ok r →
      (view { s with ipcp := update s.ipcp x ipcp }).ipcPorts q = r.map (update s.ipcp x ipcp) :=
    fun hl => view_ipcPorts hl
  -- the other ports are as before
  have ho : ∀ {r : Option π}, r ≠ some x → r.map (update s.ipcp x ipcp) = r.map s.ipcp := by
    rintro (_ | y) hne
    · rfl
    · exact congrArg some (update_of_ne (fun he => hne (congrArg some he)) _ _)
  refine ⟨fun hx => congrArg₂ IpcState.mk (funext fun q => ?_) rfl,
    fun hx => congrArg₂ IpcState.mk (funext fun q => ?_) rfl⟩
  · obtain ⟨r, hq, hs, -⟩ := h.lookup q
    refine (hv hq).trans ?_
    by_cases hn : q = s.ipcpPort x
    · obtain rfl := (hs x).mpr ⟨hx, hn.symm⟩
      rw [hn, update_self]
      exact congrArg some (update_self ..)
    · rw [update_of_ne hn, view_ipcPorts hq, ho fun hr => hn ((hs x).mp hr).2.symm]
  · obtain ⟨r, hq, hs, -⟩ := h.lookup q
    exact (hv hq).trans ((ho fun hr => hx ((hs x).mp hr).1).trans (view_ipcPorts hq).symm)

omit [DecidableEq π] in
theorem Allocated.lookup (hx : ¬ s.Registered x) (ha : Allocated s s' x)
    (q : UInt32) : ipcPortLookup q s' = ipcPortLookup q s := by
  obtain ⟨r, hl, hs, hno⟩ := h.lookup q
  have hn : ∀ y, s.Registered y → s'.ipcpPort y = s.ipcpPort y :=
    fun y hy => ha.ipcpPort y fun e => hx (e ▸ hy)
  rw [hl]
  cases r with
  | some y =>
    obtain ⟨hy, hyq⟩ := (hs y).mp rfl
    exact ha.sound.lookup_eq_some_iff.mpr ⟨(ha.registered y).mpr hy, hn y hy ▸ hyq⟩
  | none =>
    refine ha.sound.lookup_eq_none_iff.mpr fun y hy => ?_
    rw [ha.registered] at hy
    rw [hn y hy]
    exact hno.mp rfl y hy

omit [DecidableEq π] in
theorem Allocated.view (hx : ¬ s.Registered x) (ha : Allocated s s' x) : s'.view = s.view := by
  refine congrArg₂ IpcState.mk (funext fun q => ?_) ha.ipcPortNext
  change s'.view.ipcPorts q = s.view.ipcPorts q
  obtain ⟨r, hl, hs, -⟩ := h.lookup q
  rw [view_ipcPorts hl, view_ipcPorts ((ha.lookup h hx q).trans hl)]
  cases r with
  | none => rfl
  | some y =>
    have hne : y ≠ x := fun e => hx (e ▸ ((hs y).mp rfl).1)
    rw [map_some, map_some, ha.ipcp y hne]

/-! ## The search for a number

The counter is not part of the tree: the rounds of the search leave it as it is. -/

omit [DecidableEq π] in
theorem Sound.setNext (next : UInt32) : Sound { s with ipcPortNext := next } := h

omit h in
omit [DecidableEq π] in
theorem Pending.setNext (h : s.Pending x) (next : UInt32) :
    Pending { s with ipcPortNext := next } x := ⟨h.unregistered, h.left, h.right⟩

def registerNumber (x : π) (flags port next : UInt32) (s : PortTable π τ) :
    Outcome (PortTable π τ × Except Errno UInt32) := do
  match ← ipcPortRegister x port flags { s with ipcPortNext := next } with
  | (_, .error _) => .error .panic
  | (s, .ok ()) => pure (s, .ok port)

theorem Sound.allocateLocked_eq : ipcPortAllocateLocked x flags s =
      ipcPortNumber s.view >>= fun r => registerNumber x flags r.1 r.2 s := by
  rw [ipcPortNumber, ipcPortAllocateLocked]
  generalize 2 ^ 32 + 2 = n
  have hk : s = { s with ipcPortNext := s.view.ipcPortNext } := rfl
  generalize s.view.ipcPortNext = k at hk
  conv_lhs => rw [hk]
  clear hk
  -- only the counter changes from round to round
  induction n generalizing k with
  | zero => rfl
  | succ n ih =>
    rw [loop, loop, ipcPortAllocateRound]
    by_cases hlow : k < ipcPortUnreservedStart
    · rw [if_pos hlow, if_pos hlow]
      exact ih _
    · rw [if_neg hlow, if_neg hlow]
      obtain ⟨r, hl, -⟩ := h.lookup k
      have hl' : ipcPortLookup k { s with ipcPortNext := k + 1 } = .ok r := hl
      simp only [hl', view_ipcPorts hl]
      cases r with
      | some y => exact ih _
      | none =>
        change _ = registerNumber x flags k (k + 1) s
        rw [registerNumber]
        cases ipcPortRegister x k flags { s with ipcPortNext := k + 1 } with
        | error e => rfl
        | ok r =>
          obtain ⟨t, r⟩ := r
          cases r with
          | error e => rfl
          | ok u => rfl

theorem Sound.allocateLocked (hx : s.Pending x) :
    Guarded (∃ p, ipcPortUnreservedStart ≤ p ∧ ipcPortLookup p s = .ok none)
      (ipcPortAllocateLocked x flags s) fun r => ∃ port next,
        ipcPortNumber s.view = .ok (port, next) ∧ r.2 = .ok port ∧ ipcPortUnreservedStart ≤ port ∧
        ipcPortLookup port s = .ok none ∧
        RegisteredAs { s with ipcPortNext := next } r.1 x port flags := by
  rw [h.allocateLocked_eq]
  have hn : Guarded (∃ p, ipcPortUnreservedStart ≤ p ∧ ipcPortLookup p s = .ok none)
      (ipcPortNumber s.view) fun r => ipcPortNumber s.view = .ok r ∧
        ipcPortLookup r.1 s = .ok none ∧ ipcPortUnreservedStart ≤ r.1 := by
    refine ⟨fun r hr => ?_, fun ⟨p, hp, hf⟩ => ?_⟩
    · obtain ⟨hf, hs⟩ := ipcPortNumber_spec r hr
      exact ⟨hr, h.view_eq_none_iff.mp hf, hs⟩
    · obtain ⟨r, hr, -⟩ := ipcPortNumber_returns hp (h.view_eq_none_iff.mpr hf)
      exact ⟨r, hr⟩
  refine hn.bind ?_
  rintro ⟨port, next⟩ ⟨hr, hf, hs⟩
  rw [registerNumber]
  refine (((h.setNext next).register (hx.setNext next)).bind ?_).guarded
  rintro ⟨t, r⟩ (⟨⟨y, hy⟩, -⟩ | ⟨-, hr', hreg⟩)
  · have hy' : ipcPortLookup port s = .ok (some y) := hy
    rw [hf] at hy'
    cases hy'
  · subst hr'
    exact .ret ⟨port, next, hr, rfl, hs, hf, hreg⟩

theorem Sound.allocate (hx : ¬ s.Registered x) (task : τ) (flags : UInt32)
    (hf : ∃ p, ipcPortUnreservedStart ≤ p ∧ ipcPortLookup p s = .ok none) :
    Ensures (ipcPortAllocate true (some x) task flags s) fun r => ∃ port, r.2 = .ok port ∧
      ipcPortUnreservedStart ≤ port ∧ ipcPortLookup port s = .ok none ∧ r.1.Sound ∧
      r.1.ipcpPort x = port ∧ (∀ y, r.1.Registered y ↔ y = x ∨ s.Registered y) ∧
      (∀ y ≠ x, r.1.ipcpPort y = s.ipcpPort y) ∧
      ∀ q, ipcPortLookup q r.1 = if q = port then .ok (some x) else ipcPortLookup q s := by
  obtain ⟨ipcp, hal⟩ : ∃ ipcp, Glatt.ipcPortAlloc true task = .ok ipcp := ⟨_, rfl⟩
  have ha := h.alloc hx ipcp
  simp only [ipcPortAllocate, ipcPortAlloc, hal, ok_bind, pure_bind]
  have hl := ha.lookup h hx
  simp only [← hl] at hf
  refine ((ha.sound.allocateLocked ha.pending).ensures hf).mono ?_
  rintro ⟨t, r⟩ ⟨port, next, -, hr, hs, hn, hreg⟩
  refine ⟨port, hr, hs, (hl port).symm.trans hn, hreg.sound, ?_, fun y => ?_,
    fun y hy => ?_, fun q => ?_⟩
  · rw [hreg.ipcpPort, update_self]
  · exact (hreg.registered y).trans (or_congr_right (ha.registered y))
  · rw [hreg.ipcpPort, update_of_ne hy]
    exact ha.ipcpPort y hy
  · rw [hreg.lookup (ha.sound.setNext next) (ha.pending.setNext next), ← hl]
    rfl

end

end PortTable

/-! ## Interleaved calls -/

variable [DecidableEq π]

/-- The ports, and the structures that have been prepared and not been registered yet. -/
structure PortMachine (π τ : Type) [LinearOrder τ] where
  table : PortTable π τ
  pending : List π

/-- The parts of the calls that change the ports: `ipc_port_alloc`, the registrations of
`ipc_port_allocate` and `ipc_port_allocate_reserved` under the lock of the tree, and a change of a
port that leaves its number and its links. -/
inductive PortCall (π τ : Type) [LinearOrder τ]
  | alloc (x : π) (task : τ)
  | allocate (x : π) (flags : UInt32)
  | register (x : π) (port flags : UInt32)
  | write (x : π) (ipcp : IpcPort τ)

/-- **One step**: `pool_allocate` returns no structure that is in use, and a call registers the
structure that it has prepared. -/
inductive PortStep : PortMachine π τ → PortCall π τ → PortMachine π τ → Prop
  | alloc {s : PortMachine π τ} {mem x task t} : x ∉ s.pending → ¬ s.table.Registered x →
      PortTable.ipcPortAlloc mem (some x) task s.table = .ok (t, x) →
      PortStep s (.alloc x task) ⟨t, x :: s.pending⟩
  | allocate {s : PortMachine π τ} {x flags t r} : x ∈ s.pending →
      PortTable.ipcPortAllocateLocked x flags s.table = .ok (t, r) →
      PortStep s (.allocate x flags) ⟨t, s.pending.erase x⟩
  | register {s : PortMachine π τ} {x port flags t r} : x ∈ s.pending →
      PortTable.ipcPortRegister x port flags s.table = .ok (t, r) →
      PortStep s (.register x port flags) ⟨t, s.pending.erase x⟩
  | write {s : PortMachine π τ} {x ipcp} :
      PortStep s (.write x ipcp)
        { s with table := { s.table with ipcp := update s.table.ipcp x ipcp } }

/-- The ports form a search tree, and the structures outside it can be registered, once each. -/
structure PortMachine.Sound (s : PortMachine π τ) : Prop where
  table : s.table.Sound
  nodup : s.pending.Nodup
  pending : ∀ x ∈ s.pending, s.table.Pending x

variable {s₀ s s' : PortMachine π τ} {x : π} {h : List (PortMachine π τ × PortCall π τ)}

theorem PortMachine.Sound.registered (hs : s.Sound) {t : PortTable π τ} {port next flags : UInt32}
    (hr : PortTable.RegisteredAs { s.table with ipcPortNext := next } t x port flags) :
    PortMachine.Sound ⟨t, s.pending.erase x⟩ := by
  refine ⟨hr.sound, hs.nodup.erase x, fun y hy => ?_⟩
  obtain ⟨hne, hy⟩ := hs.nodup.mem_erase_iff.mp hy
  exact hr.pendingOf y hne ((hs.pending y hy).setNext next)

theorem PortMachine.Sound.step (hs : s.Sound) {c : PortCall π τ} (hst : PortStep s c s') :
    s'.Sound := by
  cases hst with
  | @alloc mem x task t hx hreg ht =>
    obtain ⟨-, -, ha⟩ := (hs.table.alloc_guarded fun y hy => some.inj hy ▸ hreg).yields _ ht
    refine ⟨ha.sound, nodup_cons.mpr ⟨hx, hs.nodup⟩, forall_mem_cons.mpr
      ⟨ha.pending, fun y hy => ha.pendingOf y (hs.pending y hy)⟩⟩
  | @allocate x flags t r hx ht =>
    obtain ⟨port, next, -, -, -, -, hreg⟩ := (hs.table.allocateLocked (hs.pending x hx)).yields _ ht
    exact hs.registered hreg
  | @register x port flags t r hx ht =>
    rcases (hs.table.register (hs.pending x hx)).yields _ ht with ⟨-, hsm⟩ | ⟨-, -, hreg⟩
    · cases hsm
      exact ⟨hs.table, hs.nodup.erase x, fun y hy => hs.pending y (mem_of_mem_erase hy)⟩
    · have hreg' : PortTable.RegisteredAs { s.table with ipcPortNext := s.table.ipcPortNext } t x
          port flags := hreg
      exact hs.registered hreg'
  | write =>
    exact ⟨hs.table, hs.nodup, fun y hy =>
      ⟨(hs.pending y hy).unregistered, (hs.pending y hy).left, (hs.pending y hy).right⟩⟩

/-- **Port numbers.** In every run, from any ports and any value of the counter, no two registered
ports have one number and each is found under its own. While some number outside the reserved ones
is free, `ipc_port_allocate` returns one that was, neither `IPC_PORT_UNKNOWN` nor reserved, under
which the new port is found; the other ports keep theirs. -/
theorem port_numbers_distinct (h₀ : s₀.Sound) (hr : Run PortStep s₀ h s) :
    (∀ x y, s.table.Registered x → s.table.Registered y →
      s.table.ipcpPort x = s.table.ipcpPort y → x = y) ∧
    (∀ x, s.table.Registered x →
      PortTable.ipcPortLookup (s.table.ipcpPort x) s.table = .ok (some x)) ∧
    ∀ x (task : τ) flags, ¬ s.table.Registered x →
      (∃ p, ipcPortUnreservedStart ≤ p ∧ ∀ y, s.table.Registered y → s.table.ipcpPort y ≠ p) →
      Ensures (PortTable.ipcPortAllocate true (some x) task flags s.table) fun r => ∃ port,
        r.2 = .ok port ∧ (∀ y, s.table.Registered y → s.table.ipcpPort y ≠ port) ∧
        port ≠ ipcPortUnknown ∧ ipcPortUnreservedStart ≤ port ∧
        r.1.ipcpPort x = port ∧ PortTable.ipcPortLookup port r.1 = .ok (some x) ∧
        ∀ y, s.table.Registered y → r.1.ipcpPort y = s.table.ipcpPort y ∧
          PortTable.ipcPortLookup (s.table.ipcpPort y) r.1 = .ok (some y) := by
  have hs : s.Sound := hr.invariant h₀ fun _ _ _ _ _ hs hsp => hs.step hsp
  refine ⟨fun x y hx hy => hs.table.eq_of_ipcpPort_eq hx hy,
    fun x hx => hs.table.lookup_eq_some_iff.mpr ⟨hx, rfl⟩, ?_⟩
  rintro x task flags hx ⟨p, hp, hf⟩
  refine (hs.table.allocate hx task flags ⟨p, hp, hs.table.lookup_eq_none_iff.mpr hf⟩).mono ?_
  rintro ⟨t, r⟩ ⟨port, hpr, hst, hno, -, hnm, -, hn, hl⟩
  have hnew := hs.table.lookup_eq_none_iff.mp hno
  refine ⟨port, hpr, hnew, ?_, hst, hnm, ?_, fun y hy => ⟨?_, ?_⟩⟩
  · rintro rfl
    exact absurd hst (by decide)
  · rw [hl, if_pos rfl]
  · exact hn y fun e => hx (e ▸ hy)
  · rw [hl, if_neg (hnew y hy)]
    exact hs.table.lookup_eq_some_iff.mpr ⟨hy, rfl⟩

def lastNumber : PortMachine ℕ ℕ :=
  ⟨⟨LinkedTree.empty, fun _ => 0, fun _ => ⟨0, [], .empty⟩, 0xffffffff⟩, []⟩

/-- The counter wraps around when the last number has been given, and the next port gets a number
that is not reserved. -/
theorem port_numbers_distinct_wrap : ∃ h s, Run PortStep lastNumber h s ∧
    s.table.ipcPortNext = 0 ∧ PortTable.ipcPortLookup 0xffffffff s.table = .ok (some 7) ∧
    Ensures (PortTable.ipcPortAllocate true (some 8) 1 0 s.table) fun r => ∃ port,
      r.2 = .ok port ∧ ipcPortUnreservedStart ≤ port ∧
      PortTable.ipcPortLookup port r.1 = .ok (some 8) ∧
      PortTable.ipcPortLookup 0xffffffff r.1 = .ok (some 7) := by
  obtain ⟨he, hno⟩ := PortTable.sound_of_empty (s := lastNumber.table) rfl
  have h₀ : lastNumber.Sound := ⟨he, nodup_nil, forall_mem_nil _⟩
  have hr₁ := Run.nil.snoc (@PortStep.alloc _ _ _ _ lastNumber true 7 1 _ not_mem_nil (hno 7) rfl)
  have hr₂ := hr₁.snoc (@PortStep.allocate _ _ _ _ _ 7 0 _ _ mem_cons_self rfl)
  obtain ⟨h, s, hr, hnx, hf, hn, ht⟩ : ∃ h s, Run PortStep lastNumber h s ∧
      s.table.ipcPortNext = 0 ∧ PortTable.ipcPortLookup 0xffffffff s.table = .ok (some 7) ∧
      s.table.ipcpPort 7 = 0xffffffff ∧ s.table.ipcPorts.Represents (.node 7 .nil .nil) :=
    ⟨_, _, hr₂, rfl, rfl, rfl, ⟨rfl, rfl, rfl, rfl⟩, nodup_singleton 7, Nat.le_refl 1⟩
  have ho : ∀ y, s.table.Registered y → y = 7 := fun y hy => mem_singleton.mp (ht.mem_iff.mpr hy)
  obtain ⟨-, -, ha⟩ := port_numbers_distinct h₀ hr
  refine ⟨h, s, hr, hnx, hf, (ha 8 1 0 (fun h₈ => ?_) ⟨3, UInt32.le_refl 3, ?_⟩).mono ?_⟩
  · exact absurd (ho 8 h₈) (by decide)
  · intro y hy
    rw [ho y hy, hn]
    decide
  · rintro r ⟨port, hp, -, -, hs, -, hnew, hot⟩
    have hold := (hot 7 (ht.mem_iff.mp (mem_singleton_self 7))).2
    rw [hn] at hold
    exact ⟨port, hp, hs, hnew, hold⟩

/-! ## The tree as a map -/

def PortCall.OnView (s : PortTable π τ) (ipc : IpcState τ) : PortCall π τ → Prop
  | alloc _ _ => ipc = s.view
  | allocate x flags => ∃ port next, ipcPortNumber s.view = .ok (port, next) ∧
      ipcPortRegister (s.ipcp x) port flags { s.view with ipcPortNext := next } = (ipc, .ok ())
  | register x port flags => ipc = (ipcPortRegister (s.ipcp x) port flags s.view).1
  | write x ipcp => (s.Registered x → ipc = s.view.setPort (s.ipcpPort x) ipcp) ∧
      (¬ s.Registered x → ipc = s.view)

/-- **The tree is a map from numbers to ports.** In every run each call does to the tree what it
does to the ports by number. -/
theorem port_tree_refines (h₀ : s₀.Sound) (hr : Run PortStep s₀ h s) {c : PortCall π τ}
    (hst : PortStep s c s') : c.OnView s.table s'.table.view := by
  have hs : s.Sound := hr.invariant h₀ fun _ _ _ _ _ hs hsp => hs.step hsp
  cases hst with
  | @alloc mem x task t hx hreg ht =>
    obtain ⟨-, -, ha⟩ := (hs.table.alloc_guarded fun y hy => some.inj hy ▸ hreg).yields _ ht
    exact ha.view hs.table hreg
  | @allocate x flags t r hx ht =>
    have hp := hs.pending x hx
    obtain ⟨port, next, hn, -, -, hf, hreg⟩ := (hs.table.allocateLocked hp).yields _ ht
    exact ⟨port, next, hn, hreg.view (hs.table.setNext next) (hp.setNext next) hf⟩
  | @register x port flags t r hx ht =>
    have hp := hs.pending x hx
    rcases (hs.table.register hp).yields _ ht with ⟨⟨y, hy⟩, hsm⟩ | ⟨hf, -, hreg⟩
    · -- a port has the number
      cases hsm
      simp only [PortCall.OnView, ipcPortRegister, PortTable.view_ipcPorts hy]
      rfl
    · exact (congrArg Prod.fst (hreg.view hs.table hp hf)).symm
  | @write x ipcp => exact hs.table.write_view x ipcp

/-- The last number is given to a port. -/
theorem port_tree_refines_last : ∃ h s s', Run PortStep lastNumber h s ∧
    PortStep s (.allocate 7 0) s' ∧ PortCall.OnView s.table s'.table.view (.allocate 7 0) := by
  obtain ⟨he, hno⟩ := PortTable.sound_of_empty (s := lastNumber.table) rfl
  have hr := Run.nil.snoc (@PortStep.alloc _ _ _ _ lastNumber true 7 1 _ not_mem_nil (hno 7) rfl)
  obtain ⟨h, s, s', hr, hst⟩ : ∃ h s s', Run PortStep lastNumber h s ∧
      PortStep s (.allocate 7 0) s' :=
    ⟨_, _, _, hr, @PortStep.allocate _ _ _ _ _ 7 0 _ _ mem_cons_self rfl⟩
  exact ⟨h, s, s', hr, hst, port_tree_refines ⟨he, nodup_nil, forall_mem_nil _⟩ hr hst⟩

end Glatt
