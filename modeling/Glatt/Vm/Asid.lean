import Glatt.Lib.Transition
import Mathlib.Data.Finset.Insert

/-!
# Address space identifiers

The TLB tells address spaces apart by an identifier of eight bits. Each CPU has a counter for them,
`asidnext`, and `pmap_alloc_asid` draws the next one: in `pmap_pinit` when a page table is created,
and in `pmap_activate` when it is first used on a CPU. After 255 the counter goes back to 1, and the
page tables that have the identifiers keep them.

The memory of the CPU is zeroed at its start, and `pmap_startup` sets the counter to 1, but it runs
on the CPU that boots only.

## Main definitions

* `AsidState`, `AsidStep`: CPUs that draw and use identifiers

## Main results

* `active_asids_unique`: the identifiers are unique for the first 255 draws of a CPU
* `active_asids_collide`: two page tables that are active with one identifier
-/

namespace Glatt

open Transition Function List

variable {κ ν : Type} [DecidableEq κ] [DecidableEq ν]

/-! ## The functions -/

def pmapAsidReserved : ℕ := 0

def pmapAsidFirst : ℕ := 1

def pmapAsidMax : ℕ := 255

/-- The part of `struct pmap` that is for the CPUs: those on which it is active, and its identifier
on each. -/
structure CpuPmap (κ : Type) where
  pmActive : Finset κ
  pmAsid : κ → ℕ

/-- The page tables, the next identifier of each CPU, and the identifier in its EntryHi. -/
structure AsidState (κ ν : Type) where
  pmap : ν → Option (CpuPmap κ)
  asidnext : κ → ℕ
  entryhi : κ → ℕ

def nextAsid (asid : ℕ) : ℕ := if asid = pmapAsidMax then pmapAsidFirst else asid + 1

def pmapAllocAsid (kernelVm vm : ν) (cpu : κ) (pm : CpuPmap κ) (asidnext : κ → ℕ) :
    CpuPmap κ × (κ → ℕ) :=
  if vm = kernelVm then ({ pm with pmAsid := fun _ => pmapAsidReserved }, asidnext)
  else
    ({ pm with pmAsid := update pm.pmAsid cpu (asidnext cpu) },
      update asidnext cpu (nextAsid (asidnext cpu)))

/-- `pmap_pinit` of a new page table, with the CPUs that are present and what the memory of
`pm_asid` contains. -/
def pmapPinit (kernelVm : ν) (cpu : κ) (vm : ν) (present : Finset κ) (memory : κ → ℕ)
    (s : AsidState κ ν) : AsidState κ ν :=
  let pm : CpuPmap κ := ⟨if vm = kernelVm then present else ∅, memory⟩
  let (pm, asidnext) := pmapAllocAsid kernelVm vm cpu pm s.asidnext
  { s with pmap := update s.pmap vm (some pm), asidnext }

/-- The part of `pmap_activate` that is for a page table never used on the CPU. -/
def pmapActivateNew (kernelVm : ν) (cpu : κ) (vm : ν) (pm : CpuPmap κ) (asidnext : κ → ℕ) :
    CpuPmap κ × (κ → ℕ) :=
  if cpu ∈ pm.pmActive then (pm, asidnext)
  else
    let (pm, asidnext) := pmapAllocAsid kernelVm vm cpu pm asidnext
    ({ pm with pmActive := insert cpu pm.pmActive }, asidnext)

def pmapActivate (kernelVm : ν) (cpu : κ) (vm : ν) (pm : CpuPmap κ) (s : AsidState κ ν) :
    AsidState κ ν :=
  let (pm, asidnext) := pmapActivateNew kernelVm cpu vm pm s.asidnext
  { pmap := update s.pmap vm (some pm)
    asidnext
    entryhi := update s.entryhi cpu (pm.pmAsid cpu) }

/-! ## Runs -/

inductive AsidEvent (κ ν : Type)
  | create (cpu : κ) (vm : ν) (present : Finset κ) (memory : κ → ℕ)
  | activate (cpu : κ) (vm : ν)

inductive AsidStep (kernelVm : ν) : AsidState κ ν → AsidEvent κ ν → AsidState κ ν → Prop
  | create {s c u p m} : s.pmap u = none →
      AsidStep kernelVm s (.create c u p m) (pmapPinit kernelVm c u p m s)
  | activate {s c u p} : s.pmap u = some p →
      AsidStep kernelVm s (.activate c u) (pmapActivate kernelVm c u p s)

def startAsid (boot : κ) : AsidState κ ν where
  pmap := fun _ => none
  asidnext := update (fun _ => 0) boot pmapAsidFirst
  entryhi := fun _ => pmapAsidReserved

def AsidState.ActiveAsid (s : AsidState κ ν) (c : κ) (vm : ν) (asid : ℕ) : Prop :=
  ∃ pm, s.pmap vm = some pm ∧ c ∈ pm.pmActive ∧ pm.pmAsid c = asid

def Draws (kernelVm : ν) (c : κ) (s : AsidState κ ν) : AsidEvent κ ν → Bool
  | .create cpu vm _ _ => cpu = c ∧ vm ≠ kernelVm
  | .activate cpu vm => cpu = c ∧ vm ≠ kernelVm ∧ (s.pmap vm).any (c ∉ ·.pmActive)

def draws (kernelVm : ν) (c : κ) (h : List (AsidState κ ν × AsidEvent κ ν)) : ℕ :=
  h.countP fun e => Draws kernelVm c e.1 e.2

/-- A page table is not activated on the CPU for the first time while its counter has the reserved
identifier. -/
def NotReserved (kernelVm : ν) (c : κ) (s : AsidState κ ν) : AsidEvent κ ν → Prop
  | .activate cpu vm =>
    Draws kernelVm c s (.activate cpu vm) → s.asidnext c ≠ pmapAsidReserved
  | .create _ _ _ _ => True

variable {kernelVm vm : ν} {c : κ} {s s' : AsidState κ ν} {e : AsidEvent κ ν}

/-! ## What a step does -/

omit [DecidableEq κ] [DecidableEq ν] in
theorem activeAsid_of_pmap_eq {asid : ℕ} (h : s'.pmap vm = s.pmap vm) :
    s'.ActiveAsid c vm asid ↔ s.ActiveAsid c vm asid := by
  rw [AsidState.ActiveAsid, AsidState.ActiveAsid, h]

theorem pmapPinit_user (hvm : vm ≠ kernelVm) (cpu : κ) (present : Finset κ) {memory : κ → ℕ} :
    (pmapPinit kernelVm cpu vm present memory s).pmap = update s.pmap vm
        (some ⟨∅, update memory cpu (s.asidnext cpu)⟩) ∧
      (pmapPinit kernelVm cpu vm present memory s).asidnext =
        update s.asidnext cpu (nextAsid (s.asidnext cpu)) := by
  simp only [pmapPinit, pmapAllocAsid, if_neg hvm, and_self]

theorem pmapActivate_new (hvm : vm ≠ kernelVm) {cpu : κ} {pm : CpuPmap κ}
    (hc : cpu ∉ pm.pmActive) :
    (pmapActivate kernelVm cpu vm pm s).pmap = update s.pmap vm
        (some ⟨insert cpu pm.pmActive, update pm.pmAsid cpu (s.asidnext cpu)⟩) ∧
      (pmapActivate kernelVm cpu vm pm s).asidnext =
        update s.asidnext cpu (nextAsid (s.asidnext cpu)) := by
  simp only [pmapActivate, pmapActivateNew, if_neg hc, pmapAllocAsid, if_neg hvm, and_self]

theorem pmapActivate_old {pm : CpuPmap κ} {cpu : κ} (hc : cpu ∈ pm.pmActive) :
    (pmapActivate kernelVm cpu vm pm s).pmap = update s.pmap vm (some pm) ∧
      (pmapActivate kernelVm cpu vm pm s).asidnext = s.asidnext := by
  simp only [pmapActivate, pmapActivateNew, if_pos hc, and_self]

theorem pmapAllocAsid_next (cpu : κ) (pm : CpuPmap κ) (asidnext : κ → ℕ) :
    (pmapAllocAsid kernelVm vm cpu pm asidnext).2 c =
      if cpu = c ∧ vm ≠ kernelVm then nextAsid (asidnext c) else asidnext c := by
  unfold pmapAllocAsid
  by_cases hvm : vm = kernelVm
  · simp [hvm]
  · by_cases hc : cpu = c
    · subst hc
      simp [hvm]
    · simp [hvm, hc, update_of_ne (symm hc)]

theorem AsidStep.asidnext (h : AsidStep kernelVm s e s') (c : κ) :
    s'.asidnext c = if Draws kernelVm c s e then nextAsid (s.asidnext c) else s.asidnext c := by
  cases h with
  | @create cpu vm present memory hn =>
    refine (pmapAllocAsid_next ..).trans ?_
    simp [Draws]
  | @activate cpu vm pm hp =>
    by_cases ha : cpu ∈ pm.pmActive
    · have hd : Draws kernelVm c s (.activate cpu vm) = false := by
        by_cases hc : cpu = c
        · subst hc
          simp [Draws, hp, ha]
        · simp [Draws, hc]
      rw [(pmapActivate_old ha).2, hd]
      rfl
    · simp only [pmapActivate, pmapActivateNew, if_neg ha, pmapAllocAsid_next]
      by_cases hc : cpu = c
      · subst hc
        simp [Draws, hp, ha]
      · simp [Draws, hc]

theorem AsidStep.activeAsid (h : AsidStep kernelVm s e s') (hvm : vm ≠ kernelVm) {asid : ℕ}
    (ha : s'.ActiveAsid c vm asid) :
    s.ActiveAsid c vm asid ∨
      e = .activate c vm ∧ Draws kernelVm c s e ∧ asid = s.asidnext c := by
  cases h with
  | @create cpu u present memory hn =>
    by_cases hu : vm = u
    · -- a new page table is active nowhere
      subst hu
      obtain ⟨pm, hp, hc, -⟩ := ha
      rw [(pmapPinit_user hvm ..).1, update_self] at hp
      obtain rfl := Option.some.inj hp
      cases hc
    · left
      rwa [← activeAsid_of_pmap_eq]
      exact update_of_ne hu _ _
  | @activate cpu u pm hp =>
    by_cases hu : vm = u
    · subst hu
      obtain ⟨pm', hp', hc, has⟩ := ha
      by_cases hac : cpu ∈ pm.pmActive
      · rw [(pmapActivate_old hac).1, update_self] at hp'
        obtain rfl := Option.some.inj hp'
        exact .inl ⟨pm, hp, hc, has⟩
      · rw [(pmapActivate_new hvm hac).1, update_self] at hp'
        obtain rfl := Option.some.inj hp'
        rcases Finset.mem_insert.mp hc with rfl | hc
        · refine .inr ⟨rfl, by simp [Draws, hvm, hp, hac], ?_⟩
          rw [← has]
          exact update_self ..
        · have hne : c ≠ cpu := fun e => hac (e ▸ hc)
          refine .inl ⟨pm, hp, hc, ?_⟩
          rw [← has]
          exact (update_of_ne hne _ _).symm
    · left
      rwa [← activeAsid_of_pmap_eq]
      exact update_of_ne hu _ _

/-! ## The invariant -/

/-- **The identifiers on a CPU** whose counter began at `start`, after `n` draws: as long as the
counter has not wrapped, those in use are below it. -/
structure AsidInvariant (kernelVm : ν) (c : κ) (start n : ℕ) (s : AsidState κ ν) : Prop where
  next : n < 255 → s.asidnext c = start + n
  below : n < 255 → ∀ vm asid, vm ≠ kernelVm → s.ActiveAsid c vm asid → asid < start + n
  unique : n ≤ 255 → ∀ vm vm' asid, vm ≠ kernelVm → vm' ≠ kernelVm → s.ActiveAsid c vm asid →
    s.ActiveAsid c vm' asid → vm = vm'
  reserved : ∀ vm asid, vm ≠ kernelVm → s.ActiveAsid c vm asid → asid ≠ pmapAsidReserved

variable {start n : ℕ}

theorem nextAsid_of_lt {asid : ℕ} (h : asid < 255) : nextAsid asid = asid + 1 :=
  if_neg (Nat.ne_of_lt h)

theorem AsidInvariant.step_same (h : AsidInvariant kernelVm c start n s)
    (hs : AsidStep kernelVm s e s') (hdr : ¬ Draws kernelVm c s e) :
    AsidInvariant kernelVm c start n s' := by
  have hnx : s'.asidnext c = s.asidnext c := by
    rw [hs.asidnext c, if_neg hdr]
  have hac {vm : ν} {asid : ℕ} (hvm : vm ≠ kernelVm) (ha : s'.ActiveAsid c vm asid) :
      s.ActiveAsid c vm asid := by
    rcases hs.activeAsid hvm ha with ha | ⟨-, hd, -⟩
    · exact ha
    · exact absurd hd hdr
  constructor
  · rw [hnx]
    exact h.next
  · exact fun hn vm asid hvm ha => h.below hn vm asid hvm (hac hvm ha)
  · exact fun hn vm vm' asid hvm hvm' ha ha' =>
      h.unique hn vm vm' asid hvm hvm' (hac hvm ha) (hac hvm' ha')
  · exact fun vm asid hvm ha => h.reserved vm asid hvm (hac hvm ha)

theorem AsidInvariant.step_draw (h : AsidInvariant kernelVm c start n s) (hst : start ≤ 1)
    (hs : AsidStep kernelVm s e s') (hd : Draws kernelVm c s e)
    (hr : NotReserved kernelVm c s e) : AsidInvariant kernelVm c start (n + 1) s' := by
  constructor
  · intro hn
    have hnx := h.next (by omega)
    rw [hs.asidnext c, if_pos hd, nextAsid_of_lt (by omega)]
    omega
  · intro hn vm asid hvm ha
    have hnx := h.next (by omega)
    rcases hs.activeAsid hvm ha with ha | ⟨-, -, rfl⟩
    · have := h.below (by omega) vm asid hvm ha
      omega
    · omega
  · intro hn vm vm' asid hvm hvm' ha ha'
    have hnx := h.next (by omega)
    rcases hs.activeAsid hvm ha with ha | ⟨he, -, has⟩
    · rcases hs.activeAsid hvm' ha' with ha' | ⟨-, -, has⟩
      · exact h.unique (by omega) vm vm' asid hvm hvm' ha ha'
      · have := h.below (by omega) vm asid hvm ha
        omega
    · rcases hs.activeAsid hvm' ha' with ha' | ⟨he', -, -⟩
      · have := h.below (by omega) vm' asid hvm' ha'
        omega
      · rw [he] at he'
        exact (AsidEvent.activate.inj he').2
  · intro vm asid hvm ha
    rcases hs.activeAsid hvm ha with ha | ⟨rfl, -, rfl⟩
    · exact h.reserved vm asid hvm ha
    · exact hr hd

theorem AsidInvariant.step {h : List (AsidState κ ν × AsidEvent κ ν)}
    (hs : AsidInvariant kernelVm c start (draws kernelVm c h) s) (hsr : start ≤ 1)
    (hst : AsidStep kernelVm s e s') (hr : NotReserved kernelVm c s e) :
    AsidInvariant kernelVm c start (draws kernelVm c (h ++ [(s, e)])) s' := by
  rw [draws, countP_append, countP_singleton]
  by_cases hd : Draws kernelVm c s e
  · rw [if_pos hd]
    exact hs.step_draw hsr hst hd hr
  · rw [if_neg hd]
    exact hs.step_same hst hd

omit [DecidableEq ν] in
theorem startAsid_next_le (boot : κ) : (startAsid boot : AsidState κ ν).asidnext c ≤ 1 := by
  unfold startAsid
  dsimp only
  by_cases hb : c = boot
  · rw [hb, update_self]
    rfl
  · rw [update_of_ne hb]
    exact Nat.zero_le 1

omit [DecidableEq ν] in
theorem asidInvariant_start (boot : κ) :
    AsidInvariant kernelVm c ((startAsid boot : AsidState κ ν).asidnext c) 0 (startAsid boot) := by
  refine ⟨fun _ => rfl, ?_, ?_, ?_⟩
  · rintro - vm asid - ⟨pm, hp, -⟩
    cases hp
  · rintro - vm - asid - - ⟨pm, hp, -⟩
    cases hp
  · rintro vm asid - ⟨pm, hp, -⟩
    cases hp

/-- **Identifiers are unique for the first 255 draws of a CPU.** In every run in which no page table
is first activated on the CPU while its counter has the reserved identifier, and at most 255 have
been drawn there, the active user page tables have different identifiers there, and none has the
reserved one. -/
theorem active_asids_unique {boot : κ} {h : List (AsidState κ ν × AsidEvent κ ν)}
    (hr : Run (AsidStep kernelVm) (startAsid boot) h s) (c : κ)
    (hres : ∀ e ∈ h, NotReserved kernelVm c e.1 e.2) (hdraws : draws kernelVm c h ≤ 255)
    (vm vm' : ν) (pm pm' : CpuPmap κ) (hvm : vm ≠ kernelVm) (hvm' : vm' ≠ kernelVm)
    (hpm : s.pmap vm = some pm) (hpm' : s.pmap vm' = some pm') (hc : c ∈ pm.pmActive)
    (hc' : c ∈ pm'.pmActive) :
    (vm ≠ vm' → pm.pmAsid c ≠ pm'.pmAsid c) ∧ pm.pmAsid c ≠ pmapAsidReserved := by
  have hinv : AsidInvariant kernelVm c ((startAsid boot : AsidState κ ν).asidnext c)
      (draws kernelVm c h) s := by
    refine hr.invariant (fun _ => asidInvariant_start boot) ?_ hres
    intro h s e s' _ ih hs hres
    obtain ⟨hb, hl⟩ := forall_mem_append.mp hres
    exact (ih hb).step (startAsid_next_le boot) hs (hl _ (mem_singleton_self _))
  refine ⟨fun hne heq => hne ?_, hinv.reserved vm _ hvm ⟨pm, hpm, hc, rfl⟩⟩
  exact hinv.unique hdraws vm vm' _ hvm hvm' ⟨pm, hpm, hc, rfl⟩ ⟨pm', hpm', hc', heq.symm⟩

/-- Two page tables are created and activated on one CPU. -/
theorem active_asids_unique_two : ∃ (h : List (AsidState (Fin 2) ℕ × AsidEvent (Fin 2) ℕ))
    (s : AsidState (Fin 2) ℕ) (pm pm' : CpuPmap (Fin 2)),
    Run (AsidStep 0) (startAsid 0) h s ∧ draws 0 0 h = 4 ∧ s.pmap 1 = some pm ∧
      s.pmap 2 = some pm' ∧ 0 ∈ pm.pmActive ∧ 0 ∈ pm'.pmActive ∧ pm.pmAsid 0 ≠ pm'.pmAsid 0 := by
  have hr₁ : Run (fun s e s' => AsidStep 0 s e s' ∧ NotReserved 0 (0 : Fin 2) s e)
      (startAsid 0) _ _ :=
    Run.nil.snoc ⟨AsidStep.create (c := 0) (u := 1) (p := ∅) (m := fun _ => 0) rfl, trivial⟩
  have hr₂ := hr₁.snoc ⟨AsidStep.activate (c := 0) (u := 1) rfl, fun _ => by decide⟩
  have hr₃ := hr₂.snoc
    ⟨AsidStep.create (c := 0) (u := 2) (p := ∅) (m := fun _ => 0) rfl, trivial⟩
  have hr₄ := hr₃.snoc ⟨AsidStep.activate (c := 0) (u := 2) rfl, fun _ => by decide⟩
  obtain ⟨h, s, pm, pm', hr, hd, hp, hp', hc, hc'⟩ : ∃ h s pm pm',
      Run (fun s e s' => AsidStep 0 s e s' ∧ NotReserved 0 (0 : Fin 2) s e) (startAsid 0) h s ∧
      draws 0 0 h = 4 ∧ s.pmap 1 = some pm ∧ s.pmap 2 = some pm' ∧ 0 ∈ pm.pmActive ∧
      0 ∈ pm'.pmActive :=
    ⟨_, _, _, _, hr₄, by decide, rfl, rfl, by decide, by decide⟩
  refine ⟨h, s, pm, pm', hr.of_and.1, hd, hp, hp', hc, hc', ?_⟩
  exact (active_asids_unique hr.of_and.1 0 hr.of_and.2 (by rw [hd]; decide) 1 2 pm pm'
    (by decide) (by decide) hp hp' hc hc').1 (by decide)

/-! ## The counter wraps -/

theorem exists_creates (first : ℕ) {s₀ s : AsidState κ ℕ} {h : List (AsidState κ ℕ × AsidEvent κ ℕ)}
    (hr : Run (AsidStep 0) s₀ h s) (c : κ) (hfr : 0 < first)
    (hf : ∀ vm, first ≤ vm → s.pmap vm = none) (n : ℕ) :
    ∃ h' s', Run (AsidStep 0) s₀ h' s' ∧ s'.asidnext c = nextAsid^[n] (s.asidnext c) ∧
      (∀ vm, vm < first → s'.pmap vm = s.pmap vm) ∧
      ∀ vm, first + n ≤ vm → s'.pmap vm = none := by
  induction n with
  | zero => exact ⟨h, s, hr, rfl, fun _ _ => rfl, hf⟩
  | succ n ih =>
    obtain ⟨h', s', hr', hn, hold, hf'⟩ := ih
    have hs : AsidStep 0 s' (.create c (first + n) ∅ fun _ => 0) _ :=
      AsidStep.create (hf' _ le_rfl)
    refine ⟨_, _, hr'.snoc hs, ?_, ?_, ?_⟩
    · rw [hs.asidnext c, if_pos, hn, iterate_succ_apply']
      simp only [Draws, decide_eq_true_eq, true_and]
      omega
    · intro vm hvm
      have hne : vm ≠ first + n := by omega
      rw [← hold vm hvm]
      exact update_of_ne hne _ _
    · intro vm hvm
      have hne : vm ≠ first + n := by omega
      rw [← hf' vm (by omega)]
      exact update_of_ne hne _ _

theorem exists_create_activate (vm : ℕ) {s₀ s : AsidState κ ℕ}
    {h : List (AsidState κ ℕ × AsidEvent κ ℕ)} (hr : Run (AsidStep 0) s₀ h s)
    (hvm : vm ≠ 0) (hf : s.pmap vm = none) :
    ∃ h' s' pm, Run (AsidStep 0) s₀ h' s' ∧ s'.asidnext c = nextAsid^[2] (s.asidnext c) ∧
      s'.pmap vm = some pm ∧ c ∈ pm.pmActive ∧ pm.pmAsid c = nextAsid (s.asidnext c) ∧
      ∀ vm', vm' ≠ vm → s'.pmap vm' = s.pmap vm' := by
  obtain ⟨hp₁, hn₁⟩ := pmapPinit_user hvm c ∅
  have hpm₁ := congrFun hp₁ vm
  rw [update_self] at hpm₁
  have hr₁ := hr.snoc (AsidStep.create (c := c) (p := ∅) (m := fun _ => 0) hf)
  have hr₂ := hr₁.snoc (AsidStep.activate (c := c) hpm₁)
  have hnot : c ∉ (CpuPmap.mk ∅ (update (fun _ => 0) c (s.asidnext c))).pmActive :=
    Finset.notMem_empty c
  obtain ⟨hp₂, hn₂⟩ := pmapActivate_new hvm hnot
  have hpm₂ := congrFun hp₂ vm
  rw [update_self] at hpm₂
  have hd : (pmapPinit 0 c vm ∅ (fun _ => 0) s).asidnext c = nextAsid (s.asidnext c) := by
    rw [hn₁, update_self]
  refine ⟨_, _, _, hr₂, ?_, hpm₂, Finset.mem_insert_self c ∅, ?_, fun vm' hne => ?_⟩
  · rw [hn₂, update_self, hd]
    rfl
  · exact (update_self ..).trans hd
  · rw [hp₂, update_of_ne hne, hp₁, update_of_ne hne]

/-- **Two page tables are active with one identifier.** The first one is activated with the
identifier 2. After 254 others have been created, the counter is at 2 again, and the last one of
them gets it too. On a CPU that has not booted the system, the first one gets the reserved
identifier. -/
theorem active_asids_collide :
    (∃ (h : List (AsidState (Fin 2) ℕ × AsidEvent (Fin 2) ℕ)) (s : AsidState (Fin 2) ℕ)
      (pm pm' : CpuPmap (Fin 2)), Run (AsidStep 0) (startAsid 0) h s ∧
      s.pmap 1 = some pm ∧ s.pmap 255 = some pm' ∧ 0 ∈ pm.pmActive ∧ 0 ∈ pm'.pmActive ∧
      pm.pmAsid 0 = 2 ∧ pm'.pmAsid 0 = 2) ∧
    ∃ (h : List (AsidState (Fin 2) ℕ × AsidEvent (Fin 2) ℕ)) (s : AsidState (Fin 2) ℕ)
      (pm : CpuPmap (Fin 2)), Run (AsidStep 0) (startAsid 0) h s ∧ s.pmap 1 = some pm ∧
      1 ∈ pm.pmActive ∧ pm.pmAsid 1 = pmapAsidReserved := by
  constructor
  · obtain ⟨h₁, s₁, pm, hr₁, hn₁, hp, hc, ha, hf₁⟩ :=
      exists_create_activate 1 (Run.nil : Run _ (startAsid (0 : Fin 2)) [] _) (by decide) rfl
    obtain ⟨h₂, s₂, hr₂, hn₂, hold₂, hf₂⟩ := exists_creates 2 hr₁ 0 (by decide)
      (fun vm hvm => hf₁ vm (by omega)) 253
    obtain ⟨h₃, s₃, pm', hr₃, -, hp', hc', ha', hold₃⟩ :=
      exists_create_activate 255 hr₂ (by decide) (hf₂ 255 le_rfl)
    refine ⟨h₃, s₃, pm, pm', hr₃, ?_, hp', hc, hc', ha, ?_⟩
    · rw [hold₃ 1 (by decide), hold₂ 1 (by decide), hp]
    · rw [ha', hn₂, hn₁]
      decide +kernel
  · have hr₁ : Run (AsidStep 0) (startAsid (0 : Fin 2)) _ _ :=
      Run.nil.snoc (AsidStep.create (c := 0) (u := 1) (p := ∅) (m := fun _ => 0) rfl)
    have hr₂ := hr₁.snoc (AsidStep.activate (c := 1) (u := 1) rfl)
    exact ⟨_, _, _, hr₂, rfl, by decide, rfl⟩

end Glatt
