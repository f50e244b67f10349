import Glatt.Vm.PmapRefinement

/-!
# Translation buffers

Each CPU keeps copies of page table entries in its TLB. The handler `tlb_exception` fills it: it
reads the entry from the page table, and writes it to the TLB if it is valid. `pmap_unmap` shoots
the page down on every CPU on which the address space is active, and then clears the entry:

1. it finds the entry, and returns if there is none or it is not valid;
2. `tlb_invalidate` reads `pm_active`, and `mp_hokusai_synchronize` interrupts these CPUs;
3. each of them enters and waits until all are ready, invalidates the page in its TLB, and waits
   until all are done;
4. the entry is set to 0.

The handler runs with interrupts disabled, so no CPU enters in the middle of it, but it is not
atomic with respect to other CPUs. There is one caller of the page table functions at a time.

## Main definitions

* `UnmapPhase`, `TlbState`, `TlbStep`: a call of `pmap_unmap` among CPUs that fill their TLBs

## Main results

* `unmapped_not_in_tlb`: no TLB has the page once `pmap_unmap` has returned
* `tlb_stale_after_unmap`: a handler that reads the entry between the shootdown and the store
-/

namespace Glatt

open Imperative Transition Function

variable {κ ν : Type} [DecidableEq κ] [Fintype κ] [DecidableEq ν]

/-! ## The machine -/

/-- Where the caller of the page table functions is. -/
inductive UnmapPhase (κ ν : Type)
  /-- It is in none of their calls. -/
  | idle
  /-- The CPU has found a valid entry. -/
  | found (cpu : κ) (vm : ν) (vaddr : UInt64)
  /-- The CPU meets with those of `mask`, which invalidate the page. -/
  | shootdown (cpu : κ) (vm : ν) (vaddr : UInt64) (mask ready done : Finset κ)
  /-- The shootdown is over, and the entry is to be cleared. -/
  | clearing (vm : ν) (vaddr : UInt64)
  /-- `pmap_unmap` has returned. -/
  | returned (vm : ν) (vaddr : UInt64)

/-- The page tables, `pm_active` of each, the translations in each CPU's TLB, the entry that its
handler has read and not written yet, and where the caller is. -/
structure TlbState (κ ν : Type) where
  mem : MemState ν
  active : ν → Finset κ
  tlb : κ → ν → UInt64 → Option UInt64
  refill : κ → Option (ν × UInt64 × UInt64)
  unmap : UnmapPhase κ ν

def TlbState.setTlb (s : TlbState κ ν) (cpu : κ) (vm : ν) (v : UInt64) (x : Option UInt64) :
    TlbState κ ν :=
  { s with tlb := update s.tlb cpu (Mapping.set (s.tlb cpu) vm v x) }

def UnmapPhase.Free : UnmapPhase κ ν → Prop
  | idle | returned _ _ => True
  | _ => False

def TlbState.Held (s : TlbState κ ν) (cpu : κ) : Prop :=
  match s.unmap with
  | .shootdown cpu₀ _ _ mask ready done => cpu ∈ ready ∧ done ≠ insert cpu₀ mask
  | _ => False

def TlbState.invalidateMask (s : TlbState κ ν) (cpu : κ) (vm : ν) : Finset κ :=
  if Fintype.card κ = 1 then {cpu} else s.active vm

/-- What can happen next. -/
inductive TlbEvent (κ ν : Type)
  | activate (cpu : κ) (vm : ν)
  | load (cpu : κ) (vm : ν) (v : UInt64)
  | write (cpu : κ)
  | evict (cpu : κ) (vm : ν) (v : UInt64)
  | map (vm : ν) (v page : UInt64)
  | find (cpu : κ) (vm : ν) (vaddr : UInt64)
  | synchronize
  | enter (cpu : κ)
  | callback (cpu : κ)
  | finish
  | clear

inductive TlbStep (kernelVm : ν) : TlbState κ ν → TlbEvent κ ν → TlbState κ ν → Prop
  /-- `pmap_activate`, for a thread of a user task. -/
  | activate {s c u} : ¬ s.Held c → u ≠ kernelVm →
      TlbStep kernelVm s (.activate c u)
        { s with active := update s.active u (insert c (s.active u)) }
  /-- The handler reads a valid entry, of the kernel or of an address space that is active. -/
  | load {s c u v x} : ¬ s.Held c → s.refill c = none → u = kernelVm ∨ c ∈ s.active u →
      PageAligned v → pmapFind (s.mem.pmap u) v = some x → pteValid x →
      TlbStep kernelVm s (.load c u v) { s with refill := update s.refill c (some (u, v, x)) }
  /-- The handler writes the entry to the TLB. -/
  | write {s c u v x} : s.refill c = some (u, v, x) →
      TlbStep kernelVm s (.write c)
        { s.setTlb c u v (some x) with refill := update s.refill c none }
  /-- A translation is replaced. -/
  | evict {s c u v} : TlbStep kernelVm s (.evict c u v) (s.setTlb c u v none)
  /-- `pmap_map` of a page that is not mapped. -/
  | map {s u v page mem r} : s.unmap.Free → PageAligned v → ¬ pteValid ((s.mem.pmap u).pte v) →
      pmapMap kernelVm u v page s.mem = .ok (mem, r) →
      TlbStep kernelVm s (.map u v page) { s with mem, unmap := .idle }
  /-- `pmap_unmap` finds no valid entry. -/
  | findInvalid {s c u a} : s.unmap.Free →
      (∀ x, pmapFind (s.mem.pmap u) a = some x → ¬ pteValid x) →
      TlbStep kernelVm s (.find c u a) { s with unmap := .returned u a }
  /-- `pmap_unmap` finds a valid entry. -/
  | find {s c u a x} : s.unmap.Free → pmapFind (s.mem.pmap u) a = some x →
      pteValid x → TlbStep kernelVm s (.find c u a) { s with unmap := .found c u a }
  /-- `tlb_invalidate` calls `mp_hokusai_synchronize`. -/
  | synchronize {s c u a} : s.unmap = .found c u a →
      TlbStep kernelVm s .synchronize
        { s with unmap := .shootdown c u a (s.invalidateMask c u) ∅ ∅ }
  /-- `mp_hokusai_enter`, not in the middle of the handler. -/
  | enter {s c c₀ u a mask ready done} :
      s.unmap = .shootdown c₀ u a mask ready done → c ∈ insert c₀ mask →
      s.refill c = none → TlbStep kernelVm s (.enter c)
        { s with unmap := .shootdown c₀ u a mask (insert c ready) done }
  /-- `tlb_shootdown` once all are ready, and `mp_hokusai_exit`. The caller only waits if it is not
  in the mask. -/
  | callback {s c c₀ u a mask ready done} :
      s.unmap = .shootdown c₀ u a mask ready done → c ∈ insert c₀ mask →
      ready = insert c₀ mask → c ∉ done → TlbStep kernelVm s (.callback c)
        { (if c ∈ mask then s.setTlb c u (pageFloor a) none else s) with
          unmap := .shootdown c₀ u a mask ready (insert c done) }
  /-- All are done. -/
  | finish {s c₀ u a mask ready done} :
      s.unmap = .shootdown c₀ u a mask ready done → done = insert c₀ mask →
      TlbStep kernelVm s .finish { s with unmap := .clearing u a }
  /-- The entry is set to 0. -/
  | clear {s u a} : s.unmap = .clearing u a →
      TlbStep kernelVm s .clear
        { s with mem := s.mem.setPmap u ((s.mem.pmap u).setPte a 0)
                 unmap := .returned u a }

/-- `pmap_unmap` has shot the page down on the CPU, or has not found it active there, and has not
cleared the entry yet. -/
def TlbState.Passed (s : TlbState κ ν) (c : κ) (vm : ν) (v : UInt64) : Prop :=
  match s.unmap with
  | .shootdown _ vm' vaddr mask _ done => vm' = vm ∧ pageFloor vaddr = v ∧ (c ∉ mask ∨ c ∈ done)
  | .clearing vm' vaddr => vm' = vm ∧ pageFloor vaddr = v
  | _ => False

/-- No handler reads an entry on a CPU where its address space is not active, or that `pmap_unmap`
has passed with the page, and `pmap_unmap` is not called for the end of the range. -/
def NotPassed (s : TlbState κ ν) : TlbEvent κ ν → Prop
  | .load c vm v => c ∈ s.active vm ∧ ¬ s.Passed c vm v
  | .find _ vm vaddr => (s.mem.pmap vm).Outside vaddr → (s.mem.pmap vm).Outside (pageFloor vaddr)
  | _ => True

def startTlb (mem : MemState ν) (active : ν → Finset κ) : TlbState κ ν :=
  ⟨mem, active, fun _ _ _ => none, fun _ => none, .idle⟩

/-! ## Coherence -/

def TlbState.Has (s : TlbState κ ν) (c : κ) (vm : ν) (v x : UInt64) : Prop :=
  s.tlb c vm v = some x ∨ s.refill c = some (vm, v, x)

/-- The entry `x` is the valid entry of the page, in an address space that is active on the CPU. -/
structure TlbState.Copies (s : TlbState κ ν) (c : κ) (vm : ν) (v x : UInt64) : Prop where
  active : c ∈ s.active vm
  aligned : PageAligned v
  pte : (s.mem.pmap vm).pte v = x
  valid : pteValid x

def UnmapPhase.page : UnmapPhase κ ν → Option (ν × UInt64)
  | found _ vm vaddr | shootdown _ vm vaddr _ _ _ | clearing vm vaddr => some (vm, vaddr)
  | _ => none

/-- **The TLBs are coherent**: they have copies of valid entries, and none of a page on a CPU that
`pmap_unmap` has passed with it. -/
structure Coherent (s : TlbState κ ν) : Prop where
  copies : ∀ c vm v x, s.Has c vm v x → s.Copies c vm v x
  passed : ∀ c vm v x, s.Passed c vm v → ¬ s.Has c vm v x
  held : ∀ c, s.Held c → s.refill c = none
  found : ∀ vm vaddr, s.unmap.page = some (vm, vaddr) →
    ∃ x, pmapFind (s.mem.pmap vm) vaddr = some x ∧ pteValid x
  returned : ∀ vm vaddr, s.unmap = .returned vm vaddr →
    ¬ pteValid ((s.mem.pmap vm).pte (pageFloor vaddr))

variable {kernelVm vm : ν} {s s' : TlbState κ ν} {c : κ} {v x : UInt64}

section

omit [Fintype κ]

theorem setTlb_apply (c' : κ) (vm' : ν) (w : UInt64)
    (x : Option UInt64) : (s.setTlb c vm v x).tlb c' vm' w =
      if c' = c ∧ vm' = vm ∧ w = v then x else s.tlb c' vm' w := by
  unfold TlbState.setTlb
  by_cases hc : c' = c
  · subst hc
    simp [Mapping.set_apply]
  · simp [hc]

/-! ## Steps of the CPUs and their handlers -/

variable (h : Coherent s)
include h

omit [DecidableEq ν] in
theorem Coherent.of_has (hmem : s'.mem = s.mem) (hu : s'.unmap = s.unmap)
    (ha : ∀ vm, s.active vm ⊆ s'.active vm)
    (hhas : ∀ c vm v x, s'.Has c vm v x → s.Has c vm v x ∨ s.Copies c vm v x ∧ ¬ s.Passed c vm v)
    (hhl : ∀ c, s.Held c → s.refill c = none → s'.refill c = none) : Coherent s' := by
  have hps (c : κ) (vm : ν) (v : UInt64) : s'.Passed c vm v ↔ s.Passed c vm v := by
    rw [TlbState.Passed, TlbState.Passed, hu]
  have hh (c : κ) : s'.Held c ↔ s.Held c := by
    rw [TlbState.Held, TlbState.Held, hu]
  constructor
  · intro c vm v x hx
    have hcp : s.Copies c vm v x := by
      rcases hhas c vm v x hx with hx | ⟨hx, -⟩
      · exact h.copies c vm v x hx
      · exact hx
    refine ⟨ha vm hcp.active, hcp.aligned, ?_, hcp.valid⟩
    rw [hmem]
    exact hcp.pte
  · intro c vm v x hp hx
    rw [hps] at hp
    rcases hhas c vm v x hx with hx | ⟨-, hn⟩
    · exact h.passed c vm v x hp hx
    · exact hn hp
  · intro c hc
    rw [hh] at hc
    exact hhl c hc (h.held c hc)
  · rw [hmem, hu]
    exact h.found
  · rw [hmem, hu]
    exact h.returned

theorem Coherent.activate :
    Coherent { s with active := update s.active vm (insert c (s.active vm)) } := by
  refine h.of_has rfl rfl (fun vm' => ?_) (fun _ _ _ _ hx => .inl hx) fun _ _ hr => hr
  dsimp only
  by_cases hvm : vm' = vm
  · subst hvm
    rw [update_self]
    exact Finset.subset_insert c _
  · rw [update_of_ne hvm]

omit [DecidableEq ν] in
theorem Coherent.load (hh : ¬ s.Held c) (hcp : s.Copies c vm v x) (hp : ¬ s.Passed c vm v) :
    Coherent { s with refill := update s.refill c (some (vm, v, x)) } := by
  refine h.of_has rfl rfl (fun _ => Finset.Subset.refl _) ?_ ?_
  · rintro c' vm' w y (hy | hy)
    · exact .inl (.inl hy)
    · dsimp only at hy
      by_cases hc : c' = c
      · subst hc
        rw [update_self] at hy
        obtain ⟨rfl, rfl, rfl⟩ := hy
        exact .inr ⟨hcp, hp⟩
      · rw [update_of_ne hc] at hy
        exact .inl (.inr hy)
  · intro c' hc' hr
    have hc : c' ≠ c := fun e => hh (e ▸ hc')
    dsimp only
    rwa [update_of_ne hc]

theorem Coherent.write (hr : s.refill c = some (vm, v, x)) :
    Coherent { s.setTlb c vm v (some x) with refill := update s.refill c none } := by
  refine h.of_has rfl rfl (fun _ => Finset.Subset.refl _) ?_ ?_
  · rintro c' vm' w y (hy | hy)
    · rw [setTlb_apply] at hy
      split at hy
      · rename_i heq
        obtain ⟨rfl, rfl, rfl⟩ := heq
        cases hy
        exact .inl (.inr hr)
      · exact .inl (.inl hy)
    · dsimp only at hy
      by_cases hc : c' = c
      · subst hc
        rw [update_self] at hy
        cases hy
      · rw [update_of_ne hc] at hy
        exact .inl (.inr hy)
  · intro c' _ hr'
    by_cases hc : c' = c
    · subst hc
      exact update_self ..
    · dsimp only
      rwa [update_of_ne hc]

omit h in
theorem TlbState.Has.of_setTlb_none {c' : κ} {vm' : ν} {w y : UInt64}
    (h : (s.setTlb c vm v none).Has c' vm' w y) : s.Has c' vm' w y := by
  rcases h with h | h
  · rw [setTlb_apply] at h
    split at h
    · cases h
    · exact .inl h
  · exact .inr h

theorem Coherent.evict : Coherent (s.setTlb c vm v none) :=
  h.of_has rfl rfl (fun _ => Finset.Subset.refl _) (fun _ _ _ _ hx => .inl hx.of_setTlb_none)
    fun _ _ hr => hr

/-! ## Steps of the caller -/

theorem Coherent.map {page : UInt64} {mem : MemState ν} {r : Except Errno Unit}
    (hv : PageAligned v) (hn : ¬ pteValid ((s.mem.pmap vm).pte v))
    (hm : pmapMap kernelVm vm v page s.mem = .ok (mem, r)) :
    Coherent { s with mem, unmap := .idle } := by
  have hpte {vm' : ν} {w : UInt64} (hw : PageAligned w) (hx : pteValid ((s.mem.pmap vm').pte w)) :
      (mem.pmap vm').pte w = (s.mem.pmap vm').pte w := by
    rcases pmapMap_pte hv _ hm with ⟨hr, -⟩ | ⟨-, -, hs⟩
    · cases hr
      rfl
    · rw [hs.pte vm' w hw, if_neg]
      rintro ⟨rfl, rfl⟩
      exact hn hx
  refine ⟨?_, fun _ _ _ _ hp => hp.elim, fun _ hp => hp.elim, fun _ _ he => ?_, fun _ _ he => ?_⟩
  · intro c vm' w x hx
    obtain ⟨ha, hw, rfl, hvl⟩ := h.copies c vm' w x hx
    exact ⟨ha, hw, hpte hw hvl, hvl⟩
  · cases he
  · cases he

section

omit [DecidableEq ν]

theorem Coherent.of_phase {phase : UnmapPhase κ ν}
    (hp : ∀ c vm v x, TlbState.Passed { s with unmap := phase } c vm v → ¬ s.Has c vm v x)
    (hh : ∀ c, TlbState.Held { s with unmap := phase } c → s.refill c = none)
    (hf : ∀ vm vaddr, phase.page = some (vm, vaddr) →
      ∃ x, pmapFind (s.mem.pmap vm) vaddr = some x ∧ pteValid x)
    (hr : ∀ vm vaddr, phase = .returned vm vaddr →
      ¬ pteValid ((s.mem.pmap vm).pte (pageFloor vaddr))) :
    Coherent { s with unmap := phase } :=
  ⟨fun c vm v x hx => ⟨(h.copies c vm v x hx).active, (h.copies c vm v x hx).aligned,
    (h.copies c vm v x hx).pte, (h.copies c vm v x hx).valid⟩, hp, hh, hf, hr⟩

theorem Coherent.findInvalid {vaddr : UInt64}
    (hend : (s.mem.pmap vm).Outside vaddr → (s.mem.pmap vm).Outside (pageFloor vaddr))
    (hn : ∀ x, pmapFind (s.mem.pmap vm) vaddr = some x → ¬ pteValid x) :
    Coherent { s with unmap := .returned vm vaddr } := by
  refine h.of_phase (fun _ _ _ _ hp => hp.elim) (fun _ hp => hp.elim) nofun ?_
  rintro vm' vaddr' he
  cases he
  intro hv
  have hf := pmapFind_of_pteValid hv
  have hin : ¬ (s.mem.pmap vm).Outside vaddr := mt hend (pmapFind_inside hf)
  rw [pmapFind_floor hin] at hf
  exact hn _ hf hv

theorem Coherent.find (c : κ) {vaddr : UInt64}
    (hf : pmapFind (s.mem.pmap vm) vaddr = some x) (hv : pteValid x) :
    Coherent { s with unmap := .found c vm vaddr } := by
  refine h.of_phase (fun _ _ _ _ hp => hp.elim) (fun _ hp => hp.elim) ?_ nofun
  rintro vm' vaddr' he
  cases he
  exact ⟨x, hf, hv⟩

end

variable {c₀ : κ} {vaddr : UInt64} {mask ready done : Finset κ}

omit [DecidableEq ν] in
theorem Coherent.enter (hu : s.unmap = .shootdown c₀ vm vaddr mask ready done)
    (hr : s.refill c = none) :
    Coherent { s with unmap := .shootdown c₀ vm vaddr mask (insert c ready) done } := by
  refine h.of_phase ?_ ?_ ?_ nofun
  · intro c' vm' w y hp
    refine h.passed c' vm' w y ?_
    rw [TlbState.Passed, hu]
    exact hp
  · rintro c' ⟨hrd, hd⟩
    rcases Finset.mem_insert.mp hrd with rfl | hrd
    · exact hr
    · refine h.held c' ?_
      rw [TlbState.Held, hu]
      exact ⟨hrd, hd⟩
  · rintro vm' vaddr' he
    cases he
    exact h.found vm vaddr (by rw [hu]; rfl)

theorem Coherent.callback (hu : s.unmap = .shootdown c₀ vm vaddr mask ready done)
    (hc : c ∈ insert c₀ mask) (hrd : ready = insert c₀ mask) (hdn : c ∉ done) :
    Coherent { (if c ∈ mask then s.setTlb c vm (pageFloor vaddr) none else s) with
      unmap := .shootdown c₀ vm vaddr mask ready (insert c done) } := by
  have hne : done ≠ insert c₀ mask := fun e => hdn (e ▸ hc)
  have hh {d : κ} (hd : d ∈ ready) : s.refill d = none := by
    refine h.held d ?_
    rw [TlbState.Held, hu]
    exact ⟨hd, hne⟩
  have hf : ∀ vm' vaddr', some (vm, vaddr) = some (vm', vaddr') →
      ∃ x, pmapFind (s.mem.pmap vm') vaddr' = some x ∧ pteValid x := by
    rintro vm' vaddr' he
    cases he
    exact h.found vm vaddr (by rw [hu]; rfl)
  have hp {d : κ} {y : UInt64} (hd : d ∉ mask ∨ d ∈ done) : ¬ s.Has d vm (pageFloor vaddr) y := by
    refine h.passed d vm (pageFloor vaddr) y ?_
    rw [TlbState.Passed, hu]
    exact ⟨rfl, rfl, hd⟩
  split
  · refine h.evict.of_phase ?_ (fun d hd => hh hd.1) hf nofun
    rintro d vm' w y ⟨rfl, rfl, hd⟩ hy
    by_cases hdc : d = c
    · -- the translation has been removed, and the handler is not in the middle of its work
      subst hdc
      rcases hy with hy | hy
      · rw [setTlb_apply, if_pos ⟨rfl, rfl, rfl⟩] at hy
        cases hy
      · have hr := hh (hrd ▸ hc)
        exact absurd (hr.symm.trans hy) (by simp)
    · refine hp (hd.imp_right fun hd => ?_) hy.of_setTlb_none
      exact Finset.mem_of_mem_insert_of_ne hd hdc
  · rename_i hm
    refine h.of_phase ?_ (fun d hd => hh hd.1) hf nofun
    rintro d vm' w y ⟨rfl, rfl, hd⟩
    by_cases hdc : d = c
    · exact hp (.inl (hdc ▸ hm))
    · exact hp (hd.imp_right fun hd => Finset.mem_of_mem_insert_of_ne hd hdc)

omit [DecidableEq ν] in
theorem Coherent.finish
    (hu : s.unmap = .shootdown c₀ vm vaddr mask ready done) (hd : done = insert c₀ mask) :
    Coherent { s with unmap := .clearing vm vaddr } := by
  refine h.of_phase ?_ (fun _ hp => hp.elim) ?_ nofun
  · rintro c vm' w y ⟨rfl, rfl⟩
    refine h.passed c vm (pageFloor vaddr) y ?_
    rw [TlbState.Passed, hu]
    refine ⟨rfl, rfl, ?_⟩
    by_cases hc : c ∈ mask
    · exact .inr (hd ▸ Finset.mem_insert_of_mem hc)
    · exact .inl hc
  · rintro vm' vaddr' he
    cases he
    exact h.found vm vaddr (by rw [hu]; rfl)

theorem clear_mem (hu : s.unmap = .clearing vm vaddr) :
    pmapUnmap vm vaddr s.mem = (s.mem.setPmap vm ((s.mem.pmap vm).setPte vaddr 0), .ok ()) := by
  obtain ⟨x, hx, hv⟩ := h.found vm vaddr (by rw [hu]; rfl)
  simp only [pmapUnmap, hx, if_pos hv]

theorem Coherent.clear (hu : s.unmap = .clearing vm vaddr) :
    Coherent { s with mem := s.mem.setPmap vm ((s.mem.pmap vm).setPte vaddr 0)
                      unmap := .returned vm vaddr } := by
  obtain ⟨x, hx, -⟩ := h.found vm vaddr (by rw [hu]; rfl)
  rw [← pmapFind_floor (pmapFind_inside hx)] at hx
  have hs := pteSet_setPte (y := 0) hx (pageAligned_floor vaddr)
  rw [setPte_floor] at hs
  refine ⟨?_, fun _ _ _ _ hp => hp.elim, fun _ hp => hp.elim, nofun, ?_⟩
  · intro c vm' w y hy
    obtain ⟨ha, hw, hpte, hv⟩ := h.copies c vm' w y hy
    refine ⟨ha, hw, ?_, hv⟩
    rw [hs.pte vm' w hw, if_neg, hpte]
    rintro ⟨rfl, rfl⟩
    refine h.passed c vm' (pageFloor vaddr) y ?_ hy
    rw [TlbState.Passed, hu]
    exact ⟨rfl, rfl⟩
  · rintro vm' vaddr' he
    cases he
    rw [hs.pte vm _ (pageAligned_floor vaddr), if_pos ⟨rfl, rfl⟩]
    exact not_pteValid_zero

end

omit [DecidableEq ν] in
theorem Coherent.synchronize (h : Coherent s) {vaddr : UInt64} (hu : s.unmap = .found c vm vaddr) :
    Coherent { s with unmap := .shootdown c vm vaddr (s.invalidateMask c vm) ∅ ∅ } := by
  refine h.of_phase ?_ ?_ ?_ nofun
  · rintro c' vm' w y ⟨rfl, -, hm | hd⟩ hy
    · apply hm
      unfold TlbState.invalidateMask
      split
      · rename_i hc
        have := Fintype.card_le_one_iff.mp hc.le c' c
        exact Finset.mem_singleton.mpr this
      · exact (h.copies c' vm w y hy).active
    · cases hd
  · rintro c' ⟨hr, -⟩
    cases hr
  · rintro vm' vaddr' he
    cases he
    exact h.found vm vaddr (by rw [hu]; rfl)

/-! ## Runs -/

theorem Coherent.step {e : TlbEvent κ ν} (h : Coherent s) (hn : NotPassed s e)
    (hs : TlbStep kernelVm s e s') : Coherent s' := by
  cases hs with
  | activate => exact h.activate
  | load hh _ _ hv hf hvl =>
    refine h.load hh ⟨hn.1, hv, ?_, hvl⟩ hn.2
    rw [Pmap.pte, hf]
    rfl
  | write hr => exact h.write hr
  | evict => exact h.evict
  | map _ hv hnv hm => exact h.map hv hnv hm
  | findInvalid _ hnv => exact h.findInvalid hn hnv
  | find _ hf hvl => exact h.find _ hf hvl
  | synchronize hu => exact h.synchronize hu
  | enter hu _ hr => exact h.enter hu hr
  | callback hu hc hrd hd => exact h.callback hu hc hrd hd
  | finish hu hd => exact h.finish hu hd
  | clear hu => exact h.clear hu

omit [Fintype κ] [DecidableEq ν] in
theorem coherent_start (mem : MemState ν) (active : ν → Finset κ) :
    Coherent (startTlb mem active) := by
  refine ⟨?_, fun _ _ _ _ hp => hp.elim, fun _ hp => hp.elim, fun _ _ he => ?_, fun _ _ he => ?_⟩
  · rintro c vm v x (hx | hx) <;> cases hx
  · cases he
  · cases he

/-- **No TLB has an unmapped page.** In every run in which handlers read entries only of address
spaces that are active, and not on a CPU that `pmap_unmap` has passed with the page, no TLB has a
translation for an address once `pmap_unmap` of it has returned. -/
theorem unmapped_not_in_tlb {mem : MemState ν} {active : ν → Finset κ}
    {h : List (TlbState κ ν × TlbEvent κ ν)}
    (hr : Run (TlbStep kernelVm) (startTlb mem active) h s) (hnot : ∀ e ∈ h, NotPassed e.1 e.2)
    (hu : s.unmap = .returned vm vaddr) (c : κ) : s.tlb c vm (pageFloor vaddr) = none := by
  have hc : Coherent s := by
    refine hr.invariant_of_forall (coherent_start mem active) ?_ hnot
    exact fun _ _ _ hs hC hst => hs.step hC hst
  cases ht : s.tlb c vm (pageFloor vaddr) with
  | none => rfl
  | some x =>
    have hcp := hc.copies c vm _ x (.inl ht)
    have hv := hcp.valid
    rw [← hcp.pte] at hv
    exact absurd hv (hc.returned vm vaddr hu)

/-- Two CPUs, on which the address space 1 is active, and a page is mapped in it. -/
def mappedTlb : TlbState (Fin 2) ℕ :=
  startTlb ((pmapMap 0 1 0 (entryOf 16 4) eightPages).toOption.map Prod.fst |>.getD eightPages)
    fun _ => Finset.univ

/-- The CPU 1 reads the entry before the shootdown: its copy is removed, and no TLB has the page
once `pmap_unmap` has returned. -/
theorem unmapped_not_in_tlb_early : ∃ (h : List (TlbState (Fin 2) ℕ × TlbEvent (Fin 2) ℕ))
    (s : TlbState (Fin 2) ℕ), Run (TlbStep 0) mappedTlb h s ∧ (∀ e ∈ h, NotPassed e.1 e.2) ∧
      h.head? = some (mappedTlb, .load 1 1 0) ∧ ∀ c, s.tlb c 1 0 = none := by
  have hr₁ : Run (fun s e s' => TlbStep 0 s e s' ∧ NotPassed s e) mappedTlb _ _ :=
    Run.nil.snoc ⟨TlbStep.load (c := 1) (u := 1) (v := 0) id rfl (by decide) (by decide) rfl
      (by decide), by decide, id⟩
  have hr₂ := hr₁.snoc ⟨TlbStep.write (c := 1) rfl, trivial⟩
  have hr₃ := hr₂.snoc ⟨TlbStep.find (c := 0) (u := 1) (a := 0) trivial rfl (by decide), id⟩
  have hr₄ := hr₃.snoc ⟨TlbStep.synchronize rfl, trivial⟩
  have hr₅ := hr₄.snoc ⟨TlbStep.enter (c := 0) rfl (by decide) rfl, trivial⟩
  have hr₆ := hr₅.snoc ⟨TlbStep.enter (c := 1) rfl (by decide) rfl, trivial⟩
  have hr₇ := hr₆.snoc ⟨TlbStep.callback (c := 0) rfl (by decide) (by decide) (by decide), trivial⟩
  have hr₈ := hr₇.snoc ⟨TlbStep.callback (c := 1) rfl (by decide) (by decide) (by decide), trivial⟩
  have hr₉ := hr₈.snoc ⟨TlbStep.finish rfl (by decide), trivial⟩
  have hr₁₀ := hr₉.snoc ⟨TlbStep.clear rfl, trivial⟩
  obtain ⟨h, s, hr, hl, hu⟩ : ∃ h s, Run (fun s e s' => TlbStep 0 s e s' ∧ NotPassed s e)
      mappedTlb h s ∧ h.head? = some (mappedTlb, .load 1 1 0) ∧ s.unmap = .returned 1 0 :=
    ⟨_, _, hr₁₀, rfl, rfl⟩
  exact ⟨h, s, hr.of_and.1, hr.of_and.2, hl, unmapped_not_in_tlb hr.of_and.1 hr.of_and.2 hu⟩

/-- **A stale translation.** The CPU 0 unmaps a page that both CPUs have activated. After the
shootdown, and before the entry is cleared, the handler of the CPU 1 reads it. When `pmap_unmap` has
returned, the TLB of the CPU 1 has an entry, and the page table none. -/
theorem tlb_stale_after_unmap : ∃ (h : List (TlbState (Fin 2) ℕ × TlbEvent (Fin 2) ℕ))
    (s : TlbState (Fin 2) ℕ), Run (TlbStep 0) mappedTlb h s ∧ s.unmap = .returned 1 0 ∧
      pmapExtract 0 1 0 s.mem = .error .notFound ∧
      s.tlb 1 1 0 = some (entryFor 0 1 (entryOf 16 4)) := by
  have hr₁ : Run (TlbStep 0) mappedTlb _ _ := Run.nil.snoc
    (TlbStep.find (c := 0) (u := 1) (a := 0) trivial rfl (by decide))
  have hr₂ := hr₁.snoc (TlbStep.synchronize rfl)
  have hr₃ := hr₂.snoc (TlbStep.enter (c := 0) rfl (by decide) rfl)
  have hr₄ := hr₃.snoc (TlbStep.enter (c := 1) rfl (by decide) rfl)
  have hr₅ := hr₄.snoc (TlbStep.callback (c := 0) rfl (by decide) (by decide) (by decide))
  have hr₆ := hr₅.snoc (TlbStep.callback (c := 1) rfl (by decide) (by decide) (by decide))
  have hr₇ := hr₆.snoc (TlbStep.finish rfl (by decide))
  have hr₈ := hr₇.snoc (TlbStep.load (c := 1) (u := 1) (v := 0) id rfl (by decide)
    (by decide) rfl (by decide))
  have hr₉ := hr₈.snoc (TlbStep.write (c := 1) rfl)
  have hr₁₀ := hr₉.snoc (TlbStep.clear rfl)
  exact ⟨_, _, hr₁₀, rfl, rfl, rfl⟩

end Glatt
