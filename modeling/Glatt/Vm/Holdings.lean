import Glatt.Vm.AllocEntries
import Glatt.Vm.IndexUse
import Glatt.Vm.PageInvariant
import Glatt.Vm.PmapRefinement

/-!
# Who holds a page

The functions of `vm_alloc.c` on pages and addresses at once. Every page that is mapped for a user
has been allocated for that mapping, every mapping lies in an index in use, and a page that is in no
address space is held by someone else, as a message does on its way. What a function does is said by
the ledger: which references it adds and which it drops.

## Main definitions

* `VmOwned`: pages, mappings and indices agree with the ledger

## Main results

* `VmOwned.allocAddress`, `VmOwned.releaseAddress`: addresses
* `VmOwned.vmAlloc`, `VmOwned.vmFree`: pages with their addresses
-/

namespace Glatt

open Imperative List

variable {ν ι : Type} [DecidableEq ν] {flags : UInt32}

/-! ## Mappings of users and of the kernel -/

def userPages (kernelVm : ν) (maps : List (ν × UInt64 × UInt64)) : List UInt64 :=
  (maps.filter fun m => m.1 ≠ kernelVm).map fun m => m.2.2

def kernelMaps (kernelVm : ν) (maps : List (ν × UInt64 × UInt64)) : List (ν × UInt64 × UInt64) :=
  maps.filter fun m => m.1 = kernelVm

variable {kernelVm u : ν} {v page : UInt64} {maps maps' : List (ν × UInt64 × UInt64)}

theorem userPages_cons : userPages kernelVm ((u, v, page) :: maps) =
      if u = kernelVm then userPages kernelVm maps else page :: userPages kernelVm maps := by
  by_cases hu : u = kernelVm <;> simp [userPages, hu]

theorem kernelMaps_cons : kernelMaps kernelVm ((u, v, page) :: maps) =
      if u = kernelVm then (u, v, page) :: kernelMaps kernelVm maps
      else kernelMaps kernelVm maps := by
  by_cases hu : u = kernelVm <;> simp [kernelMaps, hu]

theorem userPages_erase (kernelVm : ν) (hm : (u, v, page) ∈ maps) :
    (userPages kernelVm maps).Perm (if u = kernelVm
      then userPages kernelVm (maps.erase (u, v, page))
      else page :: userPages kernelVm (maps.erase (u, v, page))) := by
  rw [← userPages_cons]
  exact ((perm_cons_erase hm).filter _).map _

theorem kernelMaps_erase (kernelVm : ν) (hm : (u, v, page) ∈ maps) :
    (kernelMaps kernelVm maps).Perm (if u = kernelVm
      then (u, v, page) :: kernelMaps kernelVm (maps.erase (u, v, page))
      else kernelMaps kernelVm (maps.erase (u, v, page))) := by
  rw [← kernelMaps_cons]
  exact (perm_cons_erase hm).filter _

theorem mem_userPages (hu : u ≠ kernelVm) (hm : (u, v, page) ∈ maps) :
    page ∈ userPages kernelVm maps :=
  mem_map.mpr ⟨_, mem_filter.mpr ⟨hm, by simpa using hu⟩, rfl⟩

theorem mem_kernelMaps : (kernelVm, v, page) ∈ kernelMaps kernelVm maps ↔
    (kernelVm, v, page) ∈ maps := by
  simp [kernelMaps]

/-! ## References that a page can take -/

def Ledger.Slack (l : Ledger ν) (n : ℕ) : Prop := ∀ page ∈ l.allocs, l.mapRefs page + n < 2 ^ 32

variable {l l' : Ledger ν} {n m : ℕ}

section

omit [DecidableEq ν]

theorem Ledger.Slack.mono (h : l.Slack n) (hm : m ≤ n) : l.Slack m := by
  intro page hp
  have := h page hp
  omega

theorem Ledger.Slack.map (h : l.Slack (n + 1)) :
    Ledger.Slack { l with maps := (u, v, page) :: l.maps } n := by
  intro q hq
  have := h q hq
  rw [mapRefs_map, bump]
  split <;> omega

theorem Ledger.Slack.direct (h : l.Slack (n + 1)) :
    Ledger.Slack { l with directs := page :: l.directs } n := by
  intro q hq
  have := h q hq
  rw [mapRefs_direct, bump]
  split <;> omega

theorem Ledger.Slack.alloc (h : l.Slack n) (hn : n < 2 ^ 32) (hp : l.mapRefs page = 0) :
    Ledger.Slack { l with allocs := page :: l.allocs } n := by
  intro q hq
  rcases mem_cons.mp hq with rfl | hq
  · change l.mapRefs q + n < 2 ^ 32
    omega
  · exact h q hq

end

theorem PageInvariant.pgRefcnt {mem : MemState ν} (h : PageInvariant kernelVm ⟨mem, l⟩)
    (hp : page ∈ l.allocs) :
    l.allocs.count page = 1 ∧ (mem.pages.pgRefcnt page).toNat = 1 + l.mapRefs page := by
  have hi := h.allocs page hp
  have hc := h.counted.counted.count page hi
  have hh := h.counted.holders page hi
  have hpos := count_pos_iff.mpr hp
  dsimp only [Ledger.allocRefs] at hc hh
  omega

/-! ## Pages, addresses and the ledger -/

/-- **Pages, addresses and the ledger agree**: the indices tile the addresses that a page table can
map, every mapping lies in an index in use, and every page that is mapped for a user or held by
someone else has been allocated for that. -/
structure VmOwned (kernelVm : ν) (s : VmState ν ι) (l : Ledger ν) (held : UInt64 → ℕ) : Prop where
  pages : PageInvariant kernelVm ⟨s.mem, l⟩
  spaces : ∀ u, ∃ a b, 8192 ∣ a ∧ b < 2 ^ 64 ∧ IndexInv a b (s.index u) ∧
    ∀ w, PageAligned w → a ≤ w.toNat → w.toNat < b → ¬ (s.mem.pmap u).Outside w
  covered : ∀ u v page, (u, v, page) ∈ l.maps → InUseAt (s.index u) v
  owned : ∀ page, (userPages kernelVm l.maps).count page + held page ≤ l.allocs.count page

variable {s : VmState ν ι} {held held' : UInt64 → ℕ} {Q : Prop}

section Pages

section

variable (h : VmOwned kernelVm s l held)
include h

theorem VmOwned.mem_allocs (hu : u ≠ kernelVm) (hm : (u, v, page) ∈ l.maps) : page ∈ l.allocs := by
  have hpos := count_pos_iff.mpr (mem_userPages hu hm)
  have := h.owned page
  exact count_pos_iff.mp (by omega)

theorem VmOwned.mem_allocs_of_held (hp : 0 < held page) : page ∈ l.allocs := by
  have := h.owned page
  exact count_pos_iff.mp (by omega)

theorem VmOwned.mappedAt_iff : MappedAt s.mem u v ↔ ∃ page, (u, v, page) ∈ l.maps := by
  constructor
  · rintro ⟨hv, hvl⟩
    exact h.pages.mapped.mapped u v hv hvl
  · rintro ⟨page, hm⟩
    exact ⟨(h.pages.mapped.entry u v page hm).1, (h.pages.mapped.pmapExtract hm).1⟩

theorem VmOwned.not_pteValid (hv : PageAligned v) (hn : ∀ page, (u, v, page) ∉ l.maps) :
    ¬ pteValid ((s.mem.pmap u).pte v) := by
  intro hvl
  obtain ⟨page, hm⟩ := h.pages.mapped.mapped u v hv hvl
  exact hn page hm

theorem VmOwned.inside (hv : PageAligned v) (hu : InUseAt (s.index u) v) :
    ¬ (s.mem.pmap u).Outside v := by
  obtain ⟨a, b, -, hb, ⟨T, F, hL, ht⟩, hin⟩ := h.spaces u
  obtain ⟨T', x, hT', hx, -, hc⟩ := hu
  obtain rfl := hL.tree.unique hT'
  have hbn := ht.bounds hx
  have hc := (covers_iff ht hb hx).mp hc
  exact hin v hv (by omega) (by omega)

theorem VmOwned.of_mem {mem' : MemState ν} (hp : PageInvariant kernelVm ⟨mem', l'⟩)
    (hb : SameBounds s.mem mem') (hc : ∀ u v page, (u, v, page) ∈ l'.maps → InUseAt (s.index u) v)
    (ho : ∀ q, (userPages kernelVm l'.maps).count q + held' q ≤ l'.allocs.count q) :
    VmOwned kernelVm { s with mem := mem' } l' held' := by
  refine ⟨hp, fun u => ?_, hc, ho⟩
  obtain ⟨a, b, ha, hlt, hinv, hin⟩ := h.spaces u
  exact ⟨a, b, ha, hlt, hinv, fun w hw hl hh hout => hin w hw hl hh ((hb u w).mp hout)⟩

theorem VmOwned.pageAlloc :
    Ensures (pageAlloc flags s.mem.pages) fun r =>
      (∃ e, r.2 = .error e ∧ s.mem.freePages = 0) ∨
      ∃ page, r.2 = .ok page ∧ l.mapRefs page = 0 ∧
        VmOwned kernelVm { s with mem := { s.mem with pages := r.1 } }
          { l with allocs := page :: l.allocs } (bump held page) ∧
        s.mem.freePages ≤ MemState.freePages { s.mem with pages := r.1 } + 1 := by
  refine h.pages.pageAlloc.mono ?_
  rintro ⟨pages, r⟩ (⟨hr, hf⟩ | ⟨page, hr, -, -, hm, -, hp, hf⟩)
  · cases hr
    exact .inl ⟨_, rfl, hf⟩
  · refine .inr ⟨page, hr, hm, h.of_mem hp (fun u w => Iff.rfl) h.covered fun q => ?_, hf⟩
    have := h.owned q
    rw [bump, count_cons]
    simp only [beq_iff_eq, eq_comm (a := page)]
    omega

end

theorem VmOwned.pageRelease (h : VmOwned kernelVm s l (bump held page)) :
    Ensures (s.onMem (MemState.onPages (pageRelease page))) fun s' =>
      VmOwned kernelVm s' { l with allocs := l.allocs.erase page } held ∧
        s'.index = s.index ∧ s.mem.freePages ≤ s'.mem.freePages := by
  have hp : page ∈ l.allocs := h.mem_allocs_of_held (by rw [bump, if_pos rfl]; omega)
  refine (h.pages.pageRelease hp).bind ?_
  rintro mem' ⟨hp', hpm, hf⟩
  refine .ret ⟨h.of_mem hp' (sameBounds_of_pmap hpm) h.covered fun q => ?_, rfl, hf⟩
  have ho := h.owned q
  have hc := (perm_cons_erase hp).count_eq q
  rw [bump] at ho
  rw [count_cons] at hc
  simp only [beq_iff_eq, eq_comm (a := page)] at hc
  dsimp only
  omega

section

variable (h : VmOwned kernelVm s l held)
include h

theorem VmOwned.pageMapDirect (hp : page ∈ l.allocs) (hsl : l.Slack 2) :
    Ensures (pageMapDirect true page s.mem.pages) fun r =>
      r.2 = .ok (pmapMapDirect (pageAddress page)) ∧
        VmOwned kernelVm { s with mem := { s.mem with pages := r.1 } }
          { l with directs := page :: l.directs } held ∧
        s.mem.freePages ≤ MemState.freePages { s.mem with pages := r.1 } := by
  have hrf := h.pages.pgRefcnt hp
  have hs := hsl page hp
  refine ((h.pages.pageMapDirect (h.pages.allocs page hp) (by omega) true).ensures rfl).mono ?_
  rintro ⟨pages, r⟩ ⟨hr, hp', hf⟩
  exact ⟨hr, h.of_mem hp' (fun u w => Iff.rfl) h.covered h.owned, hf (count_pos_iff.mpr hp)⟩

theorem VmOwned.pageUnmapDirect (hp : page ∈ l.directs) :
    Ensures (s.onMem (MemState.onPages (pageUnmapDirect page))) fun s' =>
      VmOwned kernelVm s' { l with directs := l.directs.erase page } held ∧
        s'.index = s.index ∧ s.mem.freePages ≤ s'.mem.freePages := by
  refine (h.pages.pageUnmapDirect hp).bind ?_
  rintro mem' ⟨hp', hpm, hf⟩
  exact .ret ⟨h.of_mem hp' (sameBounds_of_pmap hpm) h.covered h.owned, rfl, hf⟩

theorem VmOwned.pageMap (hv : PageAligned v) (hu : InUseAt (s.index u) v)
    (hn : ∀ q, (u, v, q) ∉ l.maps) (hp : page ∈ l.allocs) (hsl : l.Slack 2)
    (hQ : Q → 2 ≤ s.mem.freePages)
    (ho : ∀ q, (userPages kernelVm ((u, v, page) :: l.maps)).count q + held' q ≤ l.allocs.count q) :
    Guarded Q (pageMap kernelVm u v page s.mem) fun r => r.2 = .ok () ∧
      VmOwned kernelVm { s with mem := r.1 } { l with maps := (u, v, page) :: l.maps } held' ∧
      s.mem.freePages ≤ r.1.freePages + 2 := by
  have hrf := h.pages.pgRefcnt hp
  have hs := hsl page hp
  have hh : 0 < l.allocRefs page := count_pos_iff.mpr hp
  refine (h.pages.pageMap hv (h.pages.allocs page hp) (h.not_pteValid hv hn) (by omega)
    fun hq => ⟨hh, hQ hq⟩).mono ?_
  rintro ⟨mem', r⟩ ⟨⟨hr, hp'⟩ | ⟨-, -, hout⟩, hb, hf⟩
  · refine ⟨hr, h.of_mem hp' hb ?_ ho, hf hh⟩
    intro u' v' q hm
    rcases mem_cons.mp hm with heq | hm
    · cases heq
      exact hu
    · exact h.covered u' v' q hm
  · exact absurd hout (h.inside hv hu)

theorem VmOwned.pageUnmap (hm : (u, v, page) ∈ l.maps)
    (ho : ∀ q, (userPages kernelVm (l.maps.erase (u, v, page))).count q + held' q ≤ l.allocs.count
      q) :
    Ensures (pageUnmap u v page s.mem) fun r => r.2 = .ok () ∧
      VmOwned kernelVm { s with mem := r.1 } { l with maps := l.maps.erase (u, v, page) } held' ∧
      s.mem.freePages ≤ r.1.freePages := by
  refine (h.pages.pageUnmap hm).mono ?_
  rintro ⟨mem', r⟩ ⟨hr, hp', hb, hf⟩
  exact ⟨hr, h.of_mem hp' hb (fun u' v' q hq => h.covered u' v' q (mem_of_mem_erase hq)) ho, hf⟩

theorem VmOwned.pageAllocMap (hv : PageAligned v) (hu : InUseAt (s.index u) v)
    (hn : ∀ q, (u, v, q) ∉ l.maps) (hQ : Q → 3 ≤ s.mem.freePages) :
    Guarded Q (orPanic (pageAllocMap kernelVm u flags v s.mem)) fun mem' =>
      ∃ page, VmOwned kernelVm { s with mem := mem' }
          { l with allocs := page :: l.allocs, maps := (u, v, page) :: l.maps } held ∧
        s.mem.freePages ≤ mem'.freePages + 3 := by
  refine guarded_orPanic ((h.pages.pageAllocMap hv (h.not_pteValid hv hn) hQ).mono ?_)
  rintro ⟨mem', r⟩ ⟨⟨page, -, -, -, hr, hp'⟩ | ⟨⟨e, hr⟩, -, hw⟩, hb, hf⟩
  · refine ⟨fun _ => ⟨page, h.of_mem hp' hb ?_ fun q => ?_, hf⟩, fun _ => hr⟩
    · intro u' v' q hm
      rcases mem_cons.mp hm with heq | hm
      · cases heq
        exact hu
      · exact h.covered u' v' q hm
    · have := h.owned q
      rw [userPages_cons, count_cons]
      split
      · omega
      · rw [count_cons]
        omega
  · subst hr
    refine ⟨nofun, fun hq => ?_⟩
    have := hQ hq
    rcases hw with hz | ho
    · omega
    · exact absurd ho (h.inside hv hu)

theorem VmOwned.pageFreeMap (hu : u ≠ kernelVm) (hv : PageAligned v)
    (hQ : Q → ∃ page, (u, v, page) ∈ l.maps) :
    Guarded Q (orPanic (pageFreeMap kernelVm u v s.mem)) fun mem' =>
      ∃ page, (u, v, page) ∈ l.maps ∧ VmOwned kernelVm { s with mem := mem' }
          { l with allocs := l.allocs.erase page, maps := l.maps.erase (u, v, page) } held ∧
        s.mem.freePages ≤ mem'.freePages := by
  by_cases hmap : ∃ page, (u, v, page) ∈ l.maps
  · obtain ⟨page, hm⟩ := hmap
    have ha := h.mem_allocs hu hm
    refine guarded_orPanic ((h.pages.pageFreeMap hm ha).guarded.mono ?_)
    rintro ⟨mem', r⟩ ⟨hr, hp', hb, hf⟩
    refine ⟨fun _ => ⟨page, hm, h.of_mem hp' hb ?_ fun q => ?_, hf⟩, fun _ => hr⟩
    · exact fun u' v' q hq => h.covered u' v' q (mem_of_mem_erase hq)
    · have ho := h.owned q
      have hc := (perm_cons_erase ha).count_eq q
      have hmp := (userPages_erase kernelVm hm).count_eq q
      rw [if_neg hu, count_cons] at hmp
      rw [count_cons] at hc
      dsimp only
      omega
  · obtain ⟨e, he⟩ : ∃ e, pmapExtract kernelVm u v s.mem = .error e := by
      refine pmapExtract_unmapped hu ?_
      rw [hv.floor]
      exact h.not_pteValid hv (not_exists.mp hmap)
    rw [Glatt.pageFreeMap, pageExtract, he]
    exact guarded_error fun hq => hmap (hQ hq)

end

end Pages

/-! ## Addresses -/

section Addresses

variable [DecidableEq ι] {index index' : IndexMap ι} {vaddr pages : UInt64} {o : ℕ}

section

variable (h : Taken index index' vaddr pages)
include h

section

omit [DecidableEq ι]

theorem Taken.pageAligned : PageAligned vaddr := by
  apply UInt64.toNat_inj.mp
  rw [toNat_pageOffset]
  exact Nat.mod_eq_zero_of_dvd h.aligned

theorem Taken.toNat_pageAt (ho : o < pages.toNat) :
    (pageAt vaddr o).toNat = vaddr.toNat + o * 8192 := by
  have hlt : o * 8192 < pages.toNat * 8192 := Nat.mul_lt_mul_of_pos_right ho (by decide)
  exact Glatt.toNat_pageAt ((Nat.add_lt_add_left hlt _).trans h.fits)

theorem Taken.spans_pageAt (ho : o < pages.toNat) : Spans vaddr pages (pageAt vaddr o) := by
  rw [Spans, h.toNat_pageAt ho]
  omega

theorem Taken.inUse_pageAt (ho : o < pages.toNat) :
    InUseAt index' (pageAt vaddr o) := (h.inUse _).mpr (.inr (h.spans_pageAt ho))

end

end

omit [DecidableEq ι] in
theorem VmOwned.setIndex (h : VmOwned kernelVm s l held)
    (hs : ∃ a b, 8192 ∣ a ∧ b < 2 ^ 64 ∧ IndexInv a b index' ∧
      ∀ w, PageAligned w → a ≤ w.toNat → w.toNat < b → ¬ (s.mem.pmap u).Outside w)
    (hc : ∀ v page, (u, v, page) ∈ l.maps → InUseAt index' v) :
    VmOwned kernelVm (s.setIndex u index') l held := by
  refine ⟨h.pages, fun u' => ?_, fun u' v page hm => ?_, h.owned⟩
  · by_cases hu : u' = u
    · subst hu
      rw [VmState.setIndex_self]
      exact hs
    · rw [s.setIndex_of_ne hu]
      exact h.spaces u'
  · by_cases hu : u' = u
    · subst hu
      rw [VmState.setIndex_self]
      exact hc v page hm
    · rw [s.setIndex_of_ne hu]
      exact h.covered u' v page hm

theorem VmOwned.allocAddress (h : VmOwned kernelVm s l held) {new₁ new₂ : Option ι}
    (hn : ∀ T, (s.index u).vmIndex.Represents T → Fresh new₁ new₂ T) (hpg : 1 ≤ pages)
    (high : Bool) :
    Ensures (vmAllocAddress new₁ new₂ pages high (s.index u)) fun p =>
      VmOwned kernelVm (s.setIndex u p.1) l held ∧
      (∀ vaddr, p.2 = .ok vaddr → Taken (s.index u) p.1 vaddr pages ∧ HasRoom (s.index u) pages ∧
        ∀ o < pages.toNat, ∀ page, (u, pageAt vaddr o, page) ∉ l.maps) ∧
      ∀ e, p.2 = .error e → p.1 = s.index u ∧
        (¬ HasRoom (s.index u) pages ∨ new₁ = none ∨ new₂ = none) := by
  obtain ⟨a, b, ha, hb, hinv, hin⟩ := h.spaces u
  refine (hinv.allocAddress_taken ha hb hn hpg high).mono ?_
  rintro ⟨index', r⟩ ⟨hinv', htk, hs⟩
  refine ⟨h.setIndex ⟨a, b, ha, hb, hinv', hin⟩ fun v page hm => ?_, fun vaddr hr => ?_,
    fun e he => ⟨(hs e he).1, ?_⟩⟩
  · have hu := h.covered u v page hm
    cases r with
    | ok vaddr => exact ((htk vaddr rfl).1.inUse v).mpr (.inl hu)
    | error e => exact (hs e rfl).1 ▸ hu
  · obtain ⟨ht, hrm⟩ := htk vaddr hr
    exact ⟨ht, hrm, fun o ho page hm => ht.free _ (ht.spans_pageAt ho) (h.covered u _ page hm)⟩
  · rcases (hs e he).2 with ⟨-, hrm⟩ | ⟨-, -, hp⟩
    · exact .inl hrm
    · split at hp
      · exact .inr (.inl hp)
      · exact .inr (.inr hp)

theorem VmOwned.releaseAddress (h : VmOwned kernelVm s l held)
    (hc : ∀ v page, (u, v, page) ∈ l.maps → ¬ OneIndex (s.index u) vaddr v)
    (huse : InUseAt (s.index u) vaddr) :
    Ensures (vmReleaseAddress u vaddr s) fun s' => VmOwned kernelVm s' l held ∧
      s'.mem = s.mem ∧ (∀ u' ≠ u, s'.index u' = s.index u') ∧
      ∀ w, InUseAt (s'.index u) w ↔ InUseAt (s.index u) w ∧ ¬ OneIndex (s.index u) vaddr w := by
  obtain ⟨a, b, ha, hb, hinv, hin⟩ := h.spaces u
  obtain ⟨⟨index', r⟩, hrun, hinv', hr, hg⟩ := hinv.freeAddress_given hb huse
  subst hr
  rw [vmReleaseAddress, hrun]
  refine .ret ⟨?_, rfl, fun u' hu' => s.setIndex_of_ne hu' _, fun w => ?_⟩
  · refine h.setIndex ⟨a, b, ha, hb, hinv', hin⟩ fun v page hm => ?_
    exact (hg v).mpr ⟨h.covered u v page hm, hc v page hm⟩
  · rw [VmState.setIndex_self]
    exact hg w

theorem vmReleaseAddress_none {a b : ℕ} (hinv : IndexInv a b (s.index u)) (hb : b < 2 ^ 64)
    (hu : ∀ T x, (s.index u).vmIndex.Represents T → x ∈ T.inorder → (s.index u).Holds x vaddr →
      ((s.index u).vmi x).inUse)
    (huse : ¬ InUseAt (s.index u) vaddr) : vmReleaseAddress u vaddr s = .error .panic := by
  obtain ⟨T, F, hL, ht⟩ := hinv
  obtain ⟨r, hrun, hr⟩ := vmFindIndex_spec hL vaddr
  cases r with
  | none => simp only [vmReleaseAddress, vmFreeAddress, hrun]; rfl
  | some x =>
    obtain ⟨hx, hle, ha⟩ := hr x rfl
    refine absurd ⟨T, x, hL.tree, hx, hu T x hL.tree hx ⟨hle, ha⟩, ?_⟩ huse
    rcases ha with rfl | hlt
    · exact covers_base ht hb hx
    · exact ⟨hle, hlt⟩

end Addresses

/-! ## Allocation and release of pages with their addresses -/

theorem pageAt_injective {vaddr : UInt64} {o o' : ℕ} (ho : o < 2 ^ 51) (ho' : o' < 2 ^ 51)
    (h : pageAt vaddr o = pageAt vaddr o') : o = o' := by
  have hs : pageSize.toNat = 8192 := rfl
  have hm : UInt64.ofNat o * pageSize = UInt64.ofNat o' * pageSize := (UInt64.add_right_inj _).mp h
  have hn := congrArg UInt64.toNat hm
  rw [UInt64.toNat_mul, UInt64.toNat_mul, toNat_ofNat (by omega), toNat_ofNat (by omega), hs] at hn
  omega

section Ranges

variable [DecidableEq ι] {index₀ : IndexMap ι} {vaddr pages : UInt64} {new₁ new₂ : Option ι}

section

variable (h : VmOwned kernelVm s l held)
include h

omit [DecidableEq ι] in
theorem VmOwned.vmMapPages (ht : Taken index₀ (s.index u) vaddr pages)
    (hn : ∀ o < pages.toNat, ∀ page, (u, pageAt vaddr o, page) ∉ l.maps)
    (hQ : Q → 3 * pages.toNat ≤ s.mem.freePages) :
    Guarded Q (vmMapPages kernelVm u vaddr pages s.mem) fun mem' =>
      ∃ l', VmOwned kernelVm { s with mem := mem' } l' held ∧
        (∀ o < pages.toNat, ∃ page, (u, pageAt vaddr o, page) ∈ l'.maps) ∧
        s.mem.freePages ≤ mem'.freePages + 3 * pages.toNat := by
  -- before round `i` the first `i` pages are mapped, and no other page of the range
  refine (Guarded.forRange (I := fun i mem => ∃ l', VmOwned kernelVm { s with mem } l' held ∧
    (∀ v page, (u, v, page) ∈ l'.maps → (u, v, page) ∈ l.maps ∨ ∃ o < i, v = pageAt vaddr o) ∧
    (∀ o < i, ∃ page, (u, pageAt vaddr o, page) ∈ l'.maps) ∧
    s.mem.freePages ≤ mem.freePages + 3 * i) ?_ ?_).mono ?_
  · rintro i hi mem ⟨l', h', hon, ha, hf⟩
    have hv := pageAligned_pageAt ht.pageAligned i
    have hnew : ∀ q, (u, pageAt vaddr i, q) ∉ l'.maps := by
      intro q hm
      rcases hon _ q hm with hm | ⟨o, ho, heq⟩
      · exact hn i hi q hm
      · have := congrArg UInt64.toNat heq
        rw [ht.toNat_pageAt hi, ht.toNat_pageAt (ho.trans hi)] at this
        omega
    refine (h'.pageAllocMap hv (ht.inUse_pageAt hi) hnew fun hq => ?_).mono ?_
    · have := hQ hq
      dsimp only
      omega
    · rintro mem' ⟨page, h'', hf'⟩
      refine ⟨_, h'', fun v q hm => ?_, fun o ho => ?_, by dsimp only at hf'; omega⟩
      · rcases mem_cons.mp hm with heq | hm
        · cases heq
          exact .inr ⟨i, i.lt_succ_self, rfl⟩
        · exact (hon v q hm).imp_right fun ⟨o, ho, hv⟩ => ⟨o, ho.trans i.lt_succ_self, hv⟩
      · rcases Nat.lt_succ_iff_lt_or_eq.mp ho with ho | rfl
        · obtain ⟨q, hm⟩ := ha o ho
          exact ⟨q, mem_cons_of_mem _ hm⟩
        · exact ⟨page, mem_cons_self⟩
  · exact ⟨l, h, fun v page hm => .inl hm, nofun, by omega⟩
  · rintro mem' ⟨l', h', -, ha, hf⟩
    exact ⟨l', h', ha, hf⟩

theorem VmOwned.vmAlloc (hnew : ∀ T, (s.index u).vmIndex.Represents T → Fresh new₁ new₂ T)
    {size : UInt64} (hp : 1 ≤ pageCount size)
    (hl : u = kernelVm → ¬ size < poolMaxAlloc ∧ pageCount size ≠ 1)
    (hQ : Q → HasRoom (s.index u) (pageCount size) → 3 * (pageCount size).toNat ≤ s.mem.freePages) :
    Guarded Q (vmAlloc kernelVm new₁ new₂ u size flags s) fun r =>
      (∃ l', VmOwned kernelVm r.1 l' held ∧ ∀ vaddr, r.2 = .ok vaddr →
        ∀ o < (pageCount size).toNat, ∃ page, (u, pageAt vaddr o, page) ∈ l'.maps) ∧
      (∀ u' ≠ u, r.1.index u' = s.index u') ∧
      (∀ e, r.2 = .error e → ¬ HasRoom (s.index u) (pageCount size) ∨ new₁ = none ∨ new₂ = none) ∧
      s.mem.freePages ≤ r.1.mem.freePages + 3 * (pageCount size).toNat := by
  have hsm : ¬ (u = kernelVm ∧ size < poolMaxAlloc) := fun hc => (hl hc.1).1 hc.2
  have hone : ¬ (u = kernelVm ∧ pageCount size = 1) := fun hc => (hl hc.1).2 hc.2
  simp only [Glatt.vmAlloc, if_neg hsm, if_neg hone]
  refine (h.allocAddress hnew hp _).guarded.bind ?_
  rintro ⟨index, r⟩ ⟨hs, htk, he⟩
  have ho : ∀ u' ≠ u, (s.setIndex u index).index u' = s.index u' :=
    fun u' hu' => s.setIndex_of_ne hu' _
  cases r with
  | error e =>
    exact guarded_pure ⟨⟨l, hs, nofun⟩, ho, fun _ _ => (he e rfl).2, Nat.le_add_right _ _⟩
  | ok vaddr =>
    obtain ⟨ht, hr, hn⟩ := htk vaddr rfl
    rw [← s.setIndex_self u index] at ht
    refine (onMem_guarded (hs.vmMapPages ht hn fun hq => hQ hq hr)).bind ?_
    rintro ⟨mem', -⟩ ⟨⟨l', h', ha, hf⟩, rfl⟩
    refine guarded_pure ⟨⟨l', h', ?_⟩, ho, nofun, hf⟩
    rintro _ ⟨⟩
    exact ha

theorem VmOwned.vmAllocPage (hu : u ≠ kernelVm)
    (hnew : ∀ T, (s.index u).vmIndex.Represents T → Fresh new₁ new₂ T)
    (hQ : Q → HasRoom (s.index u) 1 → 3 ≤ s.mem.freePages) :
    Guarded Q (vmAllocPage kernelVm new₁ new₂ u s) fun r => ∃ l', VmOwned kernelVm r.1 l' held := by
  rw [Glatt.vmAllocPage, if_neg hu]
  refine (h.allocAddress hnew (by decide) _).guarded.bind ?_
  rintro ⟨index, r⟩ ⟨hs, htk, -⟩
  cases r with
  | error e => exact guarded_pure ⟨l, hs⟩
  | ok vaddr =>
    obtain ⟨ht, hr, hn⟩ := htk vaddr rfl
    have hz : pageAt vaddr 0 = vaddr := by simp [pageAt]
    have huse : InUseAt ((s.setIndex u index).index u) vaddr := by
      rw [s.setIndex_self, ← hz]
      exact ht.inUse_pageAt (by decide)
    refine (onMem_guarded (hs.pageAllocMap ht.pageAligned huse (fun q => ?_)
      fun hq => hQ hq hr)).bind ?_
    · rw [← hz]
      exact hn 0 (by decide) q
    · rintro ⟨mem', -⟩ ⟨⟨page, h', -⟩, rfl⟩
      exact guarded_pure ⟨_, h'⟩

section

omit [DecidableEq ι]

theorem VmOwned.eq_of_mem_maps {page' : UInt64} (hm : (u, v, page) ∈ l.maps)
    (hm' : (u, v, page') ∈ l.maps) : page = page' :=
  Except.ok.inj (Except.ok.inj ((h.pages.pageExtract hm).symm.trans (h.pages.pageExtract hm')))

theorem VmOwned.not_mem_erase (hm : (u, v, page) ∈ l.maps) (q : UInt64) :
    (u, v, q) ∉ l.maps.erase (u, v, page) := by
  intro hq
  obtain ⟨hne, hq⟩ := h.pages.mapped.nodup.mem_erase_iff.mp hq
  exact hne (by rw [h.eq_of_mem_maps hm hq])

theorem VmOwned.vmFreePages (hu : u ≠ kernelVm) (hv : PageAligned vaddr)
    (hlt : pages.toNat < 2 ^ 51)
    (hQ : Q → ∀ o < pages.toNat, ∃ page, (u, pageAt vaddr o, page) ∈ l.maps) :
    Guarded Q (vmFreePages kernelVm u vaddr pages s.mem) fun mem' =>
      ∃ l', VmOwned kernelVm { s with mem := mem' } l' held ∧ (∀ m ∈ l'.maps, m ∈ l.maps) ∧
        ∀ o < pages.toNat, ∀ page, (u, pageAt vaddr o, page) ∉ l'.maps := by
  -- before round `i` the first `i` pages are unmapped, and the others as they were
  refine (Guarded.forRange (I := fun i mem => ∃ l', VmOwned kernelVm { s with mem } l' held ∧
    (∀ m ∈ l'.maps, m ∈ l.maps) ∧ (∀ o < i, ∀ page, (u, pageAt vaddr o, page) ∉ l'.maps) ∧
    ∀ m ∈ l.maps, (∀ o < i, m.2.1 ≠ pageAt vaddr o) → m ∈ l'.maps) ?_ ?_).mono ?_
  · rintro i hi mem ⟨l', h', hs, hg, hr⟩
    refine (h'.pageFreeMap hu (pageAligned_pageAt hv i) fun hq => ?_).mono ?_
    · obtain ⟨page, hm⟩ := hQ hq i hi
      refine ⟨page, hr _ hm fun o ho heq => ?_⟩
      have := pageAt_injective (by omega) (by omega) heq
      omega
    · rintro mem' ⟨page, hm, h'', -⟩
      refine ⟨_, h'', fun m hmem => hs m (mem_of_mem_erase hmem), fun o ho q hq => ?_,
        fun m hmem hne => ?_⟩
      · rcases Nat.lt_succ_iff_lt_or_eq.mp ho with ho | rfl
        · exact hg o ho q (mem_of_mem_erase hq)
        · exact h'.not_mem_erase hm q hq
      · refine (mem_erase_of_ne ?_).mpr (hr m hmem fun o ho => hne o (ho.trans i.lt_succ_self))
        rintro rfl
        exact hne i i.lt_succ_self rfl
  · exact ⟨l, h, fun m hm => hm, nofun, fun m hm _ => hm⟩
  · rintro mem' ⟨l', h', hs, hg, -⟩
    exact ⟨l', h', hs, hg⟩

end

theorem VmOwned.vmFree (hu : u ≠ kernelVm) (hv : PageAligned vaddr) {size : UInt64}
    (hr : Releasable s u vaddr (pageCount size).toNat)
    (hQ : Q → InUseAt (s.index u) vaddr ∧ ∀ o < (pageCount size).toNat, ∃ page, (u, pageAt vaddr o,
      page) ∈ l.maps) :
    Guarded Q (vmFree kernelVm u size vaddr s) fun r => ∃ l', VmOwned kernelVm r.1 l' held := by
  have hlt : (pageCount size).toNat < 2 ^ 51 := by
    rw [pageCount, toNat_addrToPage]
    have := (size + (pageSize - 1)).toNat_lt
    omega
  simp only [Glatt.vmFree, hu]
  refine (onMem_guarded (h.vmFreePages hu hv hlt fun hq => (hQ hq).2)).bind ?_
  rintro ⟨mem', -⟩ ⟨⟨l', h', hs, hg⟩, rfl⟩
  by_cases huse : InUseAt (s.index u) vaddr
  · refine (h'.releaseAddress (fun v page hm hone => ?_) huse).guarded.bind ?_
    -- all that was mapped in the index has been unmapped
    · obtain ⟨T, x, hT, hx, hc, hc'⟩ := hone
      have hmp : MappedAt s.mem u v :=
        ⟨(h.pages.mapped.entry u v page (hs _ hm)).1, (h.pages.mapped.pmapExtract (hs _ hm)).1⟩
      obtain ⟨o, ho, rfl⟩ := (hr T x hT hx ⟨hc.1, .inr hc.2⟩).2 v hmp hc'
      rw [(pageAligned_pageAt hv o).floor] at hm
      exact hg o ho page hm
    · rintro s' ⟨h'', -⟩
      exact guarded_pure ⟨l', h''⟩
  · obtain ⟨a, b, -, hb, hinv, -⟩ := h'.spaces u
    rw [vmReleaseAddress_none hinv hb (fun T x hT hx hx' => (hr T x hT hx hx').1) huse]
    exact guarded_error fun hq => huse (hQ hq).1

end

end Ranges

end Glatt
