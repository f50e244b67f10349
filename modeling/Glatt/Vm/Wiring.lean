import Glatt.Vm.Holdings

/-!
# The kernel's view of a user's pages

`vm_wire` and `vm_unwire` on pages, addresses and the ledger. One page of a user is wired in the
direct map, more than one at addresses of the kernel; a page that is not there is faulted in. What
the kernel holds after `vm_unwire` is what it held before `vm_wire`, whatever users have done with
their pages in between.

## Main definitions

* `Wirable`: the kernel can wire a range of a user
* `Wired`: a range that it has wired

## Main results

* `VmOwned.vmWire`: the pages of a user are wired
* `VmOwned.vmUnwire`: what was wired is given back
-/

namespace Glatt

open Imperative Function List

variable {ν ι : Type} [DecidableEq ν] {kernelVm u : ν} {v page : UInt64} {l l' l₁ l₂ : Ledger ν}
  {s s' : VmState ν ι} {held : UInt64 → ℕ} {n : ℕ} {f : ℕ → UInt64} {fault : Bool}

/-! ## The kernel's mappings -/

/-- The references to a page from the direct map and from the kernel's page table. -/
def Ledger.kernelRefs (kernelVm : ν) (l : Ledger ν) (page : UInt64) : ℕ :=
  l.directs.count page + ((kernelMaps kernelVm l.maps).map fun m => m.2.2).count page

/-- The kernel's mappings are the same. -/
structure KernelSame (kernelVm : ν) (l l' : Ledger ν) : Prop where
  directs : l'.directs = l.directs
  maps : (kernelMaps kernelVm l'.maps).Perm (kernelMaps kernelVm l.maps)

theorem KernelSame.refl (kernelVm : ν) (l : Ledger ν) : KernelSame kernelVm l l := ⟨rfl, .refl _⟩

theorem KernelSame.trans (h : KernelSame kernelVm l l₁) (h' : KernelSame kernelVm l₁ l₂) :
    KernelSame kernelVm l l₂ := ⟨h'.directs.trans h.directs, h'.maps.trans h.maps⟩

section

variable (h : KernelSame kernelVm l l')
include h

theorem KernelSame.kernelRefs (page : UInt64) :
    l'.kernelRefs kernelVm page = l.kernelRefs kernelVm page := by
  rw [Ledger.kernelRefs, Ledger.kernelRefs, h.directs, (h.maps.map _).count_eq]

theorem KernelSame.mem_maps : (kernelVm, v, page) ∈ l'.maps ↔ (kernelVm, v, page) ∈ l.maps := by
  rw [← mem_kernelMaps, h.maps.mem_iff, mem_kernelMaps]

theorem KernelSame.map (hu : u ≠ kernelVm) {allocs : List UInt64} :
    KernelSame kernelVm l { l' with allocs, maps := (u, v, page) :: l'.maps } := by
  refine ⟨h.directs, ?_⟩
  rw [kernelMaps_cons, if_neg hu]
  exact h.maps

theorem KernelSame.unmap (hu : u ≠ kernelVm) (hm : (u, v, page) ∈ l'.maps) {allocs : List UInt64} :
    KernelSame kernelVm l { l' with allocs, maps := l'.maps.erase (u, v, page) } := by
  refine ⟨h.directs, ?_⟩
  have he := kernelMaps_erase kernelVm hm
  rw [if_neg hu] at he
  exact he.symm.trans h.maps

theorem KernelSame.allocs {allocs : List UInt64} :
    KernelSame kernelVm l { l' with allocs } := ⟨h.directs, h.maps⟩

end

/-! ## One page -/

theorem VmOwned.pageExtract_notFound (h : VmOwned kernelVm s l held) (hv : PageAligned v)
    (hu : InUseAt (s.index u) v) (hn : ∀ q, (u, v, q) ∉ l.maps) :
    pageExtract kernelVm u v s.mem = .ok (.error .notFound) := by
  have hin := h.inside hv hu
  have hiv := h.not_pteValid hv hn
  have he : pmapExtract kernelVm u v s.mem = .error .notFound := by
    rw [Pmap.pte] at hiv
    simp only [pmapExtract, hv.floor, if_neg (Pmap.not_direct hin), if_neg hin]
    cases hf : pmapFind (s.mem.pmap u) v with
    | none => rfl
    | some x =>
      rw [hf] at hiv
      exact if_neg hiv
  rw [pageExtract, he]
  rfl

theorem VmOwned.mapPage (h : VmOwned kernelVm s l held) (hv : PageAligned v)
    (hu : InUseAt (s.index u) v) (hn : ∀ q, (u, v, q) ∉ l.maps) (hp : page ∈ l.allocs)
    (hs : l.Slack 2) (hf : 2 ≤ s.mem.freePages) (held' : UInt64 → ℕ)
    (ho : ∀ q, (userPages kernelVm ((u, v, page) :: l.maps)).count q + held' q ≤ l.allocs.count q) :
    Ensures (orPanic (Glatt.pageMap kernelVm u v page s.mem)) fun mem' =>
      VmOwned kernelVm { s with mem := mem' } { l with maps := (u, v, page) :: l.maps } held' ∧
      s.mem.freePages ≤ mem'.freePages + 2 := by
  have hm := h.pageMap (Q := True) hv hu hn hp hs (fun _ => hf) ho
  obtain ⟨⟨mem', r⟩, hrun, hr, h', hf'⟩ := hm.ensures trivial
  exact ensures_orPanic ⟨_, hrun, hr, h', hf'⟩

theorem VmOwned.unmapPage (h : VmOwned kernelVm s l held) (hm : (u, v, page) ∈ l.maps)
    (held' : UInt64 → ℕ)
    (ho : ∀ q, (userPages kernelVm (l.maps.erase (u, v, page))).count q + held' q ≤
      l.allocs.count q) :
    Ensures (orPanic (Glatt.pageUnmap u v page s.mem)) fun mem' =>
      VmOwned kernelVm { s with mem := mem' } { l with maps := l.maps.erase (u, v, page) } held' ∧
      s.mem.freePages ≤ mem'.freePages := by
  obtain ⟨⟨mem', r⟩, hrun, hr, h', hf⟩ := h.pageUnmap hm ho
  exact ensures_orPanic ⟨_, hrun, hr, h', hf⟩

/-- **Pages have been faulted in**: no mapping is lost, and what is new for the user is a page that
had no mappings. -/
structure FaultedIn (u : ν) (l l' : Ledger ν) : Prop where
  keeps : ∀ m ∈ l.maps, m ∈ l'.maps
  new : ∀ w page, (u, w, page) ∈ l'.maps → (u, w, page) ∈ l.maps ∨ l.mapRefs page = 0

section

omit [DecidableEq ν]

theorem FaultedIn.refl (u : ν) (l : Ledger ν) : FaultedIn u l l :=
  ⟨fun _ hm => hm, fun _ _ hm => .inl hm⟩

theorem FaultedIn.trans (h : FaultedIn u l l₁) (hd : l₁.directs = l.directs)
    (h' : FaultedIn u l₁ l₂) : FaultedIn u l l₂ := by
  refine ⟨fun m hm => h'.keeps m (h.keeps m hm), fun w page hm => ?_⟩
  rcases h'.new w page hm with hm | hr
  · exact h.new w page hm
  · -- a page without mappings had none before
    rw [Ledger.mapRefs, Nat.add_eq_zero_iff, count_eq_zero, count_eq_zero] at hr
    right
    rw [Ledger.mapRefs, ← hd, count_eq_zero.mpr hr.1, Nat.zero_add, count_eq_zero]
    intro hmem
    obtain ⟨m, hl, hp⟩ := mem_map.mp hmem
    exact hr.2 (mem_map.mpr ⟨m, h.keeps m hl, hp⟩)

theorem FaultedIn.kernelMap (h : FaultedIn u l l') (hu : u ≠ kernelVm) :
    FaultedIn u l { l' with maps := (kernelVm, v, page) :: l'.maps } := by
  refine ⟨fun m hm => mem_cons_of_mem _ (h.keeps m hm), fun w q hm => ?_⟩
  rcases mem_cons.mp hm with heq | hm
  · exact absurd (congrArg Prod.fst heq) hu
  · exact h.new w q hm

end

/-- The pages of a user that `vm_wire` may be called for: each is mapped, or can be faulted in. -/
def Wirable (s : VmState ν ι) (l : Ledger ν) (u : ν) (v : UInt64) (fault : Bool) : Prop :=
  (∃ page, (u, v, page) ∈ l.maps) ∨ fault = true ∧ InUseAt (s.index u) v

theorem VmOwned.vmWirePage (h : VmOwned kernelVm s l held) (hu : u ≠ kernelVm) (hv : PageAligned v)
    (hw : Wirable s l u v fault) (hs : l.Slack (n + 2))
    (hn : n + 3 < 2 ^ 32) (hf : 3 ≤ s.mem.freePages) :
    Ensures (vmWirePage kernelVm u v fault s.mem) fun r => ∃ l',
      VmOwned kernelVm { s with mem := r.1 } l' held ∧ KernelSame kernelVm l l' ∧
      FaultedIn u l l' ∧ (u, v, r.2) ∈ l'.maps ∧ l'.Slack (n + 2) ∧
      s.mem.freePages ≤ r.1.freePages + 3 := by
  by_cases hmp : ∃ page, (u, v, page) ∈ l.maps
  · obtain ⟨page, hm⟩ := hmp
    rw [Glatt.vmWirePage, h.pages.pageExtract hm]
    exact .ret ⟨l, h, .refl kernelVm l, .refl u l, hm, hs, Nat.le_add_right _ _⟩
  · obtain ⟨rfl, huse⟩ := hw.resolve_left hmp
    have hno := not_exists.mp hmp
    rw [vmWirePage, h.pageExtract_notFound hv huse hno]
    refine h.pageAlloc.bind ?_
    rintro ⟨pages, r⟩ (⟨e, -, hz⟩ | ⟨page, rfl, hr, h₁, hf₁⟩)
    · omega
    · dsimp only at hf₁
      have hs₁ : Ledger.Slack { l with allocs := page :: l.allocs } (n + 2) :=
        hs.alloc (by omega) hr
      refine (h₁.mapPage hv huse hno mem_cons_self (hs₁.mono (by omega))
        (by dsimp only; omega) held fun q => ?_).bind ?_
      · -- the page that was held is the user's now
        have ho := h₁.owned q
        dsimp only at ho
        rw [userPages_cons, if_neg hu, count_cons]
        rw [bump] at ho
        simp only [beq_iff_eq, eq_comm (a := page)]
        omega
      · rintro mem' ⟨h₂, hf₂⟩
        refine .ret ⟨_, h₂, (KernelSame.refl kernelVm l).map hu,
          ⟨fun m hm => mem_cons_of_mem _ hm, fun w q hm => ?_⟩, mem_cons_self, ?_, ?_⟩
        · rcases mem_cons.mp hm with heq | hm
          · obtain ⟨rfl, rfl⟩ : w = v ∧ q = page := by simpa using heq
            exact .inr hr
          · exact .inl hm
        -- the new page has one mapping, the others as many as before
        · intro q hq
          rw [mapRefs_map { l with allocs := page :: l.allocs }]
          change l.mapRefs q + (if q = page then 1 else 0) + (n + 2) < 2 ^ 32
          split
          · rename_i hqp
            rw [hqp]
            omega
          · exact hs q ((mem_cons.mp hq).resolve_left ‹_›)
        · dsimp only at hf₂ ⊢
          omega

/-! ## Wiring -/

def kernelEntries (kernelVm : ν) (kvaddr : UInt64) (f : ℕ → UInt64) (n : ℕ) :
    List (ν × UInt64 × UInt64) := (range n).map fun o => (kernelVm, pageAt kvaddr o, f o)

/-- **What `vm_wire` has added**: a page in the direct map, or mappings at addresses that the kernel
has allocated for them. -/
inductive Wired (kernelVm u : ν) (vaddr pages kvaddr : UInt64) (s s' : VmState ν ι)
    (l l' : Ledger ν) : Prop
  | one (page : UInt64) (hpages : pages = 1) (hm : (u, vaddr, page) ∈ l'.maps)
      (hdirects : l'.directs = page :: l.directs)
      (hmaps : (kernelMaps kernelVm l'.maps).Perm (kernelMaps kernelVm l.maps))
      (hindex : s'.index kernelVm = s.index kernelVm)
  | many (f : ℕ → UInt64) (hpages : pages ≠ 1) (hdirects : l'.directs = l.directs)
      (hmaps : (kernelMaps kernelVm l'.maps).Perm
        (kernelEntries kernelVm kvaddr f pages.toNat ++ kernelMaps kernelVm l.maps))
      (ht : Taken (s.index kernelVm) (s'.index kernelVm) kvaddr pages)

section

omit [DecidableEq ν]

variable {kvaddr : UInt64}

theorem kernelEntries_succ : kernelEntries kernelVm kvaddr f (n + 1) =
      kernelEntries kernelVm kvaddr f n ++ [(kernelVm, pageAt kvaddr n, f n)] := by
  rw [kernelEntries, range_succ, map_append]
  rfl

theorem kernelEntries_update : kernelEntries kernelVm kvaddr (update f n page) n =
      kernelEntries kernelVm kvaddr f n := by
  refine map_congr_left fun o ho => ?_
  rw [update_of_ne (Nat.ne_of_lt (mem_range.mp ho))]

theorem mem_kernelEntries {kvaddr : UInt64} {m : ν × UInt64 × UInt64} :
    m ∈ kernelEntries kernelVm kvaddr f n ↔ ∃ o < n, (kernelVm, pageAt kvaddr o, f o) = m := by
  simp [kernelEntries]

end

theorem kernelMaps_kernelEntries (kvaddr : UInt64) :
    kernelMaps kernelVm (kernelEntries kernelVm kvaddr f n) =
      kernelEntries kernelVm kvaddr f n := by
  refine filter_eq_self.mpr fun m hm => ?_
  obtain ⟨o, -, rfl⟩ := mem_kernelEntries.mp hm
  exact decide_eq_true rfl

section Wire

variable [DecidableEq ι] {vaddr kvaddr pages : UInt64} {index₀ : IndexMap ι}

section

variable (h : VmOwned kernelVm s l held)
include h

omit [DecidableEq ι] in
theorem VmOwned.vmWirePages (hu : u ≠ kernelVm) (hv : PageAligned vaddr)
    (ht : Taken index₀ (s.index kernelVm) kvaddr pages)
    (hn : ∀ o < pages.toNat, ∀ page, (kernelVm, pageAt kvaddr o, page) ∉ l.maps)
    (hw : ∀ o < pages.toNat, Wirable s l u (pageAt vaddr o) fault)
    (hs : l.Slack (pages.toNat + 2)) (hpg : pages.toNat + 3 < 2 ^ 32)
    (hf : 5 * pages.toNat ≤ s.mem.freePages) :
    Ensures (vmWirePages kernelVm u vaddr kvaddr pages fault s.mem) fun mem' => ∃ l' f,
      VmOwned kernelVm { s with mem := mem' } l' held ∧ l'.directs = l.directs ∧
      (kernelMaps kernelVm l'.maps).Perm
        (kernelEntries kernelVm kvaddr f pages.toNat ++ kernelMaps kernelVm l.maps) ∧
      FaultedIn u l l' ∧ (∀ o < pages.toNat, ∃ page, (u, pageAt vaddr o, page) ∈ l'.maps) ∧
      l'.Slack 2 ∧ s.mem.freePages ≤ mem'.freePages + 5 * pages.toNat := by
  -- before round `i` the kernel has mappings for the first `i` pages
  refine (Ensures.forRange (I := fun i mem => ∃ l' f,
    VmOwned kernelVm { s with mem } l' held ∧ l'.directs = l.directs ∧
    (kernelMaps kernelVm l'.maps).Perm
      (kernelEntries kernelVm kvaddr f i ++ kernelMaps kernelVm l.maps) ∧
    FaultedIn u l l' ∧ (∀ o < i, ∃ page, (u, pageAt vaddr o, page) ∈ l'.maps) ∧
    l'.Slack (pages.toNat - i + 2) ∧
    s.mem.freePages ≤ mem.freePages + 5 * i) ?_ ?_).mono ?_
  · rintro i hi mem ⟨l₁, f, h₁, hd, hmp, hin, ha, hs₁, hf₁⟩
    have hw₁ : Wirable { s with mem } l₁ u (pageAt vaddr i) fault :=
      (hw i hi).imp_left fun ⟨page, hm⟩ => ⟨page, hin.keeps _ hm⟩
    obtain ⟨k, hk⟩ : ∃ k, pages.toNat - i = k + 1 := ⟨pages.toNat - i - 1, by omega⟩
    rw [hk] at hs₁
    refine (h₁.vmWirePage hu (pageAligned_pageAt hv i) hw₁ hs₁ (by omega)
      (by dsimp only; omega)).bind ?_
    rintro ⟨mem₂, page⟩ ⟨l₂, h₂, hsm, hin₂, hm, hs₂, hf₂⟩
    dsimp only at hf₂
    have hp := hsm.maps.trans hmp
    have hnew : ∀ q, (kernelVm, pageAt kvaddr i, q) ∉ l₂.maps := by
      intro q hq
      rcases mem_append.mp (hp.mem_iff.mp (mem_kernelMaps.mpr hq)) with hq | hq
      · obtain ⟨o, ho, heq⟩ := mem_kernelEntries.mp hq
        have hat := congrArg UInt64.toNat (congrArg (fun m => m.2.1) heq)
        rw [ht.toNat_pageAt hi, ht.toNat_pageAt (ho.trans hi)] at hat
        omega
      · exact hn i hi q (mem_kernelMaps.mp hq)
    refine (h₂.mapPage (pageAligned_pageAt ht.pageAligned i) (ht.inUse_pageAt hi) hnew
      (h₂.mem_allocs hu hm) (hs₂.mono (by omega)) (by dsimp only; omega) held fun q => ?_).mono
      ?_
    · rw [userPages_cons, if_pos rfl]
      exact h₂.owned q
    · rintro mem₃ ⟨h₃, hf₃⟩
      refine ⟨_, update f i page, h₃, hsm.directs.trans hd, ?_,
        (hin.trans hd hin₂).kernelMap hu, fun o ho => ?_, ?_,
        by dsimp only at hf₃; omega⟩
      · rw [kernelMaps_cons, if_pos rfl, kernelEntries_succ, kernelEntries_update,
          update_self, append_assoc]
        exact (hp.cons _).trans perm_middle.symm
      · rcases Nat.lt_succ_iff_lt_or_eq.mp ho with ho | rfl
        · obtain ⟨q, hq⟩ := ha o ho
          exact ⟨q, mem_cons_of_mem _ (hin₂.keeps _ hq)⟩
        · exact ⟨page, mem_cons_of_mem _ hm⟩
      · have hc : pages.toNat - (i + 1) = k := by omega
        rw [hc]
        exact hs₂.map
  · refine ⟨l, fun _ => 0, h, rfl, .refl _, .refl u l, nofun, ?_, by omega⟩
    rw [Nat.sub_zero]
    exact hs
  · rintro mem' ⟨l', f, h', hd, hmp, hin, ha, hs', hf'⟩
    exact ⟨l', f, h', hd, hmp, hin, ha, hs'.mono (by omega), hf'⟩

omit [DecidableEq ι] in
theorem VmOwned.vmWireDirect (hp : page ∈ l.allocs) (hs : l.Slack (n + 2)) :
    Ensures (vmWireDirect page s.mem) fun r =>
      VmOwned kernelVm { s with mem := r.1 } { l with directs := page :: l.directs } held ∧
      Ledger.Slack { l with directs := page :: l.directs } (n + 1) ∧
      s.mem.freePages ≤ r.1.freePages := by
  refine (h.pageMapDirect hp (hs.mono (by omega))).bind ?_
  rintro ⟨pages, r⟩ ⟨hr, h', hf⟩
  subst hr
  exact .ret ⟨h', hs.direct, hf⟩

theorem VmOwned.vmWire (hu : u ≠ kernelVm) {uvaddr len : UInt64} {new₁ new₂ : Option ι}
    (hnew : ∀ T, (s.index kernelVm).vmIndex.Represents T → Fresh new₁ new₂ T)
    (hp : 1 ≤ wirePages uvaddr len)
    (hw : ∀ o < (wirePages uvaddr len).toNat, Wirable s l u (pageAt (pageFloor uvaddr) o) fault)
    (hr : wirePages uvaddr len ≠ 1 → HasRoom (s.index kernelVm) (wirePages uvaddr len) ∧
      new₁ ≠ none ∧ new₂ ≠ none)
    (hsl : l.Slack ((wirePages uvaddr len).toNat + 2))
    (hlt : (wirePages uvaddr len).toNat + 3 < 2 ^ 32)
    (hfr : 5 * (wirePages uvaddr len).toNat ≤ s.mem.freePages) :
    Ensures (vmWire kernelVm new₁ new₂ u uvaddr len fault s) fun r => ∃ l',
      VmOwned kernelVm r.1 l' held ∧
      Wired kernelVm u (pageFloor uvaddr) (wirePages uvaddr len) r.2.1 s r.1 l l' ∧
      FaultedIn u l l' ∧
      (∀ o < (wirePages uvaddr len).toNat, ∃ page,
        (u, pageAt (pageFloor uvaddr) o, page) ∈ l'.maps) ∧
      l'.Slack 2 ∧ (∀ u' ≠ kernelVm, r.1.index u' = s.index u') ∧
      s.mem.freePages ≤ r.1.mem.freePages + 5 * (wirePages uvaddr len).toNat := by
  have hfl := pageAligned_floor uvaddr
  rw [Glatt.vmWire, if_neg hu]
  change Ensures (if wirePages uvaddr len = 1 then _ else _) _
  by_cases hone : wirePages uvaddr len = 1
  · -- one page is in the direct map
    have hc : (wirePages uvaddr len).toNat = 1 := by rw [hone]; rfl
    have hz : pageAt (pageFloor uvaddr) 0 = pageFloor uvaddr := by simp [pageAt]
    have hw₀ := hw 0 (by omega)
    rw [hz] at hw₀
    rw [hc] at hsl
    rw [if_pos hone]
    refine (h.vmWirePage hu hfl hw₀ hsl (by omega) (by omega)).bind ?_
    rintro ⟨mem₁, page⟩ ⟨l₁, h₁, hsm, hin, hm, hsl₁, hfr₁⟩
    dsimp only at hfr₁
    refine (h₁.vmWireDirect (h₁.mem_allocs hu hm) hsl₁).bind ?_
    rintro ⟨mem₂, kvaddr⟩ ⟨h₂, hsl₂, hfr₂⟩
    dsimp only at hfr₂
    refine .ret ⟨_, h₂, ?_, ⟨hin.keeps, hin.new⟩, fun o ho => ?_, hsl₂,
      fun _ _ => rfl, by dsimp only; omega⟩
    · exact .one page hone hm (congrArg (page :: ·) hsm.directs) hsm.maps rfl
    · obtain rfl : o = 0 := by omega
      rw [hz]
      exact ⟨page, hm⟩
  · -- more pages are mapped at new addresses
    obtain ⟨hh, hnew₁, hnew₂⟩ := hr hone
    rw [if_neg hone]
    refine (h.allocAddress hnew hp false).bind ?_
    rintro ⟨index, r⟩ ⟨hs, htk, he⟩
    cases r with
    | error e =>
      rcases (he e rfl).2 with hno | hno | hno
      · exact absurd hh hno
      · exact absurd hno hnew₁
      · exact absurd hno hnew₂
    | ok kvaddr =>
      obtain ⟨ht, -, hn⟩ := htk kvaddr rfl
      have hot : ∀ u' ≠ kernelVm, (s.setIndex kernelVm index).index u' = s.index u' :=
        fun u' hu' => s.setIndex_of_ne hu' _
      rw [← s.setIndex_self kernelVm index] at ht
      have hw' : ∀ o < (wirePages uvaddr len).toNat,
          Wirable (s.setIndex kernelVm index) l u (pageAt (pageFloor uvaddr) o) fault := by
        intro o ho
        refine (hw o ho).imp_right (And.imp_right fun huse => ?_)
        rw [hot u hu]
        exact huse
      have hl := hs.vmWirePages hu hfl ht hn hw' hsl hlt hfr
      refine (onMem_guarded hl.guarded).ensures trivial |>.bind ?_
      rintro ⟨mem', -⟩ ⟨⟨l', f, h', hd, hmp, hin, ha, hsl', hfr'⟩, rfl⟩
      refine .ret ⟨l', h', ?_, hin, ha, hsl', hot, hfr'⟩
      exact .many f hone hd hmp ht

omit [DecidableEq ι] in
theorem VmOwned.vmUnwirePages (hlt : pages.toNat < 2 ^ 51)
    (hmp : ∀ o < pages.toNat, (kernelVm, pageAt kvaddr o, f o) ∈ l.maps) :
    Ensures (vmUnwirePages kernelVm kvaddr pages s.mem) fun mem' => ∃ l',
      VmOwned kernelVm { s with mem := mem' } l' held ∧ l'.allocs = l.allocs ∧
      l'.directs = l.directs ∧
      l.maps.Perm (kernelEntries kernelVm kvaddr f pages.toNat ++ l'.maps) ∧
      s.mem.freePages ≤ mem'.freePages := by
  -- before round `i` the first `i` mappings are gone
  refine Ensures.forRange (I := fun i mem => ∃ l',
    VmOwned kernelVm { s with mem } l' held ∧ l'.allocs = l.allocs ∧ l'.directs = l.directs ∧
    l.maps.Perm (kernelEntries kernelVm kvaddr f i ++ l'.maps) ∧
    s.mem.freePages ≤ mem.freePages) ?_ ?_
  · rintro i hi mem ⟨l₁, h₁, ha, hd, hp, hf⟩
    have hm : (kernelVm, pageAt kvaddr i, f i) ∈ l₁.maps := by
      refine (mem_append.mp (hp.mem_iff.mp (hmp i hi))).resolve_left fun hmem => ?_
      obtain ⟨o, ho, heq⟩ := mem_kernelEntries.mp hmem
      have := pageAt_injective (by omega) (by omega) (congrArg (fun m => m.2.1) heq)
      omega
    have he : vmExtractPage kernelVm kernelVm (pageAt kvaddr i) mem = .ok (f i) := by
      rw [vmExtractPage, h₁.pages.pageExtract hm]
      rfl
    rw [he, ok_bind]
    refine (h₁.unmapPage hm held fun q => ?_).mono ?_
    · have hc := (userPages_erase kernelVm hm).count_eq q
      rw [if_pos rfl] at hc
      rw [← hc]
      exact h₁.owned q
    · rintro mem₂ ⟨h₂, hf₂⟩
      refine ⟨_, h₂, ha, hd, ?_, hf.trans hf₂⟩
      rw [kernelEntries_succ, append_assoc]
      exact hp.trans ((perm_cons_erase hm).append_left _)
  · exact ⟨l, h, rfl, rfl, .refl _, le_rfl⟩

end

theorem KernelSame.entries_mem (h : KernelSame kernelVm l₁ l₂)
    (hm : (kernelMaps kernelVm l₁.maps).Perm
      (kernelEntries kernelVm kvaddr f n ++ kernelMaps kernelVm l.maps))
    {o : ℕ} (ho : o < n) :
    (kernelVm, pageAt kvaddr o, f o) ∈ l₂.maps := by
  refine h.mem_maps.mpr (mem_kernelMaps.mp (hm.mem_iff.mpr ?_))
  exact mem_append_left _ (mem_kernelEntries.mpr ⟨o, ho, rfl⟩)

theorem VmOwned.vmUnwire {held₀ : UInt64 → ℕ} {s₂ : VmState ν ι} {uvaddr len : UInt64}
    (h : VmOwned kernelVm s l held₀) (hu : u ≠ kernelVm) (hpg : 1 ≤ wirePages uvaddr len)
    (hw : Wired kernelVm u (pageFloor uvaddr) (wirePages uvaddr len) kvaddr s s' l l₁)
    (h₂ : VmOwned kernelVm s₂ l₂ held) (hs : KernelSame kernelVm l₁ l₂)
    (hin : s₂.index kernelVm = s'.index kernelVm)
    (hst : wirePages uvaddr len = 1 → ∀ page, (u, pageFloor uvaddr, page) ∈ l₁.maps →
      (u, pageFloor uvaddr, page) ∈ l₂.maps) :
    Ensures (vmUnwire kernelVm u uvaddr len kvaddr s₂) fun s₃ => ∃ l₃,
      VmOwned kernelVm s₃ l₃ held ∧ KernelSame kernelVm l l₃ ∧ l₃.allocs = l₂.allocs ∧
      (∀ u' ≠ kernelVm, ∀ v page, (u', v, page) ∈ l₃.maps ↔ (u', v, page) ∈ l₂.maps) ∧
      (∀ u' ≠ kernelVm, s₃.index u' = s₂.index u') ∧
      ∀ w, InUseAt (s₃.index kernelVm) w ↔ InUseAt (s.index kernelVm) w := by
  rw [Glatt.vmUnwire, if_neg hu]
  change Ensures (if wirePages uvaddr len = 1 then _ else _) _
  cases hw with
  | one page hone hm hdr hmp hidx =>
    have he : vmExtractPage kernelVm u (pageFloor uvaddr) s₂.mem = .ok page := by
      rw [vmExtractPage, h₂.pages.pageExtract (hst hone page hm)]
      rfl
    have hd : l₂.directs = page :: l.directs := hs.directs.trans hdr
    rw [if_pos hone, he]
    refine (h₂.pageUnmapDirect (by rw [hd]; exact mem_cons_self)).mono ?_
    rintro s₃ ⟨h₃, hin₃, -⟩
    refine ⟨_, h₃, ⟨?_, hs.maps.trans hmp⟩, rfl, fun _ _ _ _ => Iff.rfl,
      fun _ _ => by rw [hin₃], fun w => by rw [hin₃, hin, hidx]⟩
    rw [hd, erase_cons_head]
  | many f hmn hdr hmp ht =>
    have hlt : (wirePages uvaddr len).toNat < 2 ^ 51 := by
      have := ht.fits
      omega
    rw [if_neg hmn]
    have hl := h₂.vmUnwirePages hlt fun o ho => hs.entries_mem hmp ho
    refine ((onMem_guarded hl.guarded).ensures trivial).bind ?_
    rintro ⟨mem₃, -⟩ ⟨⟨l₃, h₃, ha, hdr₃, hp, -⟩, rfl⟩
    -- what is left of the kernel's mappings is what was there before
    have hk : KernelSame kernelVm l l₃ := by
      refine ⟨hdr₃.trans (hs.directs.trans hdr), ?_⟩
      have hsp := hp.filter fun m => m.1 = kernelVm
      rw [filter_append] at hsp
      change (kernelMaps kernelVm l₂.maps).Perm
        (kernelMaps kernelVm (kernelEntries kernelVm kvaddr f _) ++ kernelMaps kernelVm l₃.maps)
        at hsp
      rw [kernelMaps_kernelEntries] at hsp
      exact (perm_append_left_iff _).mp (hsp.symm.trans (hs.maps.trans hmp))
    have hf : ∀ w, InUseAt (s.index kernelVm) w → ¬ Spans kvaddr (wirePages uvaddr len) w :=
      fun w huse hsn => ht.free w hsn huse
    rw [← hin] at ht
    have huse : InUseAt (s₂.index kernelVm) kvaddr := by
      refine (ht.inUse kvaddr).mpr (.inr ⟨le_rfl, ?_⟩)
      have := UInt64.le_iff_toNat_le.mp hpg
      change 1 ≤ (wirePages uvaddr len).toNat at this
      omega
    refine (h₃.releaseAddress (fun v page hm hone => ?_) huse).mono ?_
    · exact hf v (h.covered _ v page (hk.mem_maps.mp hm)) ((ht.block v).mp hone)
    · rintro s₃ ⟨h₄, -, hot, hg⟩
      refine ⟨l₃, h₄, hk, ha, fun u' hu' v page => ?_, hot, fun w => ?_⟩
      · rw [hp.mem_iff, mem_append, or_iff_right]
        intro hmem
        obtain ⟨o, -, heq⟩ := mem_kernelEntries.mp hmem
        exact hu' (congrArg Prod.fst heq).symm
      · rw [hg, ht.inUse, ht.block]
        tauto

end Wire

end Glatt
