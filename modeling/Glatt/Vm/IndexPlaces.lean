import Glatt.Vm.IndexInvariant

/-!
# Indices of any size

What the operations on indices keep when also empty ranges are allocated, as `vm_alloc` does for a
size of 0. The indices then need not tile the range any more: an index without pages shares its base
with the one behind it. They still lie on pages inside the range, an index in use is only changed
by `vm_free_address`, and an allocation that succeeds leaves an index in use at the address.

## Main definitions

* `Placed`: the indices lie on pages below a bound
* `Claimed`, `TakenFrom`, `Released`: what the functions leave

## Main results

* `claimIndex_claimed`: the indices of the pool that a claim needs, and what it leaves
* `vmAllocAddress_claimed`, `vmFreeAddress_released`: what allocation and release keep
-/

namespace Glatt

open Imperative BinaryTree IndexMap

variable {ν : Type} {vm vm' : IndexMap ν} {T T' F : BinaryTree ν} {x : ν} {b : ℕ}

def Placed (vm : IndexMap ν) (T : BinaryTree ν) (b : ℕ) : Prop :=
  ∀ x ∈ T.inorder, 8192 ∣ vm.lo x ∧ vm.lo x + vm.len x ≤ b

def KeptInUse (vm : IndexMap ν) (T : BinaryTree ν) (vm' : IndexMap ν) (T' : BinaryTree ν) : Prop :=
  ∀ x ∈ T.inorder, (vm.vmi x).inUse → x ∈ T'.inorder ∧ vm'.vmi x = vm.vmi x

theorem Placed.lt (h : Placed vm T b) (hb : b < 2 ^ 64) (x : ν) (hx : x ∈ T.inorder) :
    8192 ∣ vm.lo x ∧ vm.lo x + vm.len x < 2 ^ 64 := ⟨(h x hx).1, (h x hx).2.trans_lt hb⟩

theorem KeptInUse.refl : KeptInUse vm T vm T := fun _ hx _ => ⟨hx, rfl⟩

theorem KeptInUse.trans {vm'' : IndexMap ν} {T'' : BinaryTree ν} (h : KeptInUse vm T vm' T')
    (h' : KeptInUse vm' T' vm'' T'') : KeptInUse vm T vm'' T'' := by
  intro x hx hu
  obtain ⟨hx', heq⟩ := h x hx hu
  obtain ⟨hx'', heq'⟩ := h' x hx' (heq ▸ hu)
  exact ⟨hx'', heq'.trans heq⟩

def HasRoom (index : IndexMap ν) (pages : UInt64) : Prop :=
  ∃ T x, index.vmIndex.Represents T ∧ x ∈ T.inorder ∧ ¬ (index.vmi x).inUse ∧
    pages ≤ (index.vmi x).vmiSize

def UsesOnly (vm : IndexMap ν) (T : BinaryTree ν) (vm' : IndexMap ν) (T' : BinaryTree ν)
    (base : Option UInt64) : Prop :=
  ∀ z ∈ T'.inorder, (vm'.vmi z).inUse →
    z ∈ T.inorder ∧ (vm.vmi z).inUse ∨ base = some (vm'.vmi z).vmiBase

theorem UsesOnly.refl : UsesOnly vm T vm T none := fun _ hz hu => .inl ⟨hz, hu⟩

theorem UsesOnly.trans {vm'' : IndexMap ν} {T'' : BinaryTree ν} {base : Option UInt64}
    (h : UsesOnly vm T vm' T' none) (h' : UsesOnly vm' T' vm'' T'' base) :
    UsesOnly vm T vm'' T'' base := by
  intro z hz hu
  rcases h' z hz hu with ⟨hz', hu'⟩ | hb
  · exact .inl ((h z hz' hu').resolve_right nofun)
  · exact .inr hb

variable [DecidableEq ν]

/-! ## Writing an index -/

theorem Placed.set (hp : Placed vm T b) {v : VmIndex} (hv : vm'.vmi = (vm.set x v).vmi)
    (hT : ∀ z ∈ T'.inorder, z = x ∨ z ∈ T.inorder) (hb : 8192 ∣ v.vmiBase.toNat)
    (hend : v.vmiBase.toNat + v.vmiSize.toNat * 8192 ≤ b) : Placed vm' T' b := by
  intro z hz
  rw [lo, len, hv, set_vmi]
  by_cases hzx : z = x
  · rw [if_pos hzx]
    exact ⟨hb, hend⟩
  · rw [if_neg hzx]
    exact hp z ((hT z hz).resolve_left hzx)

theorem keptInUse_set {v : VmIndex} (hv : vm'.vmi = (vm.set x v).vmi)
    (hT : ∀ z ∈ T.inorder, z ∈ T'.inorder) (hx : x ∈ T.inorder → ¬ (vm.vmi x).inUse) :
    KeptInUse vm T vm' T' := by
  intro z hz hu
  have hzx : z ≠ x := by
    rintro rfl
    exact hx hz hu
  rw [hv, set_vmi, if_neg hzx]
  exact ⟨hT z hz, rfl⟩

theorem usesOnly_setSize {n : UInt64} : UsesOnly vm T (vm.setSize x n) T none :=
  fun _ hz hu => .inl ⟨hz, inUse_setSize.mp hu⟩

theorem usesOnly_insert {n : ν} {base pages : UInt64}
    (hv : vm'.vmi = (vm.set n ⟨base, pages, vmIndexFlagDefault⟩).vmi)
    (hT : ∀ z, z ∈ T'.inorder ↔ z = n ∨ z ∈ T.inorder) : UsesOnly vm T vm' T' none := by
  intro z hz hu
  rw [hv, set_vmi] at hu
  split at hu
  · exact absurd hu (not_inUse_default _)
  · rename_i hzn
    exact .inl ⟨((hT z).mp hz).resolve_left hzn, hu⟩

/-! ## Splitting an index -/

variable {new new₁ new₂ : Option ν} {begin end_ : UInt64}

section

variable (h : Linked vm T F)
include h

theorem claimLeader_placed (hp : Placed vm T b) (hx : x ∈ T.inorder) (hf : ¬ (vm.vmi x).inUse)
    (hnew : ∀ n, new = some n → n ∉ T.inorder) {range leader size : UInt64}
    (hb : begin.toNat = vm.lo x + leader.toNat) (hld : 8192 ∣ leader.toNat)
    (hle : leader.toNat + range.toNat ≤ vm.len x) (hs : size.toNat = vm.len x) :
    Ensures (vmClaimLeader new begin range leader size x vm) fun p =>
      ∃ T' F', Linked p.1 T' F' ∧ Placed p.1 T' b ∧ KeptInUse vm T p.1 T' ∧
        UsesOnly vm T p.1 T' none ∧ (∀ z ∈ T'.inorder, z ∈ T.inorder ∨ new = some z) ∧
        (∀ e, p.2 = .error e → e = .exhausted ∧ leader ≠ 0 ∧ new = none ∧ p.1 = vm) ∧
        ∀ n, p.2 = .ok n → n ∈ T'.inorder ∧ ¬ (p.1.vmi n).inUse ∧
          (p.1.vmi n).vmiBase = begin ∧ (p.1.vmi n).vmiSize = addrToPage range ∧
          (leader = 0 ∧ n = x ∧ p.1 = vm.setSize x (addrToPage range) ∨
            leader ≠ 0 ∧ new ≠ none) := by
  obtain ⟨hlo, hend⟩ := hp x hx
  -- `x` is cut to fewer pages, and stays free
  have hc : ∀ n : UInt64, n.toNat ≤ vm.len x → Placed (vm.setSize x (addrToPage n)) T b := by
    intro n hn
    refine hp.set rfl (fun z hz => .inr hz) hlo ?_
    dsimp only
    rw [toNat_addrToPage]
    simp only [lo] at hend
    omega
  have hk : ∀ n : UInt64, KeptInUse vm T (vm.setSize x n) T :=
    fun n => keptInUse_set rfl (fun z hz => hz) fun _ => hf
  refine (vmClaimLeader_spec h hnew begin range leader size).mono ?_
  rintro ⟨vm', r⟩ (⟨hl, rfl, rfl⟩ | ⟨hl, hno, rfl, rfl⟩ | ⟨n, hl, hn, rfl, hv, -, T', F', hL, hI⟩)
  -- there are no pages in front of the range
  · refine ⟨T, F, h.setSize _, hc range (by omega), hk _, usesOnly_setSize,
      fun z hz => .inl hz, (fun _ h => by cases h), ?_⟩
    rintro _ ⟨⟩
    refine ⟨hx, ?_, ?_, vmiSize_setSize, .inl ⟨hl, rfl, rfl⟩⟩
    · rwa [inUse_setSize]
    · apply UInt64.toNat_inj.mp
      simp [hb, lo, hl]
  -- no index can be had, and the size goes back to what it was
  · have hpg : addrToPage size = (vm.vmi x).vmiSize := by
      apply UInt64.toNat_inj.mp
      rw [toNat_addrToPage, hs, len]
      omega
    rw [setSize_restore hpg]
    refine ⟨T, F, h, hp, .refl, .refl, fun z hz => .inl hz, ?_, fun _ h => by cases h⟩
    rintro _ ⟨⟩
    exact ⟨rfl, hl, hno, rfl⟩
  -- a new index takes the range
  · dsimp only at hv
    have hnT := hnew n hn
    refine ⟨T', F', hL, ?_, ?_, usesOnly_setSize.trans (usesOnly_insert hv hI.1), hI.mem_or hn,
      (fun _ h => by cases h), ?_⟩
    · refine (hc leader (by omega)).set hv (fun z hz => (hI.1 z).mp hz) ?_ ?_
      · dsimp only
        omega
      · dsimp only
        rw [toNat_addrToPage]
        omega
    · refine (hk _).trans (keptInUse_set hv (fun z hz => (hI.1 z).mpr (.inr hz)) ?_)
      exact fun hm => absurd hm hnT
    · rintro _ ⟨⟩
      rw [hv, set_vmi, if_pos rfl]
      exact ⟨(hI.1 n).mpr (.inl rfl), not_inUse_default _, rfl, rfl,
        .inr ⟨hl, hn ▸ Option.some_ne_none n⟩⟩

theorem claimTrailer_placed (hp : Placed vm T b) (hx : x ∈ T.inorder)
    (hf : ¬ (vm.vmi x).inUse) (hnew : ∀ n, new = some n → n ∉ T.inorder) {trailer : UInt64}
    (hend : vm.lo x + vm.len x = end_.toNat) (htr : 8192 ∣ end_.toNat)
    (hle : end_.toNat + trailer.toNat ≤ b) (hb : b < 2 ^ 64) :
    Ensures (vmClaimTrailer new end_ trailer x vm) fun p =>
      ∃ T' F', Linked p.1 T' F' ∧ Placed p.1 T' b ∧ KeptInUse vm T p.1 T' ∧
        UsesOnly vm T p.1 T' none ∧
        (∀ e, p.2 = .error e → e = .exhausted ∧ trailer ≠ 0 ∧ new = none ∧
          p.1 = vm.setSize x ((vm.vmi x).vmiSize + addrToPage trailer)) ∧
        (p.2 = .ok () → x ∈ T'.inorder ∧ p.1.vmi x = vm.vmi x ∧ (trailer ≠ 0 → new ≠ none)) := by
  refine (vmClaimTrailer_spec h hnew end_ trailer).mono ?_
  rintro ⟨vm', r⟩ (⟨ht, rfl, rfl⟩ | ⟨ht, hno, rfl, rfl⟩ | ⟨n, ht, hn, rfl, hv, -, T', F', hL, hI⟩)
  -- there are no pages behind the range
  · exact ⟨T, F, h, hp, .refl, .refl, nofun, fun _ => ⟨hx, rfl, absurd ht⟩⟩
  -- no index can be had, and `x` keeps the pages
  · refine ⟨T, F, h.setSize _, ?_, ?_, usesOnly_setSize, ?_, nofun⟩
    · refine hp.set rfl (fun z hz => .inr hz) (hp x hx).1 ?_
      have hs : ((vm.vmi x).vmiSize + addrToPage trailer).toNat =
          (vm.vmi x).vmiSize.toNat + trailer.toNat / 8192 := by
        rw [UInt64.toNat_add, toNat_addrToPage, Nat.mod_eq_of_lt]
        simp only [len] at hend
        omega
      dsimp only
      rw [hs]
      simp only [lo, len] at hend
      omega
    · exact keptInUse_set rfl (fun z hz => hz) fun _ => hf
    · rintro _ ⟨⟩
      exact ⟨rfl, ht, hno, rfl⟩
  -- a new index takes them
  · dsimp only at hv
    have hnT := hnew n hn
    refine ⟨T', F', hL, ?_, ?_, usesOnly_insert hv hI.1, nofun,
      fun _ => ⟨(hI.1 x).mpr (.inr hx), ?_, fun _ => hn ▸ Option.some_ne_none n⟩⟩
    · refine hp.set hv (fun z hz => (hI.1 z).mp hz) htr ?_
      dsimp only
      rw [toNat_addrToPage]
      omega
    · exact keptInUse_set hv (fun z hz => (hI.1 z).mpr (.inr hz)) fun hm => absurd hm hnT
    · rw [hv, set_vmi, if_neg]
      rintro rfl
      exact hnT hx

/-- What an operation keeps, and the index in use that it makes when it succeeds. -/
def Claimed (vm : IndexMap ν) (T : BinaryTree ν) (b : ℕ) (vm' : IndexMap ν)
    (r : Except Errno (UInt64 × UInt64)) : Prop :=
  ∃ T' F', Linked vm' T' F' ∧ Placed vm' T' b ∧ KeptInUse vm T vm' T' ∧
    ∀ base size, r = .ok (base, size) → ∃ y ∈ T'.inorder, (vm'.vmi y).inUse ∧
      (vm'.vmi y).vmiBase = base ∧ (vm'.vmi y).vmiSize = size

/-- **Why a range is not claimed**, and what that leaves. The indices are as they were, unless the
range leaves pages on both sides of it, and the pool has an index for the range and none for the
trailing pages. -/
inductive NotClaimed (vm : IndexMap ν) (x : ν) (begin end_ : UInt64) (new₁ new₂ : Option ν) :
    IndexMap ν → Errno → Prop
  | used (hused : (vm.vmi x).inUse) : NotClaimed vm x begin end_ new₁ new₂ vm .notFree
  | short (hshort : vm.lo x + vm.len x < end_.toNat) :
      NotClaimed vm x begin end_ new₁ new₂ vm .notImplemented
  | leader (hlead : vm.lo x ≠ begin.toNat) (hnone : new₁ = none) :
      NotClaimed vm x begin end_ new₁ new₂ vm .exhausted
  | trailer (hlead : vm.lo x = begin.toNat) (htrail : end_.toNat ≠ vm.lo x + vm.len x)
      (hnone : new₂ = none) : NotClaimed vm x begin end_ new₁ new₂ vm .exhausted
  | both (vm' : IndexMap ν) (hlead : vm.lo x ≠ begin.toNat)
      (htrail : end_.toNat ≠ vm.lo x + vm.len x) (hnone : new₂ = none) :
      NotClaimed vm x begin end_ new₁ new₂ vm' .exhausted

theorem vmUseIndex_claimed (hp : Placed vm T b) (hx : x ∈ T.inorder) (hf : ¬ (vm.vmi x).inUse) :
    Ensures (vmUseIndex x vm) fun p => p.2 = .ok () ∧ ∃ F', Linked p.1 T F' ∧ Placed p.1 T b ∧
      KeptInUse vm T p.1 T ∧ UsesOnly vm T p.1 T (some (vm.vmi x).vmiBase) ∧ (p.1.vmi x).inUse ∧
      (p.1.vmi x).vmiBase = (vm.vmi x).vmiBase ∧ (p.1.vmi x).vmiSize = (vm.vmi x).vmiSize := by
  refine (vmUseIndex_spec h hx hf).mono ?_
  rintro ⟨vm', r⟩ ⟨hr, hv, -, F', hL⟩
  have hval : vm'.vmi x = { vm.vmi x with
      vmiFlags := (vm.vmi x).vmiFlags ||| vmIndexFlagInuse } := by
    rw [hv, setFlags_vmi, if_pos rfl]
  refine ⟨hr, F', hL, ?_, ?_, fun z hz hu => ?_, hval ▸ inUse_or, by rw [hval], by rw [hval]⟩
  · exact hp.set hv (fun z hz => .inr hz) (hp x hx).1 (hp x hx).2
  · exact keptInUse_set hv (fun z hz => hz) fun _ => hf
  · by_cases hzx : z = x
    · exact .inr (by rw [hzx, hval])
    · rw [hv, setFlags_vmi, if_neg hzx] at hu
      exact .inl ⟨hz, hu⟩

theorem claimIndex_claimed (hp : Placed vm T b) (hb : b < 2 ^ 64)
    (hx : x ∈ T.inorder) (hnew : Fresh new₁ new₂ T) (hlo : vm.lo x ≤ begin.toNat)
    (hle : begin.toNat ≤ end_.toNat) (hbg : 8192 ∣ begin.toNat) (hend : 8192 ∣ end_.toNat) :
    Ensures (vmClaimIndex new₁ new₂ begin end_ x vm) fun p =>
      Claimed vm T b p.1 (p.2.map fun _ => (begin, addrToPage (end_ - begin))) ∧
      (∀ T', p.1.vmIndex.Represents T' → UsesOnly vm T p.1 T' (p.2.toOption.map fun _ => begin)) ∧
      (p.2 = .ok () → ¬ (vm.vmi x).inUse ∧ end_.toNat ≤ vm.lo x + vm.len x ∧
        (vm.lo x ≠ begin.toNat → new₁ ≠ none) ∧
        (end_.toNat ≠ vm.lo x + vm.len x → new₂ ≠ none)) ∧
      ∀ e, p.2 = .error e → NotClaimed vm x begin end_ new₁ new₂ p.1 e := by
  obtain ⟨hd, hbn⟩ := hp x hx
  have hlen := vm.len_eq x
  have hft : vm.lo x + vm.len x < 2 ^ 64 := by omega
  obtain ⟨hsz, hr⟩ := toNat_reach hft
  have hf : ∀ {vm' T' F' e} {Q : Prop}, Linked vm' T' F' → Placed vm' T' b →
      KeptInUse vm T vm' T' → UsesOnly vm T vm' T' none →
      NotClaimed vm x begin end_ new₁ new₂ vm' e →
      Claimed vm T b vm' (.error e) ∧ (∀ T', vm'.vmIndex.Represents T' →
        UsesOnly vm T vm' T' none) ∧ ((.error e : Except Errno Unit) = .ok () → Q) ∧
      ∀ e', (.error e : Except Errno Unit) = .error e' →
        NotClaimed vm x begin end_ new₁ new₂ vm' e' := by
    intro vm' T' F' e Q hL hp hk hu hnot
    refine ⟨⟨T', F', hL, hp, hk, fun _ _ h => by cases h⟩, fun T₁ hT₁ => ?_,
      (fun h => by cases h), fun e' he => Except.error.inj he ▸ hnot⟩
    exact hL.tree.unique hT₁ ▸ hu
  rw [vmClaimIndex]
  split_ifs with hus hs
  · exact .ret (hf h hp .refl .refl (.used hus))
  · rw [UInt64.lt_iff_toNat_lt, hr] at hs
    exact .ret (hf h hp .refl .refl (.short hs))
  rw [UInt64.lt_iff_toNat_lt, hr, not_lt] at hs
  obtain ⟨hld, hrn, htr⟩ := toNat_parts hft hlo hle hs
  have hld₀ : begin - (vm.vmi x).vmiBase = 0 ↔ vm.lo x = begin.toNat := by
    rw [← UInt64.toNat_inj, UInt64.toNat_zero]
    omega
  have htr₀ : pageToAddr (vm.vmi x).vmiSize - (begin - (vm.vmi x).vmiBase + (end_ - begin)) = 0
      ↔ end_.toNat = vm.lo x + vm.len x := by
    rw [← UInt64.toNat_inj, UInt64.toNat_zero]
    omega
  refine (claimLeader_placed h hp hx hus hnew.fst (by omega) (by omega) (by omega) hsz).bind ?_
  rintro ⟨vm₁, r⟩ ⟨T₁, F₁, hL₁, hp₁, hk₁, hu₁, hmem, herr₁, ho⟩
  cases r with
  | error e =>
    obtain ⟨rfl, hl, hno, rfl⟩ := herr₁ e rfl
    exact .ret (hf hL₁ hp₁ hk₁ hu₁ (.leader (mt hld₀.mpr hl) hno))
  | ok n =>
    obtain ⟨hn, hfr, hbs, hpg, hla⟩ := ho n rfl
    have hr₁ : vm₁.lo n + vm₁.len n = end_.toNat := by
      rw [lo, len, hbs, hpg, toNat_addrToPage]
      omega
    refine (claimTrailer_placed hL₁ hp₁ hn hfr (hnew.behind hmem) hr₁ hend (by omega) hb).bind ?_
    rintro ⟨vm₂, r⟩ ⟨T₂, F₂, hL₂, hp₂, hk₂, hu₂, herr₂, ho₂⟩
    cases r with
    | error e =>
      obtain ⟨rfl, ht, hno, hvm₂⟩ := herr₂ e rfl
      refine .ret (hf hL₂ hp₂ (hk₁.trans hk₂) (hu₁.trans hu₂) ?_)
      have hbc := mt htr₀.mpr ht
      rcases hla with ⟨hl, rfl, rfl⟩ | ⟨hl, -⟩
      -- without leading pages `x` itself was cut to the range, and takes the trailing pages back
      · have hfn := hld₀.mp hl
        rw [hvm₂, setSize_restore (UInt64.toNat_inj.mp ?_)]
        · exact .trailer hfn hbc hno
        · simp only [vmiSize_setSize, UInt64.toNat_add, toNat_addrToPage]
          omega
      -- the index of the range keeps the trailing pages
      · exact .both _ (mt hld₀.mpr hl) hbc hno
    | ok u =>
      obtain ⟨hn₂, hv₂, htl⟩ := ho₂ rfl
      refine (vmUseIndex_claimed hL₂ hp₂ hn₂ (hv₂ ▸ hfr)).bind ?_
      rintro ⟨vm₃, r⟩ ⟨rfl, F₃, hL₃, hp₃, hk₃, hu₃, hin, hbs₃, hsz₃⟩
      rw [hv₂, hbs] at hbs₃ hu₃
      rw [hv₂, hpg] at hsz₃
      refine .ret ⟨⟨T₂, F₃, hL₃, hp₃, (hk₁.trans hk₂).trans hk₃, ?_⟩, ?_,
        fun _ => ⟨hus, hs, fun hl => ?_, fun ht => htl (mt htr₀.mp ht)⟩, fun _ h => by cases h⟩
      · rintro base - ⟨⟩
        exact ⟨n, hn₂, hin, hbs₃, hsz₃⟩
      · intro T' hT'
        exact hL₃.tree.unique hT' ▸ (hu₁.trans hu₂).trans hu₃
      · exact (hla.resolve_left fun hx => hl (hld₀.mp hx.1)).2

/-! ## The interface -/

/-- **The part of an index that an allocation takes**: at one end of the first free index with
enough pages. What is left over of one with more takes an index of the pool. -/
structure TakenFrom (vm : IndexMap ν) (T F : BinaryTree ν) (new₁ new₂ : Option ν) (pages : UInt64)
    (high : Bool) (vaddr : UInt64) (x : ν) : Prop extends FirstFit vm T F pages high x where
  lo_le : vm.lo x ≤ vaddr.toNat
  reach : vaddr.toNat + pages.toNat * 8192 ≤ vm.lo x + vm.len x
  low : high = false → vaddr = (vm.vmi x).vmiBase
  pool : (vm.vmi x).vmiSize = pages ∨ (if high then new₁ else new₂) ≠ none

omit [DecidableEq ν] in
theorem FirstFit.hasRoom {pages : UInt64} {high : Bool}
    (hx : FirstFit vm T F pages high x) : HasRoom vm pages :=
  ⟨T, x, h.tree, hx.mem, hx.free, UInt64.not_lt.mp hx.enough⟩

theorem vmAllocAddress_claimed (hp : Placed vm T b) (hb : b < 2 ^ 64)
    (hnew : Fresh new₁ new₂ T) (pages : UInt64) (high : Bool) :
    Ensures (vmAllocAddress new₁ new₂ pages high vm) fun p =>
      Claimed vm T b p.1 (p.2.map fun vaddr => (vaddr, pages)) ∧
      (∀ T', p.1.vmIndex.Represents T' → UsesOnly vm T p.1 T' p.2.toOption) ∧
      (∀ vaddr, p.2 = .ok vaddr → ∃ x, TakenFrom vm T F new₁ new₂ pages high vaddr x) ∧
      ∀ e, p.2 = .error e → p.1 = vm ∧ (e = .notImplemented ∧ ¬ HasRoom vm pages ∨
        e = .exhausted ∧ (if high then new₁ else new₂) = none ∧
          ∃ x, FirstFit vm T F pages high x ∧ (vm.vmi x).vmiSize ≠ pages) := by
  refine (vmAllocAddress_rule h (hp.lt hb) ?_ ?_ ?_).ensures trivial
  · intro hsm
    refine ⟨⟨T, F, h, hp, .refl, fun _ _ h => by cases h⟩, fun T' hT' => ?_,
      (fun _ h => by cases h), ?_⟩
    · exact h.tree.unique hT' ▸ .refl
    · rintro _ ⟨⟩
      refine ⟨rfl, .inl ⟨rfl, ?_⟩⟩
      rintro ⟨T', x, hT', hx, hf, hs⟩
      obtain rfl := h.tree.unique hT'
      exact UInt64.not_lt.mpr hs (hsm x hx hf)
  · intro x hx hs
    refine (vmUseIndex_claimed h hp hx.mem hx.free).guarded.mono ?_
    rintro ⟨vm', r⟩ ⟨hr, F', hL, hp', hk, hu, hin, hbs, hs'⟩
    rw [← hbs] at hu
    refine ⟨hr, ⟨T, F', hL, hp', hk, ?_⟩, fun T' hT' => hL.tree.unique hT' ▸ hu, ?_,
      fun _ h => by cases h⟩
    · rintro _ _ ⟨⟩
      exact ⟨x, hx.mem, hin, rfl, hs'.trans hs⟩
    · rintro _ ⟨⟩
      rw [hbs]
      exact ⟨x, hx, le_rfl, by rw [lo, len, hs], fun _ => rfl, .inl hs⟩
  · intro x start hx ha
    have hst := ha.stop
    have hpg : addrToPage (start + pageToAddr pages - start) = pages := by
      apply UInt64.toNat_inj.mp
      rw [toNat_addrToPage, UInt64.toNat_sub_of_le _ _ (UInt64.le_iff_toNat_le.mpr (by omega))]
      omega
    have hrs := ha.rest
    refine (claimIndex_claimed h hp hb hx.mem hnew ha.lo_le (by omega) ha.dvd
      ha.stop_dvd).guarded.mono ?_
    rintro ⟨vm', r⟩ ⟨hc, hu, ho, he⟩
    rw [hpg] at hc
    cases r with
    | error e =>
      refine ⟨hc, hu, (fun _ h => by cases h), ?_⟩
      rintro _ ⟨⟩
      -- pages are left over on one side only, so one index of the pool is enough
      cases he e rfl with
      | used hus => exact absurd hus hx.free
      | short hsh =>
        have hrc := ha.reach
        omega
      | leader hl hn =>
        cases high with
        | false => exact absurd hrs.1 hl
        | true => exact ⟨rfl, .inr ⟨rfl, hn, x, hx, ha.more⟩⟩
      | trailer hl ht hn =>
        cases high with
        | false => exact ⟨rfl, .inr ⟨rfl, hn, x, hx, ha.more⟩⟩
        | true => exact absurd hl hrs.1
      | both _ hl ht =>
        cases high with
        | false => exact absurd hrs.1 hl
        | true => exact absurd hrs.2 ht
    | ok u =>
      refine ⟨hc, hu, ?_, fun _ h => by cases h⟩
      rintro _ ⟨⟩
      obtain ⟨-, -, hl, ht⟩ := ho rfl
      refine ⟨x, hx, ha.lo_le, ha.reach, ?_, .inr ?_⟩
      · rintro rfl
        exact ha.eq
      · cases high with
        | false => exact ht hrs.2
        | true => exact hl hrs.1

/-- The address is one that `vm_find_index` finds the index for: its base, or inside of it. -/
def IndexMap.Holds (vm : IndexMap ν) (x : ν) (vaddr : UInt64) : Prop :=
  (vm.vmi x).vmiBase ≤ vaddr ∧ (vaddr = (vm.vmi x).vmiBase ∨
    vaddr < (vm.vmi x).vmiBase + pageToAddr (vm.vmi x).vmiSize)

/-- What the release of an address leaves: only an index that holds it has changed. -/
def Released (vm : IndexMap ν) (T : BinaryTree ν) (b : ℕ) (vaddr : UInt64) (vm' : IndexMap ν) :
    Prop :=
  ∃ F', Linked vm' T F' ∧ Placed vm' T b ∧ ∃ x ∈ T.inorder, vm.Holds x vaddr ∧
    ∀ z, z ≠ x → vm'.vmi z = vm.vmi z

theorem vmFreeAddress_released (hp : Placed vm T b) {vaddr : UInt64}
    (hu : ∀ x ∈ T.inorder, vm.Holds x vaddr → (vm.vmi x).inUse) :
    Ensures (vmFreeAddress vaddr vm) fun p => p.2 = .ok () → Released vm T b vaddr p.1 := by
  rw [vmFreeAddress]
  refine (vmFindIndex_spec h vaddr).bind fun r hr => ?_
  cases r with
  | none => exact .ret fun h => by cases h
  | some x =>
    obtain ⟨hx, hh⟩ := hr x rfl
    refine (vmFreeIndex_spec h hx (hu x hx hh)).bind ?_
    rintro vm' ⟨hv, -, F', hL⟩
    refine .ret fun _ => ⟨F', hL, ?_, x, hx, hh, fun z hz => ?_⟩
    · exact hp.set hv (fun z hz => .inr hz) (hp x hx).1 (hp x hx).2
    · rw [hv, setFlags_vmi, if_neg hz]

end

end Glatt
