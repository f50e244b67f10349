import Glatt.Core.SyscallReturns
import Glatt.Vm.WireUndo

/-!
# Memory of a user that the kernel wires

What `vm_wire` with `vm_unwire` after it does, in every state in which memory is sound: every state
that users can bring about, by `PagesSound.wireSound`. The bytes that the kernel sees are those of
the user, and everything is given back but the pages of the kernel's page tables.

## Main definitions

* `TwoPages`: a user with two pages

## Main results

* `wire_undone`: `vm_unwire` undoes `vm_wire`
* `wire_takes_tables`: the pages of page tables are not given back
-/

namespace Glatt

open Imperative Transition

variable {ν ι τ : Type} [DecidableEq ν] [DecidableEq ι] [LinearOrder τ] {kernelVm u : ν}

omit [DecidableEq ι] in
theorem PagesSound.wireSound {s : System ν ι τ} (hs : PagesSound kernelVm s) :
    WireSound kernelVm s.vm := by
  obtain ⟨l, q, h, -⟩ := hs
  exact h.wireSound

/-! ## A user with two pages -/

def getPages : KernelEvent ℕ ℕ := .syscall 7 userEnv 0x32 1 (16384, 0)

theorem getPages_met : getPages.Met 0 (fun _ => 1) bootSystem := by
  intro sv hs _
  obtain rfl := Option.some.inj hs
  exact ⟨by decide, fun _ => by decide +kernel⟩

/-- The state of a user that has allocated two pages, with kernel addresses that are all free. -/
structure TwoPages (s : System ℕ ℕ ℕ) : Prop where
  sound : PagesSound 0 s
  mapped : RangeMapped s.vm.mem 1 8192 16384
  kernel : ∀ T, (s.vm.index 0).vmIndex.Represents T → Fresh (some 1) (some 2) T

theorem rangeMapped_two {mem : MemState ℕ} (h₁ : MappedAt mem 1 8192)
    (h₂ : MappedAt mem 1 16384) : RangeMapped mem 1 8192 16384 := by
  intro i hi
  have hi : i < 16384 := hi
  have hf := toNat_pageFloor (8192 + UInt64.ofNat i)
  rw [UInt64.toNat_add, UInt64.toNat_ofNat_of_lt' (by change i < 2 ^ 64; omega)] at hf
  change _ = (8192 + i) % 2 ^ 64 / 8192 * 8192 at hf
  -- the range starts on a page boundary, so the byte `8192` is the first of the second page
  obtain h | h : i < 8192 ∨ 8192 ≤ i := lt_or_ge i 8192
  · have heq : pageFloor (8192 + UInt64.ofNat i) = 8192 :=
      UInt64.toNat_inj.mp (by change _ = 8192; omega)
    rw [heq]
    exact h₁
  · have heq : pageFloor (8192 + UInt64.ofNat i) = 16384 :=
      UInt64.toNat_inj.mp (by change _ = 16384; omega)
    rw [heq]
    exact h₂

theorem twoPages_of_step {s : System ℕ ℕ ℕ} (hs : KernelStep 0 (fun _ => 1) bootSystem getPages s)
    (h₁ : MappedAt s.vm.mem 1 8192) (h₂ : MappedAt s.vm.mem 1 16384)
    (hin : s.vm.index 0 = bootSystem.vm.index 0) : TwoPages s := by
  refine ⟨booted_bootSystem.pagesSound.step getPages_met hs, rangeMapped_two h₁ h₂, ?_⟩
  intro T hT
  rw [hin] at hT
  obtain rfl : T = .node 0 .nil .nil := hT.unique ⟨⟨rfl, rfl, rfl, rfl⟩, by simp, by decide⟩
  exact ⟨by decide, by decide, by decide⟩

/-! ## Wiring and unwiring -/

/-- **`vm_unwire` undoes `vm_wire`**: when the bytes of a user's range are mapped, and the pool has
items for the indices of the kernel, the kernel sees the bytes where `vm_wire` says, and `vm_unwire`
leaves nothing of the wiring but pages for the kernel's page tables, and of one page nothing at
all. -/
theorem wire_undone {s : VmState ν ι} {n₁ n₂ : ι} {uvaddr len : UInt64}
    (hs : WireSound kernelVm s) (hu : u ≠ kernelVm)
    (hnew : ∀ T, (s.index kernelVm).vmIndex.Represents T → Fresh (some n₁) (some n₂) T)
    (hlen : 1 ≤ len.toNat) (hmapped : RangeMapped s.mem u uvaddr len) :
    Yields (vmWire kernelVm (some n₁) (some n₂) u uvaddr len false s) fun r =>
      SeesBytes kernelVm u uvaddr len r.2.1 r.2.2 s.mem r.1.mem ∧
      Ensures (vmUnwire kernelVm u uvaddr len r.2.1 r.1) fun s' => WireUndone kernelVm s s' ∧
        (wirePages uvaddr len = 1 → s'.mem.pages.pgRefcnt = s.mem.pages.pgRefcnt) := by
  -- `vm_wire` maps one page directly, more at new addresses
  by_cases ho : wirePages uvaddr len = 1
  · refine (wireUndone_one hs hu hlen hmapped ho).mono fun r hr => ⟨hr.1, hr.2.mono ?_⟩
    exact fun s' hs' => ⟨hs'.1, fun _ => hs'.2⟩
  · refine (wireUndone_many hs hu hlen hmapped ho hnew).mono fun r hr => ⟨hr.1, hr.2.mono ?_⟩
    exact fun s' hs' => ⟨hs', fun h => absurd h ho⟩

/-- Two pages of a user are wired and unwired. -/
theorem wire_undone_two : ∃ (s : System ℕ ℕ ℕ) (r : VmState ℕ ℕ × UInt64 × UInt64),
    KernelStep 0 (fun _ => 1) bootSystem getPages s ∧
    vmWire 0 (some 1) (some 2) 1 8192 16384 false s.vm = .ok r ∧
    SeesBytes 0 1 8192 16384 r.2.1 r.2.2 s.vm.mem r.1.mem ∧
    ∃ s', vmUnwire 0 1 8192 16384 r.2.1 r.1 = .ok s' ∧ WireUndone 0 s.vm s' := by
  obtain ⟨s, r, hst, hs, hrun⟩ : ∃ s r, KernelStep 0 (fun _ => 1) bootSystem getPages s ∧
      TwoPages s ∧ vmWire 0 (some 1) (some 2) 1 8192 16384 false s.vm = .ok r :=
    ⟨_, _, .syscall userCall_userEnv rfl, twoPages_of_step (.syscall userCall_userEnv rfl)
      ⟨rfl, by decide⟩ ⟨rfl, by decide⟩ rfl, rfl⟩
  obtain ⟨hse, s', hb, hu, -⟩ :=
    wire_undone hs.sound.wireSound Nat.one_ne_zero hs.kernel (by decide) hs.mapped r hrun
  exact ⟨s, r, hst, hrun, hse, s', hb, hu⟩

/-- **The pages of page tables are not given back**: two pages of a user are wired and unwired, and
a page that was free and not referred to has two references then. -/
theorem wire_takes_tables : Booted 0 bootSystem ∧ ∃ (s : System ℕ ℕ ℕ) (s₁ s' : VmState ℕ ℕ)
    (kvaddr off page : UInt64), KernelStep 0 (fun _ => 1) bootSystem getPages s ∧
    TwoPages s ∧ vmWire 0 (some 1) (some 2) 1 8192 16384 false s.vm = .ok (s₁, kvaddr, off) ∧
    vmUnwire 0 1 8192 16384 kvaddr s₁ = .ok s' ∧ page ∈ s.vm.mem.pages.pageFreeQueue ∧
    s.vm.mem.pages.pgRefcnt page = 0 ∧ s'.mem.pages.pgRefcnt page = 2 := by
  obtain ⟨s, s₁, s', kvaddr, off, hst, hs, hw, hu, hf, hz, ht⟩ :
      ∃ s s₁ s' kvaddr off, KernelStep 0 (fun _ => 1) bootSystem getPages s ∧ TwoPages s ∧
      vmWire 0 (some 1) (some 2) 1 8192 16384 false s.vm = .ok (s₁, kvaddr, off) ∧
      vmUnwire 0 1 8192 16384 kvaddr s₁ = .ok s' ∧
      s.vm.mem.pages.pageFreeQueue.head? = some (entryOf 16 5) ∧
      s.vm.mem.pages.pgRefcnt (entryOf 16 5) = 0 ∧ s'.mem.pages.pgRefcnt (entryOf 16 5) = 2 :=
    ⟨_, _, _, _, _, .syscall userCall_userEnv rfl, twoPages_of_step (.syscall userCall_userEnv rfl)
      ⟨rfl, by decide⟩ ⟨rfl, by decide⟩ rfl, rfl, rfl, by decide +kernel, by decide +kernel,
      by decide +kernel⟩
  exact ⟨booted_bootSystem, s, s₁, s', kvaddr, off, _, hst, hs, hw, hu,
    List.mem_of_mem_head? hf, hz, ht⟩

end Glatt
