import Glatt.Core.BTreeRefinement
import Glatt.Lib.Traced

/-!
# The order of startup

`startup_boot_thread` of `core_startup.c`: the startup items, which the linker puts in any order,
are inserted into a tree by component and order, and the function of each item is called. A function
that does not return ends the walk.

## Main definitions

* `StartupItems`, `startupBootThread`: the items and the walk over them

## Main results

* `startup_in_order`: items are called by component and order, and else as they were linked
-/

namespace Glatt

open Imperative Traced BinaryTree LinkedTree List

/-- The numbers of component and order of each `struct startup_item`, and whether its function
returns. -/
structure StartupItems (ν : Type) where
  siComponent : ν → ℕ
  siOrder : ν → ℕ
  siReturns : ν → Bool

def StartupLess (a b : ℕ × ℕ) : Prop := a.1 < b.1 ∨ a.1 = b.1 ∧ a.2 < b.2

instance : DecidableRel StartupLess := fun _ _ => inferInstanceAs (Decidable (_ ∨ _))

instance : IsStrictWeakOrder (ℕ × ℕ) StartupLess where
  irrefl a := by simp [StartupLess]
  trans a b c := by unfold StartupLess; omega
  incomp_trans a b c := by unfold StartupLess; omega

variable {ν : Type} {S : StartupItems ν}

def StartupItems.key (S : StartupItems ν) (item : ν) : ℕ × ℕ := (S.siComponent item, S.siOrder item)

def startupWalk (S : StartupItems ν) (next : ν → Outcome (Option ν)) :
    ℕ → Option ν → Traced ν Unit :=
  loop fun item =>
    match item with
    | none => pure (.inr ())
    | some item => do
      emit item
      if S.siReturns item then
        let var ← lift (next item)
        pure (.inl var)
      else halt .spin

theorem startupWalk_log {next : ν → Outcome (Option ν)} {o : Option ν} {xs : List ν}
    (h : Visits next o xs) {n : ℕ} (hlen : xs.length < n) : (startupWalk S next n o).log =
      xs.takeWhile S.siReturns ++ (xs.dropWhile S.siReturns).take 1 := by
  induction h generalizing n with
  | null =>
    obtain ⟨n, rfl⟩ := Nat.exists_eq_succ_of_ne_zero (Nat.ne_zero_of_lt hlen)
    rfl
  | @node x o xs hx _ ih =>
    obtain ⟨n, rfl⟩ := Nat.exists_eq_succ_of_ne_zero (Nat.ne_zero_of_lt hlen)
    by_cases hr : S.siReturns x = true
    · rw [startupWalk, loop_next (by simp [hr, hx]; rfl),
        takeWhile_cons_of_pos hr, dropWhile_cons_of_pos hr]
      exact congrArg (x :: ·) (ih (Nat.lt_of_succ_lt_succ hlen))
    · rw [startupWalk, loop_halt (by simp [hr]; rfl),
        takeWhile_cons_of_neg hr, dropWhile_cons_of_neg hr]
      rfl

variable [DecidableEq ν]

def startupSort (S : StartupItems ν) : List ν → LinkedTree ν → Outcome (LinkedTree ν) :=
  flip (foldlM fun tree item =>
    btreeInsert (fun iter => StartupLess (S.key item) (S.key iter)) item tree)

def startupBootThread (S : StartupItems ν) (items : List ν) : Traced ν Unit := do
  let tree ← lift (startupSort S items empty)
  let item ← lift (btreeMin tree)
  startupWalk S (btreeNext tree) (tree.bound + 1) item
  halt .panic

theorem startupSort_spec {items : List ν} (hn : items.Nodup) :
    Ensures (startupSort S items empty) fun tree => Tracks S.key StartupLess ⟨tree, items⟩ := by
  refine (Ensures.foldlM (I := fun done tree => Tracks S.key StartupLess ⟨tree, done⟩ ∧
    ∀ x ∉ done, Unlinked tree x) hn ⟨tracks_empty rfl, fun _ _ => ⟨rfl, rfl, rfl⟩⟩ ?_).mono
    fun _ h => h.1
  rintro done item tree hnot ⟨h, hu⟩
  have ho : (TreeOp.insert item).Allowed ⟨tree, done⟩ := ⟨hnot, hu item hnot⟩
  refine (h.exec_spec ho).mono ?_
  rintro tree' ⟨ht, -, hf⟩
  refine ⟨ht, fun x hx => ?_⟩
  have hd : x ∉ done := fun hmem => hx (mem_append_left _ hmem)
  exact hf x hd hx (hu x hd)

/-- **Each item is called once**, by component and order, equal ones as they were linked, up to the
first function that does not return. -/
theorem startup_in_order (S : StartupItems ν) {items : List ν} (hn : items.Nodup) :
    ∃ sorted, StableSort S.key StartupLess items sorted ∧ (startupBootThread S items).log =
      sorted.takeWhile S.siReturns ++ (sorted.dropWhile S.siReturns).take 1 := by
  obtain ⟨tree, hsr, -, T, hT, hs⟩ := startupSort_spec hn
  refine ⟨T.inorder, hs, ?_⟩
  have hlen : T.inorder.length < tree.bound + 1 := by
    rw [length_inorder]
    exact Nat.lt_succ_of_le hT.bound
  rw [← startupWalk_log (visits_btreeNext hT) hlen, startupBootThread, hsr, lift_ok_bind,
    btreeMin_eq hT, lift_ok_bind, log_bind_halt]

def twoItems : StartupItems (Fin 2) := ⟨fun _ => 0, fun item => item, fun _ => true⟩

theorem startup_in_order_two : (startupBootThread twoItems [1, 0]).log = [0, 1] ∧
    ∃ sorted, StableSort twoItems.key StartupLess [1, 0] sorted := by
  obtain ⟨sorted, hs, -⟩ := startup_in_order twoItems (by decide : ([1, 0] : List (Fin 2)).Nodup)
  exact ⟨rfl, sorted, hs⟩

end Glatt
