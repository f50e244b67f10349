import Glatt.Core.PoolInvariant
import Glatt.Vm.IndexInvariant

/-!
# Indices from a pool

The functions of `vm_index.c` take the result of `pool_allocate` as an argument. Here
`vm_insert_index` has its own call of `pool_allocate`. The pool panics when it has no item and gets
no page for one, so the answer of `vm_insert_index` to a null pointer is never given; and an item
that the pool returns is not linked, which is what the runs of an address space ask of it.

## Main definitions

* `vmInsertIndexFrom`: `vm_insert_index` with a pool

## Main results

* `vmInsertIndexFrom_cases`: it panics, or inserts an index that was not linked
-/

namespace Glatt

open Imperative LinkedTree

variable {π : Type} [DecidableEq π]

def vmInsertIndexFrom (a : π) (answer : Except Errno UInt64) (base pages : UInt64)
    (pool : PoolState π) (vm : IndexMap UInt64) :
    Outcome (PoolState π × IndexMap UInt64 × Except Errno UInt64) := do
  let (pool, vmi) ← poolAllocate a answer pool
  let r ← vmInsertIndex (some vmi) base pages vm
  pure (pool, r)

def FromPool (a : π) (live : List (Live π)) (vm : IndexMap UInt64) : Prop :=
  ∀ T, vm.vmIndex.Represents T → ∀ x ∈ T.inorder, ∃ n, ⟨a, x, n⟩ ∈ live

theorem vmInsertIndexFrom_cases {s : PoolMachine π} (h : PoolInvariant s) {a : π}
    (hv : (s.state.pool a).Valid) {answer : Except Errno UInt64} (hf : FreshPage s.state answer)
    {vm : IndexMap UInt64} (hlive : FromPool a s.live vm) (base pages : UInt64) :
    (vmInsertIndexFrom a answer base pages s.state vm = .error .panic ∧
      (s.state.pool a).poolFreeitems = 0 ∧ ∃ e, answer = .error e) ∨
    ∃ pool m n, PoolInvariant ⟨pool, ⟨a, m, n⟩ :: s.live⟩ ∧
      (∀ T, vm.vmIndex.Represents T → Fresh (some m) none T) ∧
      vmInsertIndexFrom a answer base pages s.state vm =
        (do let r ← vmInsertIndex (some m) base pages vm; pure (pool, r)) ∧
      Yields (vmInsertIndex (some m) base pages vm) fun r => r.2 = .ok m := by
  rcases h.poolAllocate_cases hv hf with ⟨hp, hno⟩ | ⟨pool, m, n, hok, hinv, hnew⟩
  · exact .inl ⟨by rw [vmInsertIndexFrom, hp]; rfl, hno⟩
  · refine .inr ⟨pool, m, n, hinv, fun T hT => ⟨fun x hx hmem => ?_, nofun, nofun⟩, ?_, ?_⟩
    · obtain rfl := Option.some.inj hx
      obtain ⟨k, hk⟩ := hlive T hT m hmem
      exact hnew k hk
    · rw [vmInsertIndexFrom, hok]
      rfl
    · intro r hr
      obtain ⟨_, -, hr⟩ := bind_eq_ok.mp hr
      obtain ⟨_, -, hr⟩ := bind_eq_ok.mp hr
      cases hr
      rfl

end Glatt
