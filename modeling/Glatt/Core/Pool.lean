import Glatt.Core.Error
import Glatt.Lib.Bitmap
import Glatt.Vm.Address

/-!
# Pools

The functions of `core_pool.c`. A pool hands out items of one size, which lie in pages. A page
begins with a `struct pool_page` and a map with a bit for every item, which is set while the item is
free. The pool counts the free items of all its pages.

A call runs with the lock of its pool, so it is one step. Whether a page can be allocated and freed
is the environment's: `answer` is what `vm_alloc_page`, `page_alloc_direct`, `vm_free_page` or
`page_free_direct` returns to a call. `NOTREACHED` is an endless loop.

## Main definitions

* `Pool`, `PoolPage`, `PoolState`: the structures, by address
* `poolCreate`, `poolAllocate`, `poolFree`: the functions
-/

namespace Glatt

open Imperative Function

def roundup (x y : ℕ) : ℕ := (x + (y - 1)) / y * y

def sizeofPoolPage : ℕ := 24

def poolAlignment : UInt64 := 8

def poolMapWordBits : ℕ := 64

def poolMapBits (n : ℕ) : ℕ := roundup n poolMapWordBits

def poolMapBytes (n : ℕ) : ℕ := poolMapBits n / 8

def poolMapWords (n : ℕ) : ℕ := poolMapBytes n / 8

def poolUtilization (n s : ℕ) : ℕ := sizeofPoolPage + poolMapBytes n + s * n

def maxAllocSize : ℕ := pageSize.toNat / 2 - (poolMapBytes 2 + sizeofPoolPage)

def poolValid : UInt32 := 2

/-- `struct pool`, with the addresses of its pages. -/
structure Pool where
  poolSize : ℕ
  poolMaxitems : ℕ
  poolFreeitems : ℕ
  poolPages : List UInt64
  poolFlags : UInt32

/-- `struct pool_page`, with the map behind it. -/
structure PoolPage (π : Type) where
  ppPool : π
  ppItems : ℕ
  ppMap : ℕ → UInt64

/-- The pools, and the pages in memory. -/
structure PoolState (π : Type) where
  pool : π → Pool
  page : UInt64 → PoolPage π

variable {π : Type} [DecidableEq π]

def PoolState.setPool (s : PoolState π) (a : π) (pool : Pool) : PoolState π :=
  { s with pool := update s.pool a pool }

def PoolState.setPage (s : PoolState π) (p : UInt64) (page : PoolPage π) : PoolState π :=
  { s with page := update s.page p page }

section Fields

variable (s : PoolState π) (a : π) (pool : Pool) (p : UInt64) (page : PoolPage π)

@[simp] theorem setPool_pool (b : π) :
    (s.setPool a pool).pool b = if b = a then pool else s.pool b := by
  simp [PoolState.setPool, update_apply]

@[simp] theorem setPool_page (q : UInt64) : (s.setPool a pool).page q = s.page q := rfl

omit [DecidableEq π] in
@[simp] theorem setPage_pool (b : π) : (s.setPage p page).pool b = s.pool b := rfl

omit [DecidableEq π] in
@[simp] theorem setPage_page (q : UInt64) :
    (s.setPage p page).page q = if q = p then page else s.page q := by
  simp [PoolState.setPage, update_apply]

omit [DecidableEq π] in
@[simp] theorem setPage_setPage (page' : PoolPage π) :
    (s.setPage p page).setPage p page' = s.setPage p page' := by
  simp [PoolState.setPage]

end Fields

def Pool.Valid (pool : Pool) : Prop := pool.poolFlags &&& poolValid ≠ 0

instance (pool : Pool) : Decidable pool.Valid := inferInstanceAs (Decidable (_ ≠ _))

/-! ## Creation -/

def poolItems (size : ℕ) : Outcome ℕ :=
  loop
    (fun n => pure (if poolUtilization (n + 1) size ≤ pageSize.toNat then .inl (n + 1) else .inr n))
    (8 * pageSize.toNat + 1) 0

def poolCreate (a : π) (size : UInt64) (flags : UInt32) (s : PoolState π) : Outcome (PoolState π) :=
  let size := ((size + (poolAlignment - 1)) / poolAlignment * poolAlignment).toNat
  if size > maxAllocSize then .error .panic
  else do
    let maxitems ← poolItems size
    pure (s.setPool a ⟨size, maxitems, 0, [], flags ||| poolValid⟩)

/-! ## Items of a page -/

/-- The address of an item in a page of the pool; the offset is an `unsigned`. -/
def Pool.datum (pool : Pool) (page : UInt64) (i : ℕ) : UInt64 :=
  let offset := (poolMapBytes pool.poolMaxitems + i * pool.poolSize) % 2 ^ 32
  page + UInt64.ofNat sizeofPoolPage + UInt64.ofNat offset

def Pool.index (pool : Pool) (page datum : UInt64) : ℕ :=
  (datum - pool.datum page 0).toNat / pool.poolSize % 2 ^ 32

def poolPageDatum (s : PoolState π) (page : UInt64) (i : ℕ) : UInt64 :=
  (s.pool (s.page page).ppPool).datum page i

def poolPageIndex (s : PoolState π) (page datum : UInt64) : ℕ :=
  (s.pool (s.page page).ppPool).index page datum

def poolPageFreeDatum (page datum : UInt64) (s : PoolState π) : PoolState π :=
  s.setPage page { s.page page with
    ppMap := Bitmap.setAt (s.page page).ppMap (poolPageIndex s page datum) }

/-- The map of a new page: all words are full, but the last has the remaining bits only. -/
def poolPageMap (maxitems : ℕ) (map : ℕ → UInt64) : ℕ → UInt64 := fun i =>
  if i < poolMapWords maxitems - 1 then ~~~ 0
  else if i = poolMapWords maxitems - 1 then
    let o := (maxitems - 1) % poolMapWordBits
    if o = poolMapWordBits - 1 then ~~~ 0 else Bitmap.bit (o + 1) - 1
  else map i

def poolInsertPage (a : π) (page : UInt64) (s : PoolState π) : PoolState π :=
  let pool := s.pool a
  (s.setPage page ⟨a, 0, poolPageMap pool.poolMaxitems (s.page page).ppMap⟩).setPool a
    { pool with
      poolPages := page :: pool.poolPages
      poolFreeitems := pool.poolFreeitems + pool.poolMaxitems }

/-! ## Allocation -/

/-- The search of `pool_get`: the first page that is not full, and the first item in it whose bit is
set. There is always one. -/
def poolSearch (a : π) (s : PoolState π) : Outcome (UInt64 × ℕ) :=
  let pool := s.pool a
  match pool.poolPages.find? fun page => (s.page page).ppItems ≠ pool.poolMaxitems with
  | none => .error .spin
  | some page =>
    match Bitmap.firstSet (s.page page).ppMap (poolMapWords pool.poolMaxitems)
        pool.poolMaxitems with
    | none => .error .spin
    | some n => pure (page, n)

def poolTake (a : π) (page : UInt64) (n : ℕ) (s : PoolState π) : PoolState π :=
  let head := s.page page
  (s.setPage page ⟨head.ppPool, head.ppItems + 1, Bitmap.clearAt head.ppMap n⟩).setPool a
    { s.pool a with poolFreeitems := (s.pool a).poolFreeitems - 1 }

def poolGet (a : π) (s : PoolState π) : Outcome (PoolState π × UInt64) := do
  let (page, n) ← poolSearch a s
  let s := poolTake a page n s
  pure (s, poolPageDatum s page n)

/-- The part of `pool_allocate` that allocates a page, with `pool_allocate_page`. -/
def poolRefill (a : π) (answer : Except Errno UInt64) (s : PoolState π) : Outcome (PoolState π) :=
  if (s.pool a).poolFreeitems = 0 then
    match answer with
    | .error _ => .error .panic
    | .ok vaddr => pure (poolInsertPage a vaddr s)
  else pure s

def poolAllocate (a : π) (answer : Except Errno UInt64) (s : PoolState π) :
    Outcome (PoolState π × UInt64) :=
  if (s.pool a).Valid then do
    let s ← poolRefill a answer s
    poolGet a s
  else .error .panic

/-! ## Release -/

/-- `SLIST_REMOVE`: what is not in the list is searched for beyond its end. -/
def slistRemove (page : UInt64) (l : List UInt64) : Outcome (List UInt64) :=
  if page ∈ l then pure (l.erase page) else .error .fault

def poolFree (m : UInt64) (answer : Except Errno Unit) (s : PoolState π) : Outcome (PoolState π) :=
  let page := pageFloor m
  let a := (s.page page).ppPool
  let s := poolPageFreeDatum page m s
  let head := s.page page
  let pool := s.pool a
  if head.ppItems = 0 then .error .panic
  else
    let s := s.setPage page { head with ppItems := head.ppItems - 1 }
    if head.ppItems ≠ 1 then
      pure (s.setPool a { pool with poolFreeitems := pool.poolFreeitems + 1 })
    else do
      let pages ← slistRemove page pool.poolPages
      match answer with
      | .error _ => .error .panic
      | .ok () =>
        pure (s.setPool a { pool with
          poolPages := pages
          poolFreeitems := pool.poolFreeitems - (pool.poolMaxitems - 1) })

end Glatt
