import Glatt.Core.BTree
import Glatt.Core.Error
import Glatt.Vm.Address

/-!
# Physical pages

The functions of `vm_page.c` that do not touch page tables. Every physical page that has been
inserted is described by an entry of a page tree page, which lies in the first of the pages it
describes. An entry, a `struct vm_page`, is known by its address in the direct map. It is in the
queue of free pages or in the queue of pages in use.

`pmap_map_direct`, `pmap_unmap_direct` and `pmap_extract_direct` only compute addresses and never
fail. Each function runs with the queues locked where it touches them, so a call is one step.

## Main definitions

* `PageState`: the tree of pages, the queues and the counts
* `pageAlloc`, `pageRelease`, `pageLookup`, `pageInsertPages`: the functions
-/

namespace Glatt

open Imperative

def sizeofVmPageTree : UInt64 := 24

def sizeofVmPage : UInt64 := 24

def vmPageTreeEntries : UInt64 := (pageSize - sizeofVmPageTree) / sizeofVmPage

def ptpEntry (ptp i : UInt64) : UInt64 := ptp + sizeofVmPageTree + sizeofVmPage * i

def pageFlagDefault : UInt32 := 0

def pageFlagZero : UInt32 := 1

/-- The page tree with the links in its pages, the queues, `pg_refcnt` of the entries, and the
bytes of the physical pages. -/
structure PageState where
  pageTree : LinkedTree UInt64
  pageFreeQueue : List UInt64
  pageUseQueue : List UInt64
  pgRefcnt : UInt64 → UInt32
  phys : UInt64 → UInt8

def pageInit (s : PageState) : PageState :=
  { s with pageTree := s.pageTree.setChild none, pageFreeQueue := [], pageUseQueue := [] }

/-! ## Entries and addresses -/

def pmapMapDirect (paddr : UInt64) : UInt64 := xkphysMap ccaCnc paddr

def pmapExtractDirect (vaddr : UInt64) : UInt64 := xkphysExtract vaddr

/-- `page_address`: the entries of a page tree page describe the pages from its own on. -/
def pageAddress (page : UInt64) : UInt64 :=
  let ptp := pageFloor page
  pmapExtractDirect ptp + pageSize * ((page - ptpEntry ptp 0) / sizeofVmPage)

/-- What `page_lookup_cmp` returns, with the entry that it stores for `=`. -/
inductive LookupCmp
  | lt
  | eq (page : UInt64)
  | gt
  deriving DecidableEq

def pageLookupCmp (paddr ptp : UInt64) : LookupCmp :=
  let base := pageAddress (ptpEntry ptp 0)
  if paddr < base then .lt
  else
    let entry := (addrToPage (paddr - base)).toUInt32.toUInt64
    if entry < vmPageTreeEntries then .eq (ptpEntry ptp entry) else .gt

def LookupCmp.page : LookupCmp → Option UInt64
  | eq page => some page
  | _ => none

def pageLookup (paddr : UInt64) (s : PageState) : Outcome (Except Errno UInt64) := do
  let ptp ← btreeFind (fun iter => pageLookupCmp paddr iter = .lt)
    (fun iter => (pageLookupCmp paddr iter).page.isSome) s.pageTree
  match ptp.bind fun ptp => (pageLookupCmp paddr ptp).page with
  | none => pure (.error .notFound)
  | some page => pure (.ok page)

/-! ## References -/

/-- `TAILQ_REMOVE`: removing what is not in the queue corrupts memory. -/
def tailqRemove (page : UInt64) (q : List UInt64) : Outcome (List UInt64) :=
  if page ∈ q then pure (q.erase page) else .error .fault

def PageState.setRefcnt (s : PageState) (page : UInt64) (n : UInt32) : PageState :=
  { s with pgRefcnt := Function.update s.pgRefcnt page n }

section

variable (s : PageState) (page : UInt64) (n : UInt32)

@[simp] theorem setRefcnt_pageTree : (s.setRefcnt page n).pageTree = s.pageTree := rfl

@[simp] theorem setRefcnt_pageFreeQueue :
    (s.setRefcnt page n).pageFreeQueue = s.pageFreeQueue := rfl

@[simp] theorem setRefcnt_pageUseQueue : (s.setRefcnt page n).pageUseQueue = s.pageUseQueue := rfl

@[simp] theorem setRefcnt_phys : (s.setRefcnt page n).phys = s.phys := rfl

@[simp] theorem setRefcnt_pgRefcnt (x : UInt64) :
    (s.setRefcnt page n).pgRefcnt x = if x = page then n else s.pgRefcnt x := by
  simp [PageState.setRefcnt, Function.update_apply]

end

def pageRefHold (page : UInt64) (s : PageState) : Outcome PageState :=
  if s.pgRefcnt page = 0 then do
    let q ← tailqRemove page s.pageFreeQueue
    let s := { s with pageFreeQueue := q, pageUseQueue := s.pageUseQueue ++ [page] }
    pure (s.setRefcnt page (s.pgRefcnt page + 1))
  else pure (s.setRefcnt page (s.pgRefcnt page + 1))

def pageRefDrop (page : UInt64) (s : PageState) : Outcome PageState :=
  let s := s.setRefcnt page (s.pgRefcnt page - 1)
  if s.pgRefcnt page = 0 then do
    let q ← tailqRemove page s.pageUseQueue
    pure { s with pageUseQueue := q, pageFreeQueue := s.pageFreeQueue ++ [page] }
  else pure s

def pmapZero (page : UInt64) (s : PageState) : PageState :=
  let paddr := pageAddress page
  { s with phys := fun a => if paddr ≤ a ∧ a < paddr + pageSize then 0 else s.phys a }

def pageAlloc (flags : UInt32) (s : PageState) : Outcome (PageState × Except Errno UInt64) :=
  match s.pageFreeQueue with
  | [] => pure (s, .error .exhausted)
  | page :: _ => do
    let s ← pageRefHold page s
    if flags &&& pageFlagZero ≠ 0 then pure (pmapZero page s, .ok page) else pure (s, .ok page)

theorem pageAlloc_head {flags : UInt32} {s : PageState} :
    Yields (pageAlloc flags s) fun r =>
      ∀ page, r.2 = .ok page → s.pageFreeQueue.head? = some page := by
  unfold pageAlloc
  split
  · exact .ret nofun
  · rename_i page rest hq
    refine yields_bind_of_forall fun s' => ?_
    split
    · exact .ret fun page' h => by cases h; rw [hq]; rfl
    · exact .ret fun page' h => by cases h; rw [hq]; rfl

def pageRelease (page : UInt64) (s : PageState) : Outcome PageState := pageRefDrop page s

/-- `page_map_direct`; `kernel` says whether the address space is `kernel_vm`. -/
def pageMapDirect (kernel : Bool) (page : UInt64) (s : PageState) :
    Outcome (PageState × Except Errno UInt64) :=
  if kernel then do
    let s ← pageRefHold page s
    pure (s, .ok (pmapMapDirect (pageAddress page)))
  else .error .panic

def pageUnmapDirect (page : UInt64) (s : PageState) : Outcome PageState := pageRefDrop page s

def pageAllocDirect (kernel : Bool) (flags : UInt32) (s : PageState) :
    Outcome (PageState × Except Errno UInt64) := do
  match ← pageAlloc flags s with
  | (s, .error e) => pure (s, .error e)
  | (s, .ok page) =>
    match ← pageMapDirect kernel page s with
    | (s, .error e) =>
      let s ← pageRelease page s
      pure (s, .error e)
    | (s, .ok vaddr) => pure (s, .ok vaddr)

/-! ## Insertion -/

def pageInsert (page : UInt64) (s : PageState) : PageState :=
  { s.setRefcnt page 0 with pageFreeQueue := s.pageFreeQueue ++ [page] }

/-- One round of the inner loop of `page_insert_pages`: the page of entry 0 holds the entries. -/
def pageInsertEntry (ptp i : UInt64) (s : PageState) : Outcome PageState :=
  if i = 0 then pageRefHold (ptpEntry ptp i) (pageInsert (ptpEntry ptp i) s)
  else pure (pageInsert (ptpEntry ptp i) s)

/-- The inner loop of `page_insert_pages`, from entry `i` on, with `n` entries left in the page
tree page. It returns `base` and `pages`. -/
def pageInsertEntries (ptp : UInt64) :
    ℕ → UInt64 → UInt64 → UInt64 → PageState → Outcome (UInt64 × UInt64 × PageState)
  | 0, _, base, pages, s => pure (base, pages, s)
  | n + 1, i, base, pages, s => do
    let s ← pageInsertEntry ptp i s
    if pages - 1 = 0 then pure (base + pageSize, pages - 1, s)
    else pageInsertEntries ptp n (i + 1) (base + pageSize) (pages - 1) s

def pageInsertTreePage (base pages : UInt64) (s : PageState) :
    Outcome (UInt64 × UInt64 × PageState) := do
  let ptp := pmapMapDirect base
  let s := { s with pageTree := s.pageTree.clear ptp }
  let (base, pages, s) ← pageInsertEntries ptp vmPageTreeEntries.toNat 0 base pages s
  let tree ← btreeInsert (fun iter => ptp < iter) ptp s.pageTree
  pure (base, pages, { s with pageTree := tree })

/-- `page_insert_pages`: while there are two pages left, one of them is for a page tree page. -/
def pageInsertPages (base pages : UInt64) (s : PageState) : Outcome PageState :=
  loop (fun (base, pages, s) =>
    if pages > 1 then do
      let r ← pageInsertTreePage base pages s
      pure (.inl r)
    else pure (.inr s)) (pages.toNat + 1) (base, pages, s)

end Glatt
