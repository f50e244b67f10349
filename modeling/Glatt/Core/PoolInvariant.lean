import Glatt.Core.Pool
import Glatt.Lib.Transition

/-!
# Items of pools

What holds of the pools after every sequence of creations, allocations and releases. The items that
are in use are known from the history. The pool has three counts of what is free: the bits of the
maps, the items of each page, and the items of the pool. They agree, and the bits that are clear are
those of the items in use. From this the items of a pool do not overlap, the number of an item can
be computed from its address, and the search of `pool_get` does not fail.

## Main definitions

* `PoolStep`: a call of a function, with the items in use
* `PoolInvariant`: the counts, the maps and the items agree

## Main results

* `pool_accounting`: the counts agree after every run, and the calls return
* `pool_geometry`: items in use are disjoint and lie in their pages
-/

namespace Glatt

open Imperative Transition Bitmap

/-! ## Geometry -/

theorem poolMapBytes_eq (n : ℕ) : poolMapBytes n = (n + 63) / 64 * 8 := by
  rw [poolMapBytes, poolMapBits, roundup, poolMapWordBits]
  omega

theorem poolMapWords_eq (n : ℕ) : poolMapWords n = (n + 63) / 64 := by
  rw [poolMapWords, poolMapBytes_eq]
  omega

theorem poolItems_spec {size : ℕ} (h : size ≤ maxAllocSize) :
    Ensures (poolItems size) fun n => 2 ≤ n ∧ poolUtilization n size ≤ 8192 ∧
      8192 < poolUtilization (n + 1) size := by
  have hm : maxAllocSize = 4064 := by decide
  have hp : pageSize.toNat = 8192 := by decide
  unfold poolItems
  simp only [poolUtilization, poolMapBytes_eq, sizeofPoolPage]
  -- the map alone fills the page before the bound is reached
  refine Ensures.loop (I := fun k n => k + n = 65536 ∧ 24 + (n + 63) / 64 * 8 + size * n ≤ 8192) ?_
    (n := 65536) (by omega) (by omega)
  rintro k n ⟨hk, hn⟩
  split
  · rename_i hnx
    exact .ret ⟨k - 1, by omega, by omega, hnx⟩
  · refine .ret ⟨?_, hn, by omega⟩
    by_contra hlt
    obtain rfl | rfl : n = 0 ∨ n = 1 := by omega
    · omega
    · omega

structure Pool.Fits (pool : Pool) : Prop where
  size : 0 < pool.poolSize
  items : 0 < pool.poolMaxitems
  util : poolUtilization pool.poolMaxitems pool.poolSize ≤ 8192

section Geometry

variable {pool : Pool} {p q : UInt64} {n k : ℕ} {head : PoolPage π}

theorem Pool.Fits.offset_le (h : pool.Fits) (hn : n < pool.poolMaxitems) :
    24 + poolMapBytes pool.poolMaxitems + n * pool.poolSize + pool.poolSize ≤ 8192 := by
  have hu := h.util
  have hm : (n + 1) * pool.poolSize ≤ pool.poolMaxitems * pool.poolSize := Nat.mul_le_mul_right _ hn
  rw [Nat.add_mul] at hm
  rw [poolUtilization, sizeofPoolPage, Nat.mul_comm pool.poolSize] at hu
  omega

theorem Pool.Fits.toNat_datum (h : pool.Fits) (hp : p.toNat % 8192 = 0)
    (hn : n < pool.poolMaxitems) : (pool.datum p n).toNat =
      p.toNat + (24 + poolMapBytes pool.poolMaxitems + n * pool.poolSize) := by
  have hle := h.offset_le hn
  have hs := h.size
  have hlt := p.toNat_lt
  rw [datum, sizeofPoolPage, UInt64.toNat_add, UInt64.toNat_add, toNat_ofNat (by decide),
    toNat_ofNat (by omega)]
  omega

theorem Pool.Fits.pageFloor_datum (h : pool.Fits) (hp : p.toNat % 8192 = 0)
    (hn : n < pool.poolMaxitems) : pageFloor (pool.datum p n) = p := by
  have hle := h.offset_le hn
  have hs := h.size
  apply UInt64.toNat_inj.mp
  rw [toNat_pageFloor, h.toNat_datum hp hn]
  omega

theorem Pool.Fits.index_datum (h : pool.Fits) (hp : p.toNat % 8192 = 0)
    (hn : n < pool.poolMaxitems) : pool.index p (pool.datum p n) = n := by
  have hle := h.offset_le hn
  have hm : n * 1 ≤ n * pool.poolSize := Nat.mul_le_mul_left _ h.size
  have hd : (pool.datum p n - pool.datum p 0).toNat = n * pool.poolSize := by
    rw [UInt64.toNat_sub_of_le, h.toNat_datum hp hn, h.toNat_datum hp h.items]
    · omega
    · rw [UInt64.le_iff_toNat_le, h.toNat_datum hp hn, h.toNat_datum hp h.items]
      omega
  rw [index, hd, Nat.mul_div_cancel _ h.size]
  exact Nat.mod_eq_of_lt (by omega)

theorem Pool.Fits.disjoint (h : pool.Fits) (hp : p.toNat % 8192 = 0) (hn : n < pool.poolMaxitems)
    (hk : k < pool.poolMaxitems) (hlt : n < k) :
    (pool.datum p n).toNat + pool.poolSize ≤ (pool.datum p k).toNat := by
  have hm : (n + 1) * pool.poolSize ≤ k * pool.poolSize := Nat.mul_le_mul_right _ hlt
  rw [Nat.add_mul] at hm
  rw [h.toNat_datum hp hn, h.toNat_datum hp hk]
  omega

end Geometry

/-! ## The map of a new page -/

theorem isSet_poolPageMap {maxitems n : ℕ} {map : ℕ → UInt64} (h : 0 < maxitems)
    (hn : n < poolMapWords maxitems * 64) :
    Bitmap.IsSet (poolPageMap maxitems map) n ↔ n < maxitems := by
  have hm : n % 64 < 64 := Nat.mod_lt _ (by decide)
  have hf : (~~~ (0 : UInt64)).toNat.testBit (n % 64) = true := by
    rw [testBit_not hm, UInt64.toNat_zero, Nat.zero_testBit]
    rfl
  rw [poolMapWords_eq] at hn
  have hb : poolMapWordBits = 64 := rfl
  simp only [Bitmap.IsSet, poolPageMap, poolMapWords_eq]
  split
  · simp only [hf, true_iff]
    omega
  · rw [if_pos (by omega)]
    by_cases hl : (maxitems - 1) % poolMapWordBits = poolMapWordBits - 1
    · rw [if_pos hl]
      rw [hb] at hl
      simp only [hf, true_iff]
      omega
    · rw [if_neg hl]
      rw [hb] at hl ⊢
      rw [testBit_bit_sub_one (by omega)]
      omega

/-! ## The map and the count of a page -/

variable {π : Type}

/-- The bits that are set are counted, and no bit beyond the items is set. -/
structure PageSound (maxitems : ℕ) (page : PoolPage π) : Prop where
  count : (members page.ppMap maxitems).card + page.ppItems = maxitems
  clear : ∀ n, maxitems ≤ n → n < poolMapWords maxitems * 64 → ¬ Bitmap.IsSet page.ppMap n

section Page

variable {maxitems n k : ℕ} {page : PoolPage π}

theorem words_cover (hn : n < maxitems) : n < poolMapWords maxitems * 64 := by
  rw [poolMapWords_eq]
  omega

theorem pageSound_new (a : π) (map : ℕ → UInt64) (h : 0 < maxitems) :
    PageSound maxitems ⟨a, 0, poolPageMap maxitems map⟩ := by
  refine ⟨?_, fun n hle hn hs => ?_⟩
  · have ha : members (poolPageMap maxitems map) maxitems = Finset.range maxitems := by
      ext n
      rw [mem_members, Finset.mem_range]
      exact ⟨fun hn => hn.1, fun hn => ⟨hn, (isSet_poolPageMap h (words_cover hn)).mpr hn⟩⟩
    simp only [ha, Finset.card_range, Nat.add_zero]
  · have := (isSet_poolPageMap h hn).mp hs
    omega

section

variable (h : PageSound maxitems page)
include h

theorem PageSound.exists_set (hne : page.ppItems ≠ maxitems) :
    ∃ n < maxitems, Bitmap.IsSet page.ppMap n := by
  have hpos : 0 < (members page.ppMap maxitems).card := by
    have := h.count
    omega
  obtain ⟨n, hn⟩ := Finset.card_pos.mp hpos
  exact ⟨n, mem_members.mp hn⟩

theorem PageSound.take (hn : n < maxitems) (hs : Bitmap.IsSet page.ppMap n) :
    PageSound maxitems ⟨page.ppPool, page.ppItems + 1, clearAt page.ppMap n⟩ := by
  refine ⟨?_, fun k hle hk hs' => h.clear k hle hk (isSet_clearAt.mp hs').2⟩
  have hmem : n ∈ members page.ppMap maxitems := mem_members.mpr ⟨hn, hs⟩
  have hcr := Finset.card_erase_add_one hmem
  have hc := h.count
  simp only [members_clearAt]
  omega

theorem PageSound.items_pos (hn : n < maxitems) (hc : ¬ Bitmap.IsSet page.ppMap n) :
    0 < page.ppItems := by
  have hnot : n ∉ members page.ppMap maxitems := fun hm =>
    hc (mem_members.mp hm).2
  have hs : insert n (members page.ppMap maxitems) ⊆ Finset.range maxitems := by
    intro k hk
    rcases Finset.mem_insert.mp hk with rfl | hk
    · exact Finset.mem_range.mpr hn
    · exact Finset.mem_range.mpr (mem_members.mp hk).1
  have hcr := Finset.card_le_card hs
  rw [Finset.card_insert_of_notMem hnot, Finset.card_range] at hcr
  have hcn := h.count
  omega

theorem PageSound.put (hn : n < maxitems) (hc : ¬ Bitmap.IsSet page.ppMap n) :
    PageSound maxitems ⟨page.ppPool, page.ppItems - 1, setAt page.ppMap n⟩ := by
  have hpos := h.items_pos hn hc
  refine ⟨?_, fun k hle hk hs => ?_⟩
  · have hnot : n ∉ members page.ppMap maxitems := fun hm =>
      hc (mem_members.mp hm).2
    have hcn := h.count
    simp only [members_setAt hn, Finset.card_insert_of_notMem hnot]
    omega
  · rcases isSet_setAt.mp hs with rfl | hs
    · omega
    · exact h.clear k hle hk hs

theorem PageSound.eq_of_items_one (ho : page.ppItems = 1) (hn : n < maxitems)
    (hc : ¬ Bitmap.IsSet page.ppMap n) (hk : k < maxitems)
    (hc' : ¬ Bitmap.IsSet page.ppMap k) : k = n := by
  by_contra hne
  -- with the item `n` returned no item is in use, so `k` is not
  have hp := h.put hn hc
  have hk' : ¬ Bitmap.IsSet (setAt page.ppMap n) k := by
    rw [isSet_setAt]
    exact not_or.mpr ⟨hne, hc'⟩
  have hpos := hp.items_pos hk hk'
  simp only [ho] at hpos
  omega

end

end Page

theorem sum_map_change {l : List UInt64} {f g : UInt64 → ℕ} {p : UInt64} (hl : l.Nodup)
    (hp : p ∈ l) (hfg : ∀ q ∈ l, q ≠ p → g q = f q) :
    (l.map g).sum + f p = (l.map f).sum + g p := by
  have hr : (l.erase p).map g = (l.erase p).map f := by
    refine List.map_congr_left fun q hq => ?_
    obtain ⟨hne, hq⟩ := hl.mem_erase_iff.mp hq
    exact hfg q hq hne
  have hf := List.sum_map_erase f hp
  have hg := List.sum_map_erase g hp
  rw [hr] at hg
  omega

/-! ## Pools -/

/-- An item in use: its pool, its address, and the bit that `pool_get` took for it. -/
structure Live (π : Type) where
  owner : π
  datum : UInt64
  index : ℕ
  deriving DecidableEq

/-- **What holds of a pool**: its pages are pages of its own, the counts of the pages and of the
pool agree with the maps, and the items in use are those whose bits are clear. -/
structure PoolSound (s : PoolState π) (live : List (Live π)) (a : π) : Prop where
  fits : (s.pool a).Fits
  nodup : (s.pool a).poolPages.Nodup
  aligned : ∀ p ∈ (s.pool a).poolPages, p.toNat % 8192 = 0
  owner : ∀ p ∈ (s.pool a).poolPages, (s.page p).ppPool = a
  pages : ∀ p ∈ (s.pool a).poolPages, PageSound (s.pool a).poolMaxitems (s.page p)
  free : (s.pool a).poolFreeitems =
    ((s.pool a).poolPages.map fun p => (s.pool a).poolMaxitems - (s.page p).ppItems).sum
  live : ∀ m n, ⟨a, m, n⟩ ∈ live ↔ ∃ p ∈ (s.pool a).poolPages, n < (s.pool a).poolMaxitems ∧
    ¬ Bitmap.IsSet (s.page p).ppMap n ∧ m = (s.pool a).datum p n

section Sound

variable {s s' : PoolState π} {live live' : List (Live π)} {a b : π} {p q : UInt64} {n k : ℕ}

theorem PoolSound.frame (h : PoolSound s live b) (hpl : s'.pool b = s.pool b)
    (hpg : ∀ p ∈ (s.pool b).poolPages, s'.page p = s.page p)
    (hl : ∀ m n, ⟨b, m, n⟩ ∈ live' ↔ ⟨b, m, n⟩ ∈ live) : PoolSound s' live' b := by
  constructor
  · rw [hpl]; exact h.fits
  · rw [hpl]; exact h.nodup
  · rw [hpl]; exact h.aligned
  · rw [hpl]; exact fun p hp => by rw [hpg p hp]; exact h.owner p hp
  · rw [hpl]; exact fun p hp => by rw [hpg p hp]; exact h.pages p hp
  · rw [hpl, h.free]
    exact congrArg List.sum (List.map_congr_left fun p hp => by rw [hpg p hp])
  · intro m n
    rw [hl, h.live, hpl]
    refine exists_congr fun p => and_congr_right fun hp => ?_
    rw [hpg p hp]

theorem PoolSound.eq_of_datum (h : PoolSound s live a) (hp : p ∈ (s.pool a).poolPages)
    (hq : q ∈ (s.pool a).poolPages) (hn : n < (s.pool a).poolMaxitems)
    (hk : k < (s.pool a).poolMaxitems)
    (heq : (s.pool a).datum q k = (s.pool a).datum p n) : q = p := by
  have hf := congrArg pageFloor heq
  rwa [h.fits.pageFloor_datum (h.aligned q hq) hk, h.fits.pageFloor_datum (h.aligned p hp) hn] at hf

variable [DecidableEq π]

theorem PoolSound.other (h : PoolSound s live b) (hb : b ≠ a) (hp : (s.page p).ppPool = a)
    (head : PoolPage π) (pool : Pool) (hl : ∀ m n, ⟨b, m, n⟩ ∈ live' ↔ ⟨b, m, n⟩ ∈ live) :
    PoolSound ((s.setPage p head).setPool a pool) live' b := by
  refine h.frame (by simp [hb]) (fun q hq => ?_) hl
  have hne : q ≠ p := by
    rintro rfl
    exact hb ((h.owner q hq).symm.trans hp)
  simp [hne]

section

variable (h : PoolSound s live a)
include h

theorem PoolSound.write {pages : List UInt64} {f : ℕ} (hn : pages.Nodup)
    (hold : ∀ q ∈ pages, q ≠ p → q ∈ (s.pool a).poolPages)
    (hp : p ∈ pages → p.toNat % 8192 = 0 ∧ head.ppPool = a ∧ PageSound (s.pool a).poolMaxitems head)
    (hf : f = (pages.map fun q =>
      (s.pool a).poolMaxitems - (if q = p then head else s.page q).ppItems).sum)
    (hl : ∀ m n, ⟨a, m, n⟩ ∈ live' ↔ ∃ q ∈ pages, n < (s.pool a).poolMaxitems ∧ ¬
      Bitmap.IsSet (if q = p then head else s.page q).ppMap n ∧ m = (s.pool a).datum q n) :
    PoolSound ((s.setPage p head).setPool a { s.pool a with
      poolPages := pages, poolFreeitems := f }) live' a := by
  constructor <;> simp only [setPool_pool, setPool_page, setPage_page]
  case fits => exact ⟨h.fits.size, h.fits.items, h.fits.util⟩
  case nodup => exact hn
  case free => exact hf
  case live => exact hl
  all_goals
    intro q hq
    by_cases hqp : q = p
    · simp [hqp, hp (hqp ▸ hq)]
    · have := hold q hq hqp
      simp [hqp, h.aligned q this, h.owner q this, h.pages q this]

theorem PoolSound.change (hp : p ∈ (s.pool a).poolPages) {f : ℕ}
    (ho : head.ppPool = a) (hs : PageSound (s.pool a).poolMaxitems head)
    (hf : f + ((s.pool a).poolMaxitems - (s.page p).ppItems) = (s.pool a).poolFreeitems +
      ((s.pool a).poolMaxitems - head.ppItems))
    (hl : ∀ m n, ⟨a, m, n⟩ ∈ live' ↔ ∃ q ∈ (s.pool a).poolPages, n < (s.pool a).poolMaxitems ∧ ¬
      Bitmap.IsSet (if q = p then head else s.page q).ppMap n ∧ m = (s.pool a).datum q n) :
    PoolSound ((s.setPage p head).setPool a { s.pool a with poolFreeitems := f }) live' a := by
  refine h.write h.nodup (fun q hq _ => hq) (fun _ => ⟨h.aligned p hp, ho, hs⟩) ?_ hl
  have hsum := sum_map_change
    (g := fun q => (s.pool a).poolMaxitems - (if q = p then head else s.page q).ppItems)
    h.nodup hp fun q _ hne => by rw [if_neg hne]
  rw [← h.free, if_pos rfl] at hsum
  omega

omit [DecidableEq π] h in
theorem sum_free_of_notMem {pages : List UInt64} (hp : p ∉ pages) (max : ℕ) (head : PoolPage π) :
    (pages.map fun q => max - (if q = p then head else s.page q).ppItems).sum =
      (pages.map fun q => max - (s.page q).ppItems).sum := by
  refine congrArg List.sum (List.map_congr_left fun q hq => ?_)
  rw [if_neg (ne_of_mem_of_not_mem hq hp)]

theorem PoolSound.insertPage (ha : p.toNat % 8192 = 0) (hf : p ∉ (s.pool a).poolPages) :
    PoolSound (poolInsertPage a p s) live a := by
  refine h.write (List.nodup_cons.mpr ⟨hf, h.nodup⟩)
    (fun q hq hqp => (List.mem_cons.mp hq).resolve_left hqp)
    (fun _ => ⟨ha, rfl, pageSound_new a _ h.fits.items⟩) ?_ fun m n => ?_
  · rw [List.map_cons, List.sum_cons, if_pos rfl, sum_free_of_notMem hf, ← h.free, Nat.add_comm]
    rfl
  · rw [h.live]
    constructor
    · rintro ⟨q, hq, hn, hc, rfl⟩
      refine ⟨q, List.mem_cons_of_mem _ hq, hn, ?_, rfl⟩
      rwa [if_neg (ne_of_mem_of_not_mem hq hf)]
    · rintro ⟨q, hq, hn, hc, rfl⟩
      by_cases hqp : q = p
      · rw [if_pos hqp] at hc
        exact absurd ((isSet_poolPageMap h.fits.items (words_cover hn)).mpr hn) hc
      · rw [if_neg hqp] at hc
        exact ⟨q, (List.mem_cons.mp hq).resolve_left hqp, hn, hc, rfl⟩

omit [DecidableEq π] in
theorem PoolSound.search (hf : (s.pool a).poolFreeitems ≠ 0) :
    ∃ p n, poolSearch a s = .ok (p, n) ∧ p ∈ (s.pool a).poolPages ∧
      n < (s.pool a).poolMaxitems ∧ Bitmap.IsSet (s.page p).ppMap n ∧
      (s.pool a).poolPages.find? (fun q => (s.page q).ppItems ≠ (s.pool a).poolMaxitems) =
        some p := by
  cases hpg : (s.pool a).poolPages.find? fun q =>
      decide ((s.page q).ppItems ≠ (s.pool a).poolMaxitems) with
  | none =>
    -- if all pages are full, no items are free
    have hz : (s.pool a).poolFreeitems = 0 := by
      rw [h.free]
      refine List.sum_eq_zero ?_
      intro x hx
      obtain ⟨q, hq, rfl⟩ := List.mem_map.mp hx
      have hfl := List.find?_eq_none.mp hpg q hq
      simp only [decide_not, Bool.not_eq_true', decide_eq_false_iff_not] at hfl
      omega
    exact absurd hz hf
  | some p =>
    have hp := List.mem_of_find?_eq_some hpg
    have hne : (s.page p).ppItems ≠ (s.pool a).poolMaxitems := by
      simpa using List.find?_some hpg
    cases hb : firstSet (s.page p).ppMap (poolMapWords (s.pool a).poolMaxitems)
        (s.pool a).poolMaxitems with
    | none =>
      obtain ⟨n, hn, hs⟩ := (h.pages p hp).exists_set hne
      exact absurd hs (firstSet_eq_none hb hn (words_cover hn))
    | some n =>
      obtain ⟨hn, hs⟩ := firstSet_eq_some hb
      refine ⟨p, n, ?_, hp, hn, hs, rfl⟩
      simp only [poolSearch, hpg, hb]
      rfl

theorem PoolSound.take (hp : p ∈ (s.pool a).poolPages) (hn : n < (s.pool a).poolMaxitems)
    (hs : Bitmap.IsSet (s.page p).ppMap n) :
    PoolSound (poolTake a p n s) (⟨a, (s.pool a).datum p n, n⟩ :: live) a := by
  have hpg := h.pages p hp
  have hpos : 0 < (members (s.page p).ppMap (s.pool a).poolMaxitems).card :=
    Finset.card_pos.mpr ⟨n, mem_members.mpr ⟨hn, hs⟩⟩
  have hcn := hpg.count
  have hsum := List.sum_map_erase (fun q => (s.pool a).poolMaxitems - (s.page q).ppItems) hp
  rw [← h.free] at hsum
  refine h.change hp (h.owner p hp) (hpg.take hn hs) (by dsimp only; omega) fun m k => ?_
  simp only [List.mem_cons, Live.mk.injEq, true_and, h.live]
  constructor
  · rintro (⟨rfl, rfl⟩ | ⟨q, hq, hk, hc, rfl⟩)
    · exact ⟨p, hp, hn, by simp [isSet_clearAt], rfl⟩
    · refine ⟨q, hq, hk, ?_, rfl⟩
      split
      · rename_i hqp
        rw [hqp] at hc
        exact fun hk => hc (isSet_clearAt.mp hk).2
      · exact hc
  · rintro ⟨q, hq, hk, hc, rfl⟩
    split at hc
    · rename_i hqp
      subst hqp
      rw [isSet_clearAt, not_and_or, not_ne_iff] at hc
      rcases hc with rfl | hc
      · exact .inl ⟨rfl, rfl⟩
      · exact .inr ⟨q, hq, hk, hc, rfl⟩
    · exact .inr ⟨q, hq, hk, hc, rfl⟩

theorem PoolSound.live_erase (hl : live.Nodup) (hp : p ∈ (s.pool a).poolPages)
    (hn : n < (s.pool a).poolMaxitems) (m : UInt64) :
    ⟨a, m, k⟩ ∈ live.erase ⟨a, (s.pool a).datum p n, n⟩ ↔
      ∃ q ∈ (s.pool a).poolPages, k < (s.pool a).poolMaxitems ∧
        ¬ (q = p ∧ k = n) ∧ ¬ Bitmap.IsSet (s.page q).ppMap k ∧ m = (s.pool a).datum q k := by
  rw [hl.mem_erase_iff, h.live]
  constructor
  · rintro ⟨hne, q, hq, hk, hc, rfl⟩
    exact ⟨q, hq, hk, fun ⟨hqp, hkn⟩ => hne (by rw [hqp, hkn]), hc, rfl⟩
  · rintro ⟨q, hq, hk, hne, hc, rfl⟩
    refine ⟨fun heq => hne ?_, q, hq, hk, hc, rfl⟩
    obtain ⟨-, hd, rfl⟩ := Live.mk.inj heq
    exact ⟨h.eq_of_datum hp hq hn hk hd, rfl⟩

theorem PoolSound.put (hl : live.Nodup) (hp : p ∈ (s.pool a).poolPages)
    (hn : n < (s.pool a).poolMaxitems) (hc : ¬ Bitmap.IsSet (s.page p).ppMap n) :
    PoolSound ((s.setPage p ⟨a, (s.page p).ppItems - 1, setAt (s.page p).ppMap n⟩).setPool a
      { s.pool a with poolFreeitems := (s.pool a).poolFreeitems + 1 })
      (live.erase ⟨a, (s.pool a).datum p n, n⟩) a := by
  have hpg := h.pages p hp
  have hpos := hpg.items_pos hn hc
  have hcn := hpg.count
  have hput := hpg.put hn hc
  refine h.change hp rfl ⟨hput.count, hput.clear⟩ (by dsimp only; omega) fun m k => ?_
  rw [h.live_erase hl hp hn]
  refine exists_congr fun q => and_congr_right fun hq => and_congr_right fun hk => ?_
  by_cases hqp : q = p
  · subst hqp
    simp [isSet_setAt, and_assoc]
  · simp [hqp]

theorem PoolSound.drop (hl : live.Nodup) (hp : p ∈ (s.pool a).poolPages)
    (hn : n < (s.pool a).poolMaxitems) (hc : ¬ Bitmap.IsSet (s.page p).ppMap n)
    (ho : (s.page p).ppItems = 1) (head : PoolPage π) :
    PoolSound ((s.setPage p head).setPool a { s.pool a with
        poolPages := (s.pool a).poolPages.erase p
        poolFreeitems := (s.pool a).poolFreeitems - ((s.pool a).poolMaxitems - 1) })
      (live.erase ⟨a, (s.pool a).datum p n, n⟩) a := by
  have hg := h.nodup.not_mem_erase (a := p)
  refine h.write (h.nodup.erase p) (fun q hq _ => List.mem_of_mem_erase hq)
    (fun hmem => absurd hmem hg) ?_ fun m k => ?_
  · have hs := List.sum_map_erase (fun q => (s.pool a).poolMaxitems - (s.page q).ppItems) hp
    rw [← h.free] at hs
    rw [sum_free_of_notMem hg]
    omega
  · rw [h.live_erase hl hp hn]
    constructor
    · rintro ⟨q, hq, hk, hne, hc', rfl⟩
      have hqp : q ≠ p := by
        rintro rfl
        exact hne ⟨rfl, (h.pages q hq).eq_of_items_one ho hn hc hk hc'⟩
      exact ⟨q, (List.mem_erase_of_ne hqp).mpr hq, hk, by rwa [if_neg hqp], rfl⟩
    · rintro ⟨q, hq, hk, hc', rfl⟩
      obtain ⟨hqp, hq⟩ := h.nodup.mem_erase_iff.mp hq
      rw [if_neg hqp] at hc'
      exact ⟨q, hq, hk, fun hh => hqp hh.1, hc', rfl⟩

end

end Sound

/-! ## Every run -/

/-- The pools, and the items in use. -/
structure PoolMachine (π : Type) where
  state : PoolState π
  live : List (Live π)

/-- The calls. -/
inductive PoolOp (π : Type)
  | create (a : π) (size : UInt64) (flags : UInt32)
  | allocate (a : π) (answer : Except Errno UInt64)
  | free (m : UInt64) (answer : Except Errno Unit)

def PoolMachine.boot (page : UInt64 → PoolPage π) : PoolMachine π :=
  ⟨⟨fun _ => ⟨0, 0, 0, [], 0⟩, page⟩, []⟩

/-- The answer to an allocation of a page: a page, and none that is in a pool. -/
def FreshPage (s : PoolState π) (answer : Except Errno UInt64) : Prop :=
  ∀ vaddr, answer = .ok vaddr → vaddr.toNat % 8192 = 0 ∧ ∀ b, vaddr ∉ (s.pool b).poolPages

variable [DecidableEq π]

/-- **A call that returns.** A pool is created once, with a size that does not round up to 0; what
is freed is an item in use. -/
inductive PoolStep : PoolMachine π → PoolOp π → PoolMachine π → Prop
  | create {s : PoolMachine π} {a size flags s'} : ¬ (s.state.pool a).Valid →
      (size + (poolAlignment - 1)) / poolAlignment * poolAlignment ≠ 0 →
      poolCreate a size flags s.state = .ok s' →
      PoolStep s (.create a size flags) { s with state := s' }
  | allocate {s : PoolMachine π} {a answer s₁ page n s' m} : FreshPage s.state answer →
      poolRefill a answer s.state = .ok s₁ → poolSearch a s₁ = .ok (page, n) →
      poolAllocate a answer s.state = .ok (s', m) →
      PoolStep s (.allocate a answer) ⟨s', ⟨a, m, n⟩ :: s.live⟩
  | free {s : PoolMachine π} {x answer s'} : x ∈ s.live →
      poolFree x.datum answer s.state = .ok s' →
      PoolStep s (.free x.datum answer) ⟨s', s.live.erase x⟩

/-- **What holds of all pools**: between calls no page is empty. -/
structure PoolInvariant (s : PoolMachine π) : Prop where
  sound : ∀ a, (s.state.pool a).Valid → PoolSound s.state s.live a
  used : ∀ a, (s.state.pool a).Valid → ∀ p ∈ (s.state.pool a).poolPages,
    0 < (s.state.page p).ppItems
  valid : ∀ x ∈ s.live, (s.state.pool x.owner).Valid
  nodup : s.live.Nodup

section Run

variable {s : PoolMachine π} {a : π} {s₁ : PoolState π}

omit [DecidableEq π] in
theorem poolInvariant_boot (page : UInt64 → PoolPage π) :
    PoolInvariant (PoolMachine.boot page) := by
  have hf : (0 : UInt32) &&& poolValid = 0 := by decide
  have hn : ∀ a, ¬ ((PoolMachine.boot page).state.pool a).Valid := fun a h => h hf
  exact ⟨fun a ha => absurd ha (hn a), fun a ha => absurd ha (hn a), nofun, List.nodup_nil⟩

section

variable (h : PoolInvariant s)
include h

theorem PoolInvariant.create (hn : ¬ (s.state.pool a).Valid) {size : UInt64} {flags : UInt32}
    (hs : (size + (poolAlignment - 1)) / poolAlignment * poolAlignment ≠ 0) :
    Yields (poolCreate a size flags s.state) fun s' =>
      PoolInvariant ⟨s', s.live⟩ := by
  unfold poolCreate
  dsimp only
  generalize (size + (poolAlignment - 1)) / poolAlignment * poolAlignment = size' at hs
  split
  · exact yields_error
  · rename_i hle
    refine (poolItems_spec (Nat.le_of_not_lt hle)).yields.bind ?_
    rintro maxitems ⟨ht, hu, -⟩
    have hpos : 0 < size'.toNat := by
      rw [Nat.pos_iff_ne_zero, Ne, ← UInt64.toNat_zero, UInt64.toNat_inj]
      exact hs
    have hit : 0 < maxitems := by omega
    -- no item in use is of the new pool
    have hl : ∀ x ∈ s.live, x.owner ≠ a := by
      rintro x hx rfl
      exact hn (h.valid x hx)
    have hold : ∀ b, b ≠ a → (s.state.setPool a ⟨size'.toNat, maxitems, 0, [],
        flags ||| poolValid⟩).pool b = s.state.pool b := fun b hb => by simp [hb]
    refine .ret ⟨fun b hb => ?_, fun b hb => ?_, fun x hx => ?_, h.nodup⟩
    · by_cases hba : b = a
      · subst hba
        refine ⟨?_, ?_, ?_, ?_, ?_, ?_, fun m n => ?_⟩
        · simp only [setPool_pool]
          exact ⟨hpos, hit, hu⟩
        · simp
        · simp
        · simp
        · simp
        · simp
        · simp only [setPool_pool, if_true, List.not_mem_nil, false_and, exists_false, iff_false]
          exact fun hx => hl _ hx rfl
      · rw [hold b hba] at hb
        exact (h.sound b hb).frame (hold b hba) (fun _ _ => rfl) fun _ _ => Iff.rfl
    · by_cases hba : b = a
      · subst hba
        simp
      · rw [hold b hba] at hb ⊢
        exact h.used b hb
    · rw [hold _ (hl x hx)]
      exact h.valid x hx

/-- What a page that is allocated when it is needed leaves behind: items are free, and the only page
that can be empty is the first one. -/
structure Refilled (s : PoolMachine π) (a : π) (s₁ : PoolState π) : Prop where
  flags : ∀ b, (s₁.pool b).poolFlags = (s.state.pool b).poolFlags
  sound : ∀ b, (s.state.pool b).Valid → PoolSound s₁ s.live b
  free : (s₁.pool a).poolFreeitems ≠ 0
  used : ∀ b, (s.state.pool b).Valid → ∀ p ∈ (s₁.pool b).poolPages,
    (s₁.page p).ppItems = 0 → b = a ∧ (s₁.pool a).poolPages.head? = some p

theorem PoolInvariant.refill (hv : (s.state.pool a).Valid)
    {answer : Except Errno UInt64} (hf : FreshPage s.state answer) :
    Yields (poolRefill a answer s.state) (Refilled s a) := by
  unfold poolRefill
  split
  · cases answer with
    | error e => exact yields_error
    | ok vaddr =>
      obtain ⟨ha, hn⟩ := hf vaddr rfl
      have hit := (h.sound a hv).fits.items
      have hpl : ∀ b, b ≠ a → (poolInsertPage a vaddr s.state).pool b = s.state.pool b :=
        fun b hb => by simp [poolInsertPage, hb]
      have hpg : ∀ b, ∀ p ∈ (s.state.pool b).poolPages,
          (poolInsertPage a vaddr s.state).page p = s.state.page p := by
        intro b p hp
        have hne : p ≠ vaddr := fun hpv => hn b (hpv ▸ hp)
        simp [poolInsertPage, hne]
      refine .ret ⟨fun b => ?_, fun b hb => ?_, ?_, fun b hb p hp hz => ?_⟩
      · by_cases hba : b = a
        · simp [poolInsertPage, hba]
        · rw [hpl b hba]
      · by_cases hba : b = a
        · subst hba
          exact (h.sound b hb).insertPage ha (hn b)
        · exact (h.sound b hb).frame (hpl b hba) (hpg b) fun _ _ => Iff.rfl
      · simp only [poolInsertPage, setPool_pool, if_true]
        omega
      · by_cases hba : b = a
        · subst hba
          refine ⟨rfl, ?_⟩
          simp only [poolInsertPage, setPool_pool, if_true, List.mem_cons] at hp ⊢
          rcases hp with rfl | hp
          · rfl
          · have hu := h.used b hb p hp
            rw [hpg b p hp] at hz
            omega
        · rw [hpl b hba] at hp
          have hu := h.used b hb p hp
          rw [hpg b p hp] at hz
          omega
  · rename_i hfr
    refine .ret ⟨fun _ => rfl, h.sound, hfr, fun b hb p hp hz => ?_⟩
    have hu := h.used b hb p hp
    omega

theorem PoolInvariant.allocate (hv : (s.state.pool a).Valid)
    (hs₁ : Refilled s a s₁) : ∃ p n, poolSearch a s₁ = .ok (p, n) ∧
      poolGet a s₁ = .ok (poolTake a p n s₁, (s₁.pool a).datum p n) ∧
      PoolInvariant ⟨poolTake a p n s₁, ⟨a, (s₁.pool a).datum p n, n⟩ :: s.live⟩ := by
  have hsn := hs₁.sound a hv
  obtain ⟨p, n, hsr, hp, hn, hset, hfn⟩ := hsn.search hs₁.free
  have hf : ∀ b, ((poolTake a p n s₁).pool b).Valid ↔ (s.state.pool b).Valid := by
    intro b
    unfold Pool.Valid
    rw [← hs₁.flags]
    by_cases hba : b = a <;> simp [poolTake, hba]
  refine ⟨p, n, hsr, ?_, fun b hb => ?_, fun b hb q hq => ?_, fun x hx => ?_, ?_⟩
  · rw [poolGet, hsr]
    have ho := hsn.owner p hp
    simp only [ok_bind, poolPageDatum, poolTake, setPool_page, setPage_page, if_true, ho,
      setPool_pool]
    rfl
  · rw [hf] at hb
    by_cases hba : b = a
    · subst hba
      exact hsn.take hp hn hset
    · exact (hs₁.sound b hb).other hba (hsn.owner p hp) _ _ fun m k => by simp [hba]
  · rw [hf] at hb
    by_cases hqp : q = p
    · simp [poolTake, hqp]
    · have hpg : ((poolTake a p n s₁).pool b).poolPages = (s₁.pool b).poolPages := by
        by_cases hba : b = a <;> simp [poolTake, hba]
      rw [hpg] at hq
      have hpa : (poolTake a p n s₁).page q = s₁.page q := by simp [poolTake, hqp]
      rw [hpa, Nat.pos_iff_ne_zero]
      intro hz
      -- an empty page is the first one, and the search has found it
      obtain ⟨rfl, hh⟩ := hs₁.used b hb q hq hz
      obtain ⟨rest, hpg⟩ := List.head?_eq_some_iff.mp hh
      rw [hpg, List.find?_cons_of_pos (by simp [hz]; omega)] at hfn
      exact hqp (Option.some.inj hfn)
  · rw [hf]
    rcases List.mem_cons.mp hx with rfl | hx
    · exact hv
    · exact h.valid x hx
  · refine List.nodup_cons.mpr ⟨fun hmem => ?_, h.nodup⟩
    obtain ⟨q, hq, -, hc, hd⟩ := (hsn.live _ _).mp hmem
    obtain rfl := hsn.eq_of_datum hp hq hn hn hd.symm
    exact hc hset

theorem PoolInvariant.poolAllocate_cases (hv : (s.state.pool a).Valid)
    {answer : Except Errno UInt64} (hf : FreshPage s.state answer) :
    (poolAllocate a answer s.state = .error .panic ∧ (s.state.pool a).poolFreeitems = 0 ∧
      ∃ e, answer = .error e) ∨
    ∃ s' m n, poolAllocate a answer s.state = .ok (s', m) ∧
      PoolInvariant ⟨s', ⟨a, m, n⟩ :: s.live⟩ ∧ ∀ k, ⟨a, m, k⟩ ∉ s.live := by
  rw [poolAllocate, if_pos hv]
  cases hrf : poolRefill a answer s.state with
  | ok s₁ =>
    have hs₁ := h.refill hv hf s₁ hrf
    obtain ⟨p, n, -, hg, hinv⟩ := h.allocate hv hs₁
    refine .inr ⟨_, _, n, hg, hinv, fun k hk => (List.nodup_cons.mp hinv.nodup).1 ?_⟩
    -- the number of an item is known from its address
    have hsn := hinv.sound a (hinv.valid _ List.mem_cons_self)
    obtain ⟨q, hq, hn, -, hd⟩ := (hsn.live _ n).mp List.mem_cons_self
    obtain ⟨q', hq', hk', -, hd'⟩ := (hsn.live _ k).mp (List.mem_cons_of_mem _ hk)
    obtain rfl := hsn.eq_of_datum hq hq' hn hk' (hd'.symm.trans hd)
    have hi := hsn.fits.index_datum (hsn.aligned q' hq) hn
    rw [← hd, hd', hsn.fits.index_datum (hsn.aligned q' hq) hk'] at hi
    exact hi ▸ hk
  | error e =>
    unfold poolRefill at hrf
    split at hrf
    · rename_i hfr
      cases answer with
      | ok vaddr => cases hrf
      | error e =>
        cases hrf
        exact .inl ⟨rfl, hfr, e, rfl⟩
    · cases hrf

variable {answer : Except Errno Unit}

omit h in
theorem poolFree_eq {s : PoolState π} {p m : UInt64} {n : ℕ}
    (hf : pageFloor m = p) (ho : (s.page p).ppPool = a)
    (hin : (s.pool a).index p m = n) :
    poolFree m answer s = (if (s.page p).ppItems = 0 then .error .panic
      else if (s.page p).ppItems ≠ 1 then
        pure ((s.setPage p ⟨a, (s.page p).ppItems - 1, setAt (s.page p).ppMap n⟩).setPool a
          { s.pool a with poolFreeitems := (s.pool a).poolFreeitems + 1 })
      else do
        let pages ← slistRemove p (s.pool a).poolPages
        match answer with
        | .error _ => .error .panic
        | .ok () =>
          pure ((s.setPage p ⟨a, (s.page p).ppItems - 1, setAt (s.page p).ppMap n⟩).setPool a
            { s.pool a with
              poolPages := pages
              poolFreeitems := (s.pool a).poolFreeitems - ((s.pool a).poolMaxitems - 1) })) := by
  cases answer with
  | error e | ok u =>
    simp only [poolFree, poolPageFreeDatum, poolPageIndex, hf, ho, hin, setPage_page,
      if_true, setPage_pool, setPage_setPage]

theorem PoolInvariant.freed (hv : (s.state.pool a).Valid) {p : UInt64}
    (hp : (s.state.page p).ppPool = a) {pool : Pool} {m : UInt64} {n : ℕ}
    (hf : pool.poolFlags = (s.state.pool a).poolFlags)
    (hs : PoolSound ((s.state.setPage p head).setPool a pool) (s.live.erase ⟨a, m, n⟩) a)
    (hu : ∀ q ∈ pool.poolPages, q ∈ (s.state.pool a).poolPages)
    (hh : p ∈ pool.poolPages → 0 < head.ppItems) :
    PoolInvariant ⟨(s.state.setPage p head).setPool a pool, s.live.erase ⟨a, m, n⟩⟩ := by
  have hv' : ∀ b, (((s.state.setPage p head).setPool a pool).pool b).Valid ↔
      (s.state.pool b).Valid := by
    intro b
    unfold Pool.Valid
    by_cases hba : b = a
    · simp [hba, hf]
    · simp [hba]
  refine ⟨fun b hb => ?_, fun b hb q hq => ?_, fun x hx => ?_, h.nodup.erase _⟩
  · rw [hv'] at hb
    by_cases hba : b = a
    · exact hba ▸ hs
    · refine (h.sound b hb).other hba hp head pool fun m' k => List.mem_erase_of_ne fun heq => ?_
      exact hba (Live.mk.inj heq).1
  · rw [hv'] at hb
    simp only [setPool_pool, setPool_page, setPage_page] at hq ⊢
    by_cases hba : b = a
    · subst hba
      rw [if_pos rfl] at hq
      split
      · rename_i hqp
        exact hh (hqp ▸ hq)
      · exact h.used b hb q (hu q hq)
    · rw [if_neg hba] at hq
      have hne : q ≠ p := by
        rintro rfl
        exact hba (((h.sound b hb).owner q hq).symm.trans hp)
      rw [if_neg hne]
      exact h.used b hb q hq
  · rw [hv']
    exact h.valid x (List.mem_of_mem_erase hx)

theorem PoolInvariant.free {x : Live π} (hx : x ∈ s.live) :
    (∃ s', poolFree x.datum answer s.state = .ok s' ∧ PoolInvariant ⟨s', s.live.erase x⟩) ∨
      poolFree x.datum answer s.state = .error .panic ∧ ∃ e, answer = .error e := by
  obtain ⟨a, m, n⟩ := x
  have hv := h.valid _ hx
  have hs := h.sound a hv
  obtain ⟨p, hp, hn, hc, rfl⟩ := (hs.live m n).mp hx
  have ho := hs.owner p hp
  have hpos := (hs.pages p hp).items_pos hn hc
  rw [poolFree_eq (hs.fits.pageFloor_datum (hs.aligned p hp) hn) ho
    (hs.fits.index_datum (hs.aligned p hp) hn), if_neg (Nat.ne_of_gt hpos)]
  by_cases hone : (s.state.page p).ppItems = 1
  · rw [if_neg (not_not.mpr hone), slistRemove, if_pos hp]
    cases answer with
    | error e => exact .inr ⟨rfl, e, rfl⟩
    | ok _ =>
      refine .inl ⟨_, rfl, h.freed hv ho rfl
        (hs.drop h.nodup hp hn hc hone _) (fun q hq => List.mem_of_mem_erase hq) ?_⟩
      intro hmem
      exact absurd rfl (hs.nodup.mem_erase_iff.mp hmem).1
  · rw [if_pos hone]
    refine .inl ⟨_, rfl, h.freed hv ho rfl (hs.put h.nodup hp hn hc) (fun q hq => hq) fun _ => ?_⟩
    dsimp only
    omega

theorem PoolInvariant.step {op : PoolOp π} {s' : PoolMachine π}
    (hst : PoolStep s op s') : PoolInvariant s' := by
  cases hst with
  | create hn hsz hc => exact h.create hn hsz _ hc
  | @allocate a answer s₁ page n s' m hfr hr hsr ha =>
    by_cases hv : (s.state.pool a).Valid
    · obtain ⟨p, k, hsr', hg, hinv⟩ := h.allocate hv (h.refill hv hfr s₁ hr)
      obtain ⟨rfl, rfl⟩ := Prod.mk.inj (Except.ok.inj (hsr.symm.trans hsr'))
      rw [poolAllocate, if_pos hv, hr, ok_bind, hg] at ha
      cases ha
      exact hinv
    · rw [poolAllocate, if_neg hv] at ha
      cases ha
  | free hx hf =>
    rcases h.free hx with ⟨s', hs', hinv⟩ | ⟨hp, -⟩
    · obtain rfl := Except.ok.inj (hs'.symm.trans hf)
      exact hinv
    · rw [hp] at hf
      cases hf

end

variable {page : UInt64 → PoolPage π} {h : List (PoolMachine π × PoolOp π)}

theorem PoolInvariant.run (hr : Run PoolStep (PoolMachine.boot page) h s) : PoolInvariant s :=
  hr.invariant (poolInvariant_boot page) fun _ _ _ _ _ hinv hs => hinv.step hs

/-- **The counts of a pool agree**, after every run: the free items of the pool are those of its
pages, on each page they are the bits that are set, no bit beyond the items is set, and no page is
empty. Allocations and releases return if the page that they need can be allocated or freed. -/
theorem pool_accounting (hr : Run PoolStep (PoolMachine.boot page) h s)
    (ha : (s.state.pool a).Valid) :
    (s.state.pool a).poolFreeitems = ((s.state.pool a).poolPages.map fun p =>
      (s.state.pool a).poolMaxitems - (s.state.page p).ppItems).sum ∧
    (∀ p ∈ (s.state.pool a).poolPages,
      (members (s.state.page p).ppMap (s.state.pool a).poolMaxitems).card =
        (s.state.pool a).poolMaxitems - (s.state.page p).ppItems ∧
      (∀ n, (s.state.pool a).poolMaxitems ≤ n →
        n < poolMapWords (s.state.pool a).poolMaxitems * 64 →
        ¬ Bitmap.IsSet (s.state.page p).ppMap n) ∧
      0 < (s.state.page p).ppItems ∧
      (s.state.page p).ppItems ≤ (s.state.pool a).poolMaxitems) ∧
    (∀ answer, FreshPage s.state answer →
      (∃ r, poolAllocate a answer s.state = .ok r) ∨
        poolAllocate a answer s.state = .error .panic ∧ (s.state.pool a).poolFreeitems = 0 ∧
          ∃ e, answer = .error e) ∧
    ∀ x ∈ s.live, ∀ answer, (∃ s', poolFree x.datum answer s.state = .ok s') ∨
      poolFree x.datum answer s.state = .error .panic ∧ ∃ e, answer = .error e := by
  have hinv := PoolInvariant.run hr
  have hsn := hinv.sound a ha
  refine ⟨hsn.free, fun p hp => ?_, fun answer hf => ?_, fun x hx answer => ?_⟩
  · have hc := (hsn.pages p hp).count
    exact ⟨by omega, (hsn.pages p hp).clear, hinv.used a ha p hp, by omega⟩
  · rcases hinv.poolAllocate_cases ha hf with hpanic | ⟨s', m, -, hok, -⟩
    · exact .inr hpanic
    · exact .inl ⟨_, hok⟩
  · rcases hinv.free hx with ⟨s', hs', -⟩ | hpn
    · exact .inl ⟨s', hs'⟩
    · exact .inr hpn

/-- **Items in use**: after every run each lies behind the head and the map of its page and before
the end, its number is the bit that was taken for it, and two of them do not overlap. -/
theorem pool_geometry (hr : Run PoolStep (PoolMachine.boot page) h s) :
    (∀ x ∈ s.live, pageFloor x.datum ∈ (s.state.pool x.owner).poolPages ∧
      (pageFloor x.datum).toNat + sizeofPoolPage +
        poolMapBytes (s.state.pool x.owner).poolMaxitems ≤ x.datum.toNat ∧
      x.datum.toNat + (s.state.pool x.owner).poolSize ≤ (pageFloor x.datum).toNat + pageSize.toNat ∧
      poolPageIndex s.state (pageFloor x.datum) x.datum = x.index) ∧
    ∀ x ∈ s.live, ∀ y ∈ s.live, x ≠ y →
      x.datum.toNat + (s.state.pool x.owner).poolSize ≤ y.datum.toNat ∨
        y.datum.toNat + (s.state.pool y.owner).poolSize ≤ x.datum.toNat := by
  have hinv := PoolInvariant.run hr
  have hpg : pageSize.toNat = 8192 := by decide
  rw [sizeofPoolPage]
  constructor
  · rintro ⟨a, m, n⟩ hx
    have hs := hinv.sound a (hinv.valid _ hx)
    obtain ⟨p, hp, hn, -, rfl⟩ := (hs.live m n).mp hx
    have hal := hs.aligned p hp
    have hle := hs.fits.offset_le hn
    dsimp only
    rw [hs.fits.pageFloor_datum hal hn, hs.fits.toNat_datum hal hn]
    refine ⟨hp, by omega, by omega, ?_⟩
    rw [poolPageIndex, hs.owner p hp]
    exact hs.fits.index_datum hal hn
  · rintro ⟨a, m, n⟩ hx ⟨b, m', k⟩ hy hne
    have ha := hinv.sound a (hinv.valid _ hx)
    have hb := hinv.sound b (hinv.valid _ hy)
    obtain ⟨p, hp, hn, -, rfl⟩ := (ha.live m n).mp hx
    obtain ⟨q, hq, hk, -, rfl⟩ := (hb.live m' k).mp hy
    have hpa := ha.aligned p hp
    have hqa := hb.aligned q hq
    dsimp only
    by_cases hpq : p = q
    · -- in one page the items have different numbers
      subst hpq
      obtain rfl : a = b := (ha.owner p hp).symm.trans (hb.owner p hq)
      have hnk : n ≠ k := fun hnk => hne (by rw [hnk])
      rcases Nat.lt_or_gt_of_ne hnk with hlt | hlt
      · exact .inl (ha.fits.disjoint hpa hn hk hlt)
      · exact .inr (ha.fits.disjoint hpa hk hn hlt)
    · have hle := ha.fits.offset_le hn
      have hle' := hb.fits.offset_le hk
      have hne' : p.toNat ≠ q.toNat := fun h => hpq (UInt64.toNat_inj.mp h)
      rw [ha.fits.toNat_datum hpa hn, hb.fits.toNat_datum hqa hk]
      omega

end Run

def emptyPools : PoolMachine ℕ := PoolMachine.boot fun _ => ⟨0, 0, fun _ => 0⟩

theorem exists_pool_run : ∃ (s : PoolMachine ℕ) (h : List (PoolMachine ℕ × PoolOp ℕ)),
    Run PoolStep emptyPools h s ∧ (s.state.pool 0).Valid ∧ (s.state.pool 0).poolPages = [8192] ∧
      s.live = [⟨0, 12224, 1⟩, ⟨0, 8224, 0⟩] := by
  have hc : poolCreate 0 4000 0 emptyPools.state =
      .ok (emptyPools.state.setPool 0 ⟨4000, 2, 0, [], poolValid⟩) := rfl
  have hf : FreshPage (emptyPools.state.setPool 0 ⟨4000, 2, 0, [], poolValid⟩) (.ok 8192) := by
    intro vaddr hv
    cases hv
    refine ⟨by decide, fun b => ?_⟩
    rw [setPool_pool]
    split <;> exact List.not_mem_nil
  have he : ∀ s : PoolState ℕ, FreshPage s (.error .exhausted) := nofun
  have hr₁ : Run PoolStep emptyPools _ _ :=
    Run.nil.snoc (PoolStep.create (by decide) (by decide) hc)
  have hr₂ := hr₁.snoc (PoolStep.allocate (a := 0) hf rfl rfl rfl)
  have hr := hr₂.snoc (PoolStep.allocate (a := 0) (he _) rfl rfl rfl)
  exact ⟨_, _, hr, by decide, rfl, rfl⟩

/-- The counts of a page that is full. -/
theorem pool_accounting_full : ∃ (s : PoolMachine ℕ) (h : List (PoolMachine ℕ × PoolOp ℕ)),
    Run PoolStep emptyPools h s ∧
      (s.state.pool 0).poolFreeitems = (s.state.pool 0).poolMaxitems - (s.state.page 8192).ppItems ∧
      0 < (s.state.page 8192).ppItems := by
  obtain ⟨s, h, hr, hv, hp, -⟩ := exists_pool_run
  obtain ⟨hf, hc, -⟩ := pool_accounting hr hv
  rw [hp] at hf hc
  obtain ⟨-, -, hpos, -⟩ := hc 8192 List.mem_cons_self
  exact ⟨s, h, hr, by simpa using hf, hpos⟩

/-- Two items of a page. -/
theorem pool_geometry_two : ∃ (s : PoolMachine ℕ) (h : List (PoolMachine ℕ × PoolOp ℕ)),
    Run PoolStep emptyPools h s ∧
      poolPageIndex s.state 8192 12224 = 1 ∧ poolPageIndex s.state 8192 8224 = 0 := by
  obtain ⟨s, h, hr, -, -, hl⟩ := exists_pool_run
  obtain ⟨hit, -⟩ := pool_geometry hr
  rw [hl] at hit
  exact ⟨s, h, hr, (hit ⟨0, 12224, 1⟩ (by decide)).2.2.2, (hit ⟨0, 8224, 0⟩ (by decide)).2.2.2⟩

end Glatt
