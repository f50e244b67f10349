import Glatt.Core.String
import Glatt.Mu.FileIo

/-!
# The arguments of a process

`process_start_data` and `mu_main` of `libmu/process.c`, and the message of `exec` that connects
them. The parent puts the strings of its `argv` into one page, behind a table of where they are in
the page; the child adds the address of the page to each entry of the table, which makes it an
`argv`.

## Main definitions

* `processStartData`, `muMain`: the functions
* `ArgsFit`: the table and the strings fit into a page

## Main results

* `process_start_data_inside_iff`: the page is not overrun exactly if table and strings fit
  into it
* `exec_arguments_survive`: the child has the strings of the parent
-/

namespace Glatt

open Imperative Buffer Function ByteSource

/-! ## The parent -/

/-- One byte of the copy of a string: the page, where the copy goes on, and the offset in the
string. -/
def startCopyRound (arg : ℕ → UInt8) :
    (ℕ → UInt8) × ℕ × ℕ → Outcome (((ℕ → UInt8) × ℕ × ℕ) ⊕ ((ℕ → UInt8) × ℕ))
  | (page, argp, k) =>
    let page := update page argp (arg k)
    if arg k ≠ 0 then pure (.inl (page, argp + 1, k + 1)) else pure (.inr (page, argp + 1))

/-- One round of the loop of `process_start_data`: the offset of the string goes into the table, and
the string into the page. -/
def processStartRound (order : ByteOrder) (argv : ℕ → ℕ → UInt8) (i : ℕ) :
    (ℕ → UInt8) × ℕ → Outcome ((ℕ → UInt8) × ℕ)
  | (page, argp) =>
    loop (startCopyRound (argv i)) memoryEnd (store order page (8 * i) 8 argp, argp, 0)

/-- `process_start_data`, on what `vm_page_get` returns; `argv i` are the bytes from the `i`-th
argument on. -/
def processStartData (order : ByteOrder) (vmPageGet : Except Errno (ℕ → UInt8)) (argc : UInt32)
    (argv : ℕ → ℕ → UInt8) : Outcome (Except Errno (ℕ → UInt8)) :=
  if argc = 0 then .error .panic
  else
    match vmPageGet with
    | .error e => pure (.error e)
    | .ok page => do
      let (page, _) ← forRange (processStartRound order argv) argc.toNat (page, 8 * argc.toNat)
      pure (.ok page)

def processMsg (wait : Bool) : UInt16 := if wait then 2 else 1

def execMessage (order : ByteOrder) (env : RequestEnv) (task : UInt32) (wait : Bool)
    (vmPageGet : Except Errno (ℕ → UInt8)) (argc : UInt32) (argv : ℕ → ℕ → UInt8) :
    Outcome (Except Errno PageMessage) := do
  match ← processStartData order vmPageGet argc argv with
  | .error e => pure (.error e)
  | .ok page =>
    let header := { env.header task (processMsg wait) with ipchdrParam := argc.toUInt64 }
    pure (.ok ⟨header, some page⟩)

/-! ## The child -/

structure PageAddress where
  addr : UInt64
  aligned : 8192 ∣ addr.toNat

def muMainRound (order : ByteOrder) (page : UInt64) (i : ℕ) (buf : ℕ → UInt8) :
    Outcome (ℕ → UInt8) :=
  if 8192 < load order buf (8 * i) 8 then .error .panic
  else pure (store order buf (8 * i) 8 ((load order buf (8 * i) 8 + page.toNat) % 2 ^ 64))

/-- What `mu_main` does with a message: it waits for the next one, returns, or calls `main` with the
page as its `argv`. -/
inductive MuMain
  | next
  | done
  | main (argc : UInt32) (argv : ℕ → UInt8)

/-- The loop body of `mu_main` on a message whose page is mapped at an address. -/
def muMain (order : ByteOrder) (page : PageAddress) (startMsg : PageMessage) : Outcome MuMain :=
  if startMsg.header.ipchdrMsg ≠ processMsg false ∧ startMsg.header.ipchdrMsg ≠ processMsg true then
    pure .next
  else
    match startMsg.page with
    | none => pure .done
    | some buf => do
      let argc := startMsg.header.ipchdrParam.toUInt32
      let argv ← forRange (muMainRound order page.addr) argc.toNat buf
      pure (.main argc argv)

/-! ## The page -/

/-- Where the page has the string of the `j`-th argument: behind the table and the strings before
it. -/
def argOffset (args : List (List UInt8)) (j : ℕ) : ℕ :=
  8 * args.length + ((args.take j).map (·.length + 1)).sum

variable {args : List (List UInt8)} {order : ByteOrder} {i j k : ℕ} {s : List UInt8}

theorem argOffset_succ (hj : j < args.length) :
    argOffset args (j + 1) = argOffset args j + (args[j].length + 1) := by
  rw [argOffset, argOffset, List.take_succ_eq_append_getElem hj, List.map_append, List.sum_append,
    List.map_singleton, List.sum_singleton, Nat.add_assoc]

theorem argOffset_mono (hj : j ≤ k) (hk : k ≤ args.length) :
    argOffset args j ≤ argOffset args k := by
  induction k, hj using Nat.le_induction with
  | base => exact Nat.le_refl _
  | succ k _ ih =>
    rw [argOffset_succ hk]
    exact (ih (Nat.le_of_succ_le hk)).trans (Nat.le_add_right _ _)

theorem argOffset_ge : 8 * args.length ≤ argOffset args j := Nat.le_add_right _ _

theorem argOffset_length :
    argOffset args args.length = 8 * args.length + (args.map (·.length + 1)).sum := by
  rw [argOffset, List.take_length]

theorem startCopy_spec {arg page : ℕ → UInt8} {argp : ℕ} (h : StrAt arg 0 s)
    (hmem : s.length < memoryEnd) :
    Ensures (loop (startCopyRound arg) memoryEnd (page, argp, 0)) fun r =>
      r.2 = argp + (s.length + 1) ∧ StrAt r.1 argp s ∧
        ∀ i, i < argp ∨ argp + s.length < i → r.1 i = page i := by
  -- what has been copied is the string so far
  refine Ensures.loop (I := fun n (p : (ℕ → UInt8) × ℕ × ℕ) => p.2.1 = argp + p.2.2 ∧
    p.2.2 ≤ s.length ∧ n = s.length - p.2.2 ∧ (∀ j < p.2.2, p.1 (argp + j) = arg j) ∧
    ∀ i, i < argp ∨ argp + s.length < i → p.1 i = page i) ?_
    ⟨rfl, Nat.zero_le _, rfl, nofun, fun _ _ => rfl⟩ hmem
  rintro _ ⟨buf, argp', k⟩ ⟨ha, hk, rfl, hc, hr⟩
  dsimp only at ha hk hc hr
  subst ha
  rw [startCopyRound]
  have hn : ∀ j < k + 1, update buf (argp + k) (arg k) (argp + j) = arg j := by
    intro j hj
    rcases Nat.lt_succ_iff_lt_or_eq.mp hj with hlt | rfl
    · rw [update_of_ne (by omega), hc j hlt]
    · rw [update_self]
  have hf : ∀ i, i < argp ∨ argp + s.length < i → update buf (argp + k) (arg k) i = page i := by
    intro i hi
    rw [update_of_ne (by omega), hr i hi]
  rcases Nat.lt_or_eq_of_le hk with hlt | rfl
  · have hne : arg k ≠ 0 := by
      have := h.ne_zero hlt
      rwa [byte_quiet, Nat.zero_add] at this
    rw [if_pos hne]
    exact .ret ⟨s.length - (k + 1), by dsimp only; omega, argp.add_assoc k 1, hlt,
      rfl, hn, hf⟩
  · have hz : arg s.length = 0 := by
      have := h.terminated
      rwa [byte_quiet, Nat.zero_add] at this
    rw [if_neg (not_not.mpr hz)]
    refine .ret ⟨by dsimp only; omega, ?_, hf⟩
    refine h.congr fun j hj => ?_
    rw [byte_quiet, byte_quiet, Nat.zero_add]
    exact hn j (Nat.lt_succ_of_le hj)

/-- The page has the first `n` arguments: their places in the table, and their strings. -/
def Packed (order : ByteOrder) (args : List (List UInt8)) (n : ℕ) (page : ℕ → UInt8) : Prop :=
  ∀ j < n, ∀ s, args[j]? = some s →
    load order page (8 * j) 8 = argOffset args j ∧ StrAt page (argOffset args j) s

/-- The arguments of a page: the table and the strings are in the page. -/
structure ArgsFit (args : List (List UInt8)) : Prop where
  nonempty : args ≠ []
  fit : 8 * args.length + (args.map (·.length + 1)).sum ≤ 8192

theorem ArgsFit.offset_lt (h : ArgsFit args) (hs : args[j]? = some s) :
    argOffset args j + s.length < 8192 := by
  obtain ⟨hj, rfl⟩ := List.getElem?_eq_some_iff.mp hs
  have hf := h.fit
  have hsc := argOffset_succ hj
  have hm := argOffset_mono (show j + 1 ≤ args.length from hj) (Nat.le_refl _)
  rw [← argOffset_length] at hf
  omega

theorem processStartRound_spec (h : ArgsFit args) {argv : ℕ → ℕ → UInt8} (hs : args[i]? = some s)
    (ha : StrAt (argv i) 0 s) {page : ℕ → UInt8} (hp : Packed order args i page) :
    Ensures (processStartRound order argv i (page, argOffset args i)) fun r =>
      Packed order args (i + 1) r.1 ∧ r.2 = argOffset args (i + 1) := by
  obtain ⟨hi, rfl⟩ := List.getElem?_eq_some_iff.mp hs
  have hlt := h.offset_lt hs
  have hge : 8 * args.length ≤ argOffset args i := argOffset_ge
  rw [processStartRound]
  refine (startCopy_spec ha (by rw [memoryEnd]; omega)).mono ?_
  rintro ⟨page', -⟩ ⟨rfl, hstr, hf⟩
  refine ⟨fun j hj s hjs => ?_, (argOffset_succ hi).symm⟩
  -- the copy changes no byte of the table
  have ht : ∀ b < 8, page' (8 * j + b) = store order page (8 * i) 8 (argOffset args i)
      (8 * j + b) := fun b hb => hf _ (Or.inl (by omega))
  rw [load_congr ht]
  rcases Nat.lt_succ_iff_lt_or_eq.mp hj with hlt' | rfl
  · obtain ⟨hl, hstr'⟩ := hp j hlt' s hjs
    obtain ⟨hj', rfl⟩ := List.getElem?_eq_some_iff.mp hjs
    have hsc := argOffset_succ hj'
    have hm := argOffset_mono (show j + 1 ≤ i from hlt') (Nat.le_of_lt hi)
    have hg : 8 * args.length ≤ argOffset args j := argOffset_ge
    refine ⟨?_, hstr'.congr fun b hb => ?_⟩
    · rw [load_store_of_disjoint (by omega), hl]
    · rw [byte_quiet, byte_quiet, hf _ (by omega), store_apply (by omega)]
  · rw [hs] at hjs
    cases hjs
    exact ⟨load_store (by omega), hstr⟩

theorem processStartData_of_loop {argv : ℕ → ℕ → UInt8} {page : ℕ → UInt8} (hne : args ≠ [])
    (hlen : args.length < 2 ^ 32) {P : (ℕ → UInt8) × ℕ → Prop}
    (h : Ensures (forRange (processStartRound order argv) args.length (page, 8 * args.length)) P) :
    Ensures (processStartData order (.ok page) (UInt32.ofNat args.length) argv) fun r =>
      ∃ page' n, r = .ok page' ∧ P (page', n) := by
  have hpos := List.length_pos_of_ne_nil hne
  have ha : (UInt32.ofNat args.length).toNat = args.length := UInt32.toNat_ofNat_of_lt' hlen
  have ha₀ : UInt32.ofNat args.length ≠ 0 := by
    intro hz
    rw [← UInt32.toNat_inj, UInt32.toNat_zero] at hz
    omega
  rw [processStartData, if_neg ha₀, ha]
  exact h.bind fun r hr => .ret ⟨r.1, r.2, rfl, hr⟩

theorem processStartData_spec (h : ArgsFit args) {argv : ℕ → ℕ → UInt8}
    (ha : ∀ i s, args[i]? = some s → StrAt (argv i) 0 s) (page : ℕ → UInt8) :
    Ensures (processStartData order (.ok page) (UInt32.ofNat args.length) argv) fun r =>
      ∃ page', r = .ok page' ∧ Packed order args args.length page' := by
  have hf := h.fit
  have hl : Ensures (forRange (processStartRound order argv) args.length
      (page, 8 * args.length)) fun r => Packed order args args.length r.1 ∧
        r.2 = argOffset args args.length := by
    refine Ensures.forRange (I := fun n (r : (ℕ → UInt8) × ℕ) =>
      Packed order args n r.1 ∧ r.2 = argOffset args n) ?_
      ⟨nofun, rfl⟩
    rintro i hi ⟨page, -⟩ ⟨hp, rfl⟩
    have hs : args[i]? = some args[i] := List.getElem?_eq_getElem hi
    exact processStartRound_spec h hs (ha i _ hs) hp
  refine (processStartData_of_loop h.nonempty (by omega) hl).mono ?_
  rintro _ ⟨page', n, rfl, hp, -⟩
  exact ⟨page', rfl, hp⟩

variable (order) in
theorem processStartData_writes (hne : args ≠ []) (hlen : args.length < 2 ^ 32)
    {argv : ℕ → ℕ → UInt8} (ha : ∀ i s, args[i]? = some s → StrAt (argv i) 0 s)
    (hmem : ∀ s ∈ args, s.length < memoryEnd) (page : ℕ → UInt8) :
    Ensures (processStartData order (.ok page) (UInt32.ofNat args.length) argv) fun r =>
      ∃ page', r = .ok page' ∧ page' (argOffset args args.length - 1) = 0 ∧
        ∀ k, argOffset args args.length ≤ k → page' k = page k := by
  have hl : Ensures (forRange (processStartRound order argv) args.length
      (page, 8 * args.length)) fun r => r.2 = argOffset args args.length ∧
        (0 < args.length → r.1 (argOffset args args.length - 1) = 0) ∧
        ∀ k, argOffset args args.length ≤ k → r.1 k = page k := by
    refine Ensures.forRange (I := fun n (r : (ℕ → UInt8) × ℕ) => r.2 = argOffset args n ∧
      (0 < n → r.1 (argOffset args n - 1) = 0) ∧
      ∀ k, argOffset args args.length ≤ k → r.1 k = page k) ?_ ⟨rfl, nofun, fun _ _ => rfl⟩
    rintro i hi ⟨page', -⟩ ⟨rfl, -, hf⟩
    have hs : args[i]? = some args[i] := List.getElem?_eq_getElem hi
    have hsc := argOffset_succ hi
    have hm := argOffset_mono (show i + 1 ≤ args.length from hi) le_rfl
    have hge : 8 * args.length ≤ argOffset args args.length := argOffset_ge
    rw [processStartRound]
    refine (startCopy_spec (ha i _ hs) (hmem _ (List.getElem_mem hi))).mono ?_
    rintro ⟨page'', -⟩ ⟨rfl, hstr, hf'⟩
    refine ⟨hsc.symm, fun _ => ?_, fun k hk => ?_⟩
    · rw [hsc]
      exact hstr.terminated
    · rw [hf' k (by omega), store_apply (by omega)]
      exact hf k hk
  refine (processStartData_of_loop hne hlen hl).mono ?_
  rintro _ ⟨page', n, rfl, -, hls, hf⟩
  exact ⟨page', rfl, hls (List.length_pos_of_ne_nil hne), hf⟩

/-- **`process_start_data` stays in its page**, whatever the memory holds, exactly if the table and
the strings fit. -/
theorem process_start_data_inside_iff (hne : args ≠ []) (hlen : args.length < 2 ^ 32)
    {argv : ℕ → ℕ → UInt8} (hargv : ∀ i s, args[i]? = some s → StrAt (argv i) 0 s)
    (hmem : ∀ s ∈ args, s.length < memoryEnd) :
    (∀ page, Ensures (processStartData order (.ok page) (UInt32.ofNat args.length) argv) fun r =>
      ∃ page', r = .ok page' ∧ ∀ k, 8192 ≤ k → page' k = page k) ↔
      8 * args.length + (args.map (·.length + 1)).sum ≤ 8192 := by
  rw [← argOffset_length]
  constructor
  · intro h
    by_contra ho
    -- the last byte that is written is not in the page
    obtain ⟨_, hrun, page', rfl, hf⟩ := h fun _ => 1
    obtain ⟨_, hrun', page'', rfl, hl, -⟩ :=
      processStartData_writes order hne hlen hargv hmem fun _ => 1
    cases hrun.symm.trans hrun'
    rw [hf _ (by omega)] at hl
    cases hl
  · intro hfit page
    refine (processStartData_writes order hne hlen hargv hmem page).mono ?_
    rintro _ ⟨page', rfl, -, hf⟩
    exact ⟨page', rfl, fun k hk => hf k (hfit.trans hk)⟩

def argvLs (i k : ℕ) : UInt8 :=
  (([[0x6c, 0x73], [0x61]] : List (List UInt8))[i]?.getD [])[k]?.getD 0

theorem strAt_argvLs (h : ([[0x6c, 0x73], [0x61]] : List (List UInt8))[i]? = some s) :
    StrAt (argvLs i) 0 s := by
  have hb : ∀ k, argvLs i (0 + k) = s[k]?.getD 0 := by
    intro k
    rw [argvLs, h, Option.getD_some, Nat.zero_add]
  refine ⟨fun k hk => ?_, fun hmem => ?_, ?_⟩
  · rw [byte_quiet, hb, List.getElem?_eq_getElem hk, Option.getD_some]
  · have := List.mem_of_getElem? h
    rcases List.mem_pair.mp this with rfl | rfl <;> exact absurd hmem (by decide)
  · rw [byte_quiet, hb, List.getElem?_eq_none (Nat.le_refl _), Option.getD_none]

/-- The two arguments fit. -/
theorem process_start_data_inside_iff_ls :
    Ensures (processStartData .big (.ok fun _ => 1) 2 argvLs) fun r =>
      ∃ page', r = .ok page' ∧ ∀ k, 8192 ≤ k → page' k = 1 :=
  (process_start_data_inside_iff (by decide) (by decide) (fun _ _ => strAt_argvLs)
    (by decide)).mpr (by decide) _

/-- **A byte behind the page is written**, for 1025 arguments that are empty. -/
theorem process_start_data_overruns :
    Ensures (processStartData .big (.ok fun _ => 1) 1025 fun _ _ => 0) fun r =>
      ∃ page', r = .ok page' ∧ page' 9224 = 0 := by
  have hw (n : ℕ) (hpos : 0 < n) (hn : n < 2 ^ 32) :
      Ensures (processStartData .big (.ok fun _ => 1) (UInt32.ofNat n) fun _ _ => 0) fun r =>
        ∃ page', r = .ok page' ∧ page' (9 * n - 1) = 0 := by
    have ha (i : ℕ) (s) (hs : (List.replicate n ([] : List UInt8))[i]? = some s) :
        StrAt (fun _ => 0) 0 s := by
      obtain rfl := List.eq_of_mem_replicate (List.mem_of_getElem? hs)
      exact str_nil.mpr rfl
    have h := processStartData_writes .big (by simp; omega) (by simpa) ha (by simp [memoryEnd])
      fun _ => 1
    rw [argOffset_length, List.length_replicate] at h
    refine h.mono ?_
    rintro _ ⟨page', rfl, hl, -⟩
    refine ⟨page', rfl, ?_⟩
    have hend : 8 * n + ((List.replicate n ([] : List UInt8)).map (·.length + 1)).sum = 9 * n := by
      simp
      omega
    rwa [hend] at hl
  exact hw 1025 (by decide) (by decide)

/-! ## The relocation -/

def Relocated (order : ByteOrder) (args : List (List UInt8)) (addr : UInt64) (n : ℕ)
    (page : ℕ → UInt8) : Prop :=
  ∀ j s, args[j]? = some s →
    load order page (8 * j) 8 = (if j < n then addr.toNat else 0) + argOffset args j ∧
      StrAt page (argOffset args j) s

theorem muMainRound_spec (h : ArgsFit args) {page : PageAddress} {buf : ℕ → UInt8}
    (hi : i < args.length) (hr : Relocated order args page.addr i buf) :
    Ensures (muMainRound order page.addr i buf) (Relocated order args page.addr (i + 1)) := by
  have hs : args[i]? = some args[i] := List.getElem?_eq_getElem hi
  have hlt := h.offset_lt hs
  have ha := page.aligned
  have had := page.addr.toNat_lt
  have hld := (hr i _ hs).1
  rw [if_neg i.lt_irrefl] at hld
  rw [muMainRound, if_neg (by omega)]
  refine .ret fun j s hj => ?_
  obtain ⟨hl, hstr⟩ := hr j s hj
  have hge : 8 * args.length ≤ argOffset args j := argOffset_ge
  refine ⟨?_, hstr.congr fun b hb => ?_⟩
  · rcases j.lt_trichotomy i with hji | rfl | hij
    · rw [load_store_of_disjoint (by omega), hl, if_pos hji, if_pos (by omega)]
    · rw [if_pos j.lt_succ_self, load_store (show _ % 2 ^ 64 < 256 ^ 8 by omega)]
      omega
    · rw [load_store_of_disjoint (by omega), hl, if_neg (by omega), if_neg (by omega)]
  · rw [byte_quiet, byte_quiet, store_apply (by omega)]

/-- **The arguments survive the hand-over**: wherever the page of the parent is mapped in the child,
the `argv` of the child has the strings of the parent, all of them in the page. -/
theorem exec_arguments_survive (h : ArgsFit args) {argv : ℕ → ℕ → UInt8}
    (hargv : ∀ i s, args[i]? = some s → StrAt (argv i) 0 s) (page : ℕ → UInt8) (env : RequestEnv)
    (task : UInt32) (wait : Bool) (addr : PageAddress) :
    Ensures (execMessage order env task wait (.ok page) (UInt32.ofNat args.length) argv) fun r =>
      ∃ m, r = .ok m ∧ Ensures (muMain order addr m) fun r => ∃ buf,
        r = .main (UInt32.ofNat args.length) buf ∧ ∀ i s, args[i]? = some s → ∃ o,
          load order buf (8 * i) 8 = addr.addr.toNat + o ∧ StrAt buf o s ∧ o + s.length < 8192 := by
  have hf := h.fit
  have ha : (UInt32.ofNat args.length).toNat = args.length :=
    UInt32.toNat_ofNat_of_lt' (show _ < 2 ^ 32 by omega)
  refine (processStartData_spec h hargv page).bind ?_
  rintro _ ⟨buf, rfl, hp⟩
  refine .ret ⟨_, rfl, ?_⟩
  rw [muMain, if_neg]
  · dsimp only
    rw [UInt32.toUInt32_toUInt64, ha]
    have hs : Relocated order args addr.addr 0 buf := by
      intro j s hjs
      obtain ⟨hj, -⟩ := List.getElem?_eq_some_iff.mp hjs
      rw [if_neg j.not_lt_zero, Nat.zero_add]
      exact hp j hj s hjs
    have hlp : Ensures (forRange (muMainRound order addr.addr) args.length buf)
        (Relocated order args addr.addr args.length) :=
      Ensures.forRange (fun i hi buf hb => muMainRound_spec h hi hb) hs
    refine hlp.bind fun buf' hr => ?_
    refine .ret ⟨buf', rfl, fun i s his => ?_⟩
    obtain ⟨hi, -⟩ := List.getElem?_eq_some_iff.mp his
    obtain ⟨hl, hstr⟩ := hr i s his
    rw [if_pos hi] at hl
    exact ⟨_, hl, hstr, h.offset_lt his⟩
  · cases wait with
    | false => exact fun hm => hm.1 rfl
    | true => exact fun hm => hm.2 rfl

/-- The two arguments, handed over in a page at the address `0x8000` of the child. -/
theorem exec_arguments_survive_ls :
    Ensures (execMessage .big ⟨5, 0, fun _ => 0⟩ 7 true (.ok fun _ => 0xff) 2 argvLs) fun r =>
      ∃ m, r = .ok m ∧ Ensures (muMain .big ⟨0x8000, by decide⟩ m) fun r => ∃ buf,
        r = .main 2 buf ∧ ∃ o, load .big buf 8 8 = 0x8000 + o ∧ StrAt buf o [0x61] := by
  refine (exec_arguments_survive ⟨by decide, by decide⟩ (fun _ _ => strAt_argvLs) (fun _ => 0xff)
    ⟨5, 0, fun _ => 0⟩ 7 true ⟨0x8000, by decide⟩).mono ?_
  rintro r ⟨m, hm, hmn⟩
  refine ⟨m, hm, hmn.mono ?_⟩
  rintro r ⟨buf, hr, hs⟩
  obtain ⟨o, hl, hs, -⟩ := hs 1 [0x61] rfl
  exact ⟨buf, hr, o, hl, hs⟩

end Glatt
