import Glatt.Core.String
import Glatt.Storage.Tarfs

/-!
# Paths of an archive

`tarfs_split_path` and `tarfs_lookup_match` of `io/storage/tarfs/tarfs_mount.c`. A path is copied
into the buffer of a `struct tarfs_path` and taken apart there: every slash behind a component is
overwritten with a NUL byte, and the places of the components are noted down.

## Main definitions

* `TarfsPath`, `tarfsSplitPath`, `tarfsLookupMatch`: the structure and the functions
* `pathComponents`: the components of a path

## Main results

* `tarfs_split_path_exact`: a path is split up exactly if it fits into the buffer
-/

namespace Glatt

open Imperative Traced Buffer Function List

variable {ε : Type}

/-! ## The functions -/

/-- `struct tarfs_path`: the buffer, and the places of the components in it. -/
structure TarfsPath where
  tpPath : ℕ → UInt8
  tpNames : List ℕ

/-- `tp->tp_names[tp->tp_namecnt++] = p`; the array has room for 50 components. -/
def TarfsPath.push (tp : TarfsPath) (p : ℕ) : Traced ε TarfsPath :=
  if tp.tpNames.length < 50 then pure { tp with tpNames := tp.tpNames ++ [p] } else halt .fault

def dotName (i : ℕ) : UInt8 := if i = 0 then 0x2e else 0

def TarfsPath.note (tp : TarfsPath) (p : ℕ) : Traced ε TarfsPath := do
  let dot ← strcmp (.quiet tp.tpPath p) (.quiet dotName 0)
  if dot ≠ 0 then tp.push p else pure tp

def tarfsSlashRound (path : ℕ → UInt8) (p : ℕ) : Traced ε (ℕ ⊕ ℕ) :=
  if path p = 0x2f then pure (.inl (p + 1)) else pure (.inr p)

def tarfsSkipSlashes (path : ℕ → UInt8) (p : ℕ) : Traced ε ℕ :=
  loop (tarfsSlashRound path) memoryEnd p

def tarfsSplitRound : TarfsPath × ℕ → Traced ε ((TarfsPath × ℕ) ⊕ TarfsPath)
  | (tp, p) =>
    if tp.tpPath p = 0 then pure (.inr tp)
    else do
      let p ← tarfsSkipSlashes tp.tpPath p
      if tp.tpPath p = 0 then pure (.inr tp)
      else do
        let q ← strchr (.quiet tp.tpPath p) 0x2f
        let tp := match q with
          | none => tp
          | some k => { tp with tpPath := update tp.tpPath (p + k) 0 }
        let tp ← tp.note p
        match q with
        | none => pure (.inr tp)
        | some k => pure (.inl (tp, p + k + 1))

def tarfsSplitPath (tp : TarfsPath) (path : ByteSource ε) :
    Traced ε (TarfsPath × Except Errno Unit) := do
  let (buf, n) ← Cstr.strlcpy tp.tpPath path 100
  let tp := { tp with tpPath := buf }
  if 100 ≤ n then pure (tp, .error .invalid)
  else do
    let tp ← loop tarfsSplitRound memoryEnd ({ tp with tpNames := [] }, 0)
    pure (tp, .ok ())

def tarfsMatchNames (path path' : ℕ → UInt8) : List (ℕ × ℕ) → Traced ε Bool
  | [] => pure true
  | (p, p') :: names => do
    let d ← strcmp (.quiet path p) (.quiet path' p')
    if d ≠ 0 then pure false else tarfsMatchNames path path' names

/-- `tarfs_lookup_match`: whether a name has the components of a path, or one more for the
`children` of a directory. The name is split up in the buffer of the mount. -/
def tarfsLookupMatch (tmMatch fPath : TarfsPath) (name : ByteSource ε) (children : Bool) :
    Traced ε (TarfsPath × Bool) := do
  let (tmMatch, r) ← tarfsSplitPath tmMatch name
  match r with
  | .error _ => pure (tmMatch, false)
  | .ok () =>
    if (if children then
        tmMatch.tpNames.length = 0 ∨ tmMatch.tpNames.length - 1 ≠ fPath.tpNames.length
      else tmMatch.tpNames.length ≠ fPath.tpNames.length) then pure (tmMatch, false)
    else do
      let b ← tarfsMatchNames tmMatch.tpPath fPath.tpPath (tmMatch.tpNames.zip fPath.tpNames)
      pure (tmMatch, b)

/-! ## Components -/

def IsName (c : List UInt8) : Prop := c ≠ [] ∧ c ≠ [0x2e]

instance : DecidablePred IsName := fun _ => inferInstanceAs (Decidable (_ ∧ _))

/-- **The components of a path**: what is between slashes, without empty components and `"."`. -/
def pathComponents (s : List UInt8) : List (List UInt8) := (s.splitOn 0x2f).filter IsName

theorem pathComponents_append_slash {c t : List UInt8} (hc : 0x2f ∉ c) :
    pathComponents (c ++ 0x2f :: t) = [c].filter IsName ++ pathComponents t := by
  rw [pathComponents, splitOn_append_cons_self_of_not_mem hc]
  exact filter_append [c] _

theorem pathComponents_last {c : List UInt8} (hc : 0x2f ∉ c) :
    pathComponents c = [c].filter IsName := by
  rw [pathComponents, splitOn_eq_singleton hc]

theorem pathComponents_nil : pathComponents [] = [] := pathComponents_last not_mem_nil

/-- The strings at the places in a buffer, all of which end before the place `p`. -/
def NamesBefore (p : ℕ) (path : ℕ → UInt8) (names : List ℕ) (cs : List (List UInt8)) : Prop :=
  List.Forall₂ (fun q c => StrAt path q c ∧ q + c.length < p) names cs

/-- **The strings that are noted down** in a `struct tarfs_path`, all inside its buffer. -/
def TarfsPath.Has (tp : TarfsPath) (cs : List (List UInt8)) : Prop :=
  NamesBefore 100 tp.tpPath tp.tpNames cs

namespace NamesBefore

variable {p p' q i : ℕ} {path : ℕ → UInt8} {names : List ℕ} {cs : List (List UInt8)}

theorem mono (h : NamesBefore p path names cs) (hp : p ≤ p') : NamesBefore p' path names cs :=
  h.imp fun _ _ hc => ⟨hc.1, Nat.lt_of_lt_of_le hc.2 hp⟩

theorem update {b : UInt8} (h : NamesBefore p path names cs) (hi : p ≤ i) :
    NamesBefore p (update path i b) names cs :=
  h.imp fun _ _ hc => ⟨hc.1.update (Nat.lt_of_lt_of_le hc.2 hi), hc.2⟩

theorem snoc {c : List UInt8} (h : NamesBefore p path names cs) (hc : StrAt path q c)
    (hq : q + c.length < p) : NamesBefore p path (names ++ [q]) (cs ++ [c]) :=
  rel_append h (.cons ⟨hc, hq⟩ .nil)

end NamesBefore

/-! ## Splitting a path -/

variable {path : ℕ → UInt8} {p : ℕ} {s rest c : List UInt8} {tp : TarfsPath}
  {cs : List (List UInt8)}

theorem strAt_dotName : StrAt dotName 0 [0x2e] := by
  refine ⟨fun i hi => ?_, by decide, rfl⟩
  obtain rfl : i = 0 := Nat.lt_one_iff.mp hi
  rfl

theorem tarfsSkipSlashes_spec (h : StrAt path p rest) (hmem : rest.length < memoryEnd) :
    Ensures (tarfsSkipSlashes path p : Traced ε ℕ).outcome fun p' => ∃ rest',
      StrAt path p' rest' ∧ p ≤ p' ∧ p' + rest'.length = p + rest.length ∧
        pathComponents rest' = pathComponents rest ∧ rest'.head? ≠ some 0x2f := by
  rw [tarfsSkipSlashes, outcome_loop]
  refine Ensures.loop (I := fun n p' => ∃ rest', StrAt path p' rest' ∧ p ≤ p' ∧
    p' + rest'.length = p + rest.length ∧ pathComponents rest' = pathComponents rest ∧
    n = rest'.length) ?_ ⟨rest, h, Nat.le_refl _, rfl, rfl, rfl⟩ hmem
  rintro _ p' ⟨rest', hs, hp, hlen, hc, rfl⟩
  rw [tarfsSlashRound]
  cases rest' with
  | nil =>
    rw [if_neg (by rw [ByteSource.str_nil.mp hs]; decide)]
    exact .ret ⟨[], hs, hp, hlen, hc, by decide⟩
  | cons b rest' =>
    rw [hs.head]
    by_cases hb : b = 0x2f
    · subst hb
      rw [length_cons] at hlen
      exact .ret ⟨rest'.length, Nat.lt_succ_self _, rest',
        ByteSource.Str.append (s := [_]) hs, by omega, by omega, hc, rfl⟩
    · rw [if_neg hb]
      refine .ret ⟨b :: rest', hs, hp, hlen, hc, fun he => hb ?_⟩
      exact Option.some.inj he

theorem TarfsPath.note_spec (hc : StrAt tp.tpPath p c) (hne : c ≠ [])
    (hn : NamesBefore p tp.tpPath tp.tpNames cs) (hr : 2 * tp.tpNames.length ≤ p)
    (hp : p + c.length < 100) :
    Ensures (tp.note p : Traced ε TarfsPath).outcome fun tp' => tp'.tpPath = tp.tpPath ∧
      NamesBefore (p + c.length + 1) tp'.tpPath tp'.tpNames (cs ++ [c].filter IsName) ∧
      tp'.tpNames.length ≤ tp.tpNames.length + 1 := by
  have hb : NamesBefore (p + c.length + 1) tp.tpPath tp.tpNames cs := hn.mono (by omega)
  rw [note, outcome_bind_eq]
  refine (strcmp_spec hc.str strAt_dotName.str (by rw [memoryEnd]; omega)).bind fun d hd => ?_
  by_cases hdot : d = 0
  · have hdr : [c].filter IsName = [] :=
      filter_cons_of_neg fun hnm => (of_decide_eq_true hnm).2 (hd.mp hdot)
    rw [if_neg (not_not.mpr hdot), hdr, append_nil]
    exact .ret ⟨rfl, hb, Nat.le_succ _⟩
  · have hk : [c].filter IsName = [c] :=
      filter_cons_of_pos (decide_eq_true ⟨hne, fun h => hdot (hd.mpr h)⟩)
    rw [if_pos hdot, hk, push, if_pos (by omega)]
    refine .ret ⟨rfl, hb.snoc hc (Nat.lt_succ_self _), ?_⟩
    exact Nat.le_of_eq (length_append ..)

/-- What the loop over the components keeps: the components so far and those of the rest are those
of the path. -/
def Splitting (s : List UInt8) (n : ℕ) : TarfsPath × ℕ → Prop
  | (tp, p) => ∃ rest cs, StrAt tp.tpPath p rest ∧ NamesBefore p tp.tpPath tp.tpNames cs ∧
      cs ++ pathComponents rest = pathComponents s ∧ 2 * tp.tpNames.length ≤ p ∧
      p + rest.length < 100 ∧ n = rest.length

theorem tarfsSplitRound_spec {n : ℕ} {st : TarfsPath × ℕ} (h : Splitting s n st) :
    Ensures (tarfsSplitRound st : Traced ε _).outcome
      (Sum.elim (fun st' => ∃ m < n, Splitting s m st') fun tp => tp.Has (pathComponents s)) := by
  obtain ⟨tp, p⟩ := st
  obtain ⟨rest, cs, hstr, hn, hcm, hr, hlen, rfl⟩ := h
  have hmem : rest.length < memoryEnd := by rw [memoryEnd]; omega
  rw [tarfsSplitRound]
  by_cases hz : tp.tpPath p = 0
  · -- the end of the path
    rw [if_pos hz]
    obtain rfl := hstr.unique (ByteSource.str_nil.mpr hz)
    rw [pathComponents_nil, append_nil] at hcm
    exact .ret (hcm ▸ hn.mono (by omega))
  rw [if_neg hz, outcome_bind_eq]
  refine (tarfsSkipSlashes_spec hstr hmem).bind ?_
  rintro p' ⟨rest', hstr', hp, hlen', hcm', hh⟩
  rw [← hcm'] at hcm
  have hmem' : rest'.length < memoryEnd := by rw [memoryEnd]; omega
  have hn' := hn.mono hp
  by_cases hz' : tp.tpPath p' = 0
  · -- slashes at the end
    rw [if_pos hz']
    obtain rfl := hstr'.unique (ByteSource.str_nil.mpr hz')
    rw [pathComponents_nil, append_nil] at hcm
    exact .ret (hcm ▸ hn.mono (by omega))
  rw [if_neg hz', outcome_bind_eq]
  by_cases hs : 0x2f ∈ rest'
  · -- a component in front of a slash
    obtain ⟨c, t, rfl, hc⟩ := eq_append_cons_of_mem hs
    have hne : c ≠ [] := by
      rintro rfl
      exact hh rfl
    rw [length_append, length_cons] at hlen'
    rw [strchr_found hstr'.str hc (by omega), ok_bind, outcome_bind_eq]
    have ht : StrAt tp.tpPath (p' + c.length + 1) t := ByteSource.Str.append (s := [_]) hstr'.append
    have hcut : StrAt (update tp.tpPath (p' + c.length) 0) p' c := hstr'.cut
    have hn'' : NamesBefore p' (update tp.tpPath (p' + c.length) 0) tp.tpNames cs :=
      hn'.update (Nat.le_add_right _ _)
    refine (@TarfsPath.note_spec _ p' c ⟨_, tp.tpNames⟩ cs hcut hne hn'' (by dsimp only; omega)
      (by omega)).bind ?_
    rintro tp' ⟨hpt, hb, hcn⟩
    have hpos : 0 < c.length := length_pos_of_ne_nil hne
    refine .ret ⟨t.length, by omega, t, _, ?_, hb, ?_, ?_, by omega, rfl⟩
    · rw [hpt]
      exact ht.congr fun i _ => update_of_ne (by omega) ..
    · rw [append_assoc, ← pathComponents_append_slash hc, hcm]
    · dsimp only at hcn
      omega
  · -- the last component
    have hne : rest' ≠ [] := by
      rintro rfl
      exact hz' (ByteSource.str_nil.mp hstr')
    rw [strchr_absent hstr'.str hs hmem', ok_bind, outcome_bind_eq]
    refine (TarfsPath.note_spec hstr' hne hn' (by omega) (by omega)).bind ?_
    rintro tp' ⟨-, hb, -⟩
    rw [pathComponents_last hs] at hcm
    exact .ret (hcm ▸ hb.mono (by omega))

theorem tarfsSplitPath_spec {src : ByteSource ε} (h : src.Str s) (hmem : s.length < memoryEnd) :
    Ensures (tarfsSplitPath tp src).outcome fun r =>
      s.length < 100 ∧ r.2 = .ok () ∧ r.1.Has (pathComponents s) ∨
        100 ≤ s.length ∧ r.2 = .error .invalid := by
  rw [tarfsSplitPath, outcome_bind_eq]
  refine (strlcpy_spec h (by decide) hmem).bind ?_
  rintro ⟨buf, n⟩ ⟨rfl, hc, -⟩
  dsimp only
  by_cases hlen : s.length < 100
  · rw [if_neg (Nat.not_le.mpr hlen)]
    rw [take_of_length_le (by omega)] at hc
    rw [outcome_bind_eq, outcome_loop]
    refine Ensures.bind (Ensures.loop (fun n st => tarfsSplitRound_spec)
      ⟨s, [], hc.strAt, .nil, rfl, Nat.zero_le _, by omega, rfl⟩ hmem) fun tp' ht => ?_
    exact .ret (Or.inl ⟨hlen, rfl, ht⟩)
  · rw [if_pos (Nat.not_lt.mp hlen)]
    exact .ret (Or.inr ⟨Nat.not_lt.mp hlen, rfl⟩)

/-- **A path is split up exactly if it fits into the buffer.** What is noted down are then its
components, in order, and the array has room for all of them: a write behind its end would be a
fault. -/
theorem tarfs_split_path_exact {src : ByteSource ε} (h : src.Str s) (hmem : s.length < memoryEnd)
    (tp : TarfsPath) :
    Ensures (tarfsSplitPath tp src).outcome fun r =>
      (r.2 = .error .invalid ↔ 100 ≤ s.length) ∧
        (s.length < 100 → r.2 = .ok () ∧ r.1.Has (pathComponents s)) := by
  refine (tarfsSplitPath_spec h hmem).mono ?_
  rintro ⟨tp', r⟩ (⟨hlen, rfl, ht⟩ | ⟨hlen, rfl⟩)
  · exact ⟨⟨nofun, fun hl => absurd hlen (Nat.not_lt.mpr hl)⟩, fun _ => ⟨rfl, ht⟩⟩
  · exact ⟨⟨fun _ => hlen, fun _ => rfl⟩, fun hs => absurd hs (Nat.not_lt.mpr hlen)⟩

def pathOfTwo (i : ℕ) : UInt8 := [0x2f, 0x61, 0x62, 0x2f, 0x2e, 0x2f, 0x63].getD i 0

theorem strAt_pathOfTwo : StrAt pathOfTwo 0 [0x2f, 0x61, 0x62, 0x2f, 0x2e, 0x2f, 0x63] := by
  refine ⟨fun i hi => ?_, by decide, rfl⟩
  show _ = some (pathOfTwo (0 + i))
  rw [Nat.zero_add, pathOfTwo, getD_eq_getElem _ _ hi, getElem?_eq_getElem hi]

/-- The path `/ab/./c` has two components. -/
theorem tarfs_split_path_exact_two :
    Ensures (tarfsSplitPath (ε := Empty) ⟨fun _ => 0, []⟩ (.quiet pathOfTwo 0)).outcome
      fun r => r.2 = .ok () ∧ r.1.Has [[0x61, 0x62], [0x63]] :=
  (tarfs_split_path_exact strAt_pathOfTwo.str (by decide) ⟨fun _ => 0, []⟩).mono
    fun _ hr => hr.2 (by decide)

/-! ## Matching two paths -/

theorem tarfsMatchNames_spec {path path' : ℕ → UInt8} {names names' : List ℕ}
    {cs cs' : List (List UInt8)} (h : NamesBefore 100 path names cs)
    (h' : NamesBefore 100 path' names' cs') (hlen : names.length = names'.length) :
    Ensures (tarfsMatchNames path path' (names.zip names') : Traced ε Bool).outcome
      fun b => b = true ↔ cs = cs' := by
  induction h generalizing names' cs' with
  | nil =>
    obtain rfl : names' = [] := eq_nil_of_length_eq_zero hlen.symm
    cases h'
    exact .ret ⟨fun _ => rfl, fun _ => rfl⟩
  | @cons q c names cs hc hcs ih =>
    cases h' with
    | nil => cases hlen
    | @cons q' c' names' cs' hc' hcs' =>
      rw [zip_cons_cons, tarfsMatchNames, outcome_bind_eq]
      have hmem : c.length < memoryEnd := by rw [memoryEnd]; omega
      refine (strcmp_spec hc.1.str hc'.1.str hmem).bind fun d hd => ?_
      by_cases hz : d = 0
      · obtain rfl := hd.mp hz
        rw [if_neg (not_not.mpr hz)]
        refine (ih hcs' (Nat.succ.inj hlen)).mono fun b hb => ?_
        exact hb.trans (cons_inj_right c).symm
      · rw [if_pos hz]
        refine .ret ⟨(fun h => by cases h), fun h => absurd ?_ hz⟩
        exact hd.mpr (cons.inj h).1

theorem tarfsLookupMatch_spec {src : ByteSource ε} {tmMatch fPath : TarfsPath} (h : src.Str s)
    (hmem : s.length < memoryEnd) (hp : fPath.Has cs) :
    Ensures (tarfsLookupMatch tmMatch fPath src false).outcome fun r =>
      r.2 = true ↔ s.length < 100 ∧ pathComponents s = cs := by
  rw [tarfsLookupMatch, outcome_bind_eq]
  refine (tarfsSplitPath_spec h hmem).bind ?_
  rintro ⟨tp, r⟩ hs
  rcases hs with ⟨hlen, rfl, ht⟩ | ⟨hlen, rfl⟩
  · dsimp only
    by_cases hc : tp.tpNames.length = fPath.tpNames.length
    · rw [if_neg (by simpa using hc), outcome_bind_eq]
      refine (tarfsMatchNames_spec ht hp hc).bind fun b hb => ?_
      exact .ret (hb.trans ⟨fun h => ⟨hlen, h⟩, fun h => h.2⟩)
    · rw [if_pos (by simpa using hc)]
      refine .ret ⟨nofun, fun h => absurd ?_ hc⟩
      rw [ht.length_eq, hp.length_eq, h.2]
  · exact .ret ⟨nofun, fun h => absurd h.1 (Nat.not_lt.mpr hlen)⟩

end Glatt
