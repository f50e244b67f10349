import Glatt.Core.BTree
import Glatt.Core.String
import Glatt.Lib.Transition

/-!
# The commands of the debugger

`db_command.c`: the commands that the linker has collected are put into one tree by name for each
directory of commands, and the arguments of an input line are looked up from the current directory
on. A name stands for the command that it abbreviates, if it abbreviates one only.

## Main definitions

* `DbCommands`, `dbCommandInit`: the commands of the linker, and their trees
* `dbCommandLookup`, `DbStep`: a lookup, and an argument of an input line

## Main results

* `db_command_lookup_exact`: a name finds its command, or else the only one that it abbreviates
* `db_position_valid_iff`: the current directory is one below the root, unless the last argument has
  gone up from the root
-/

namespace Glatt

open Imperative BinaryTree LinkedTree Transition Function List

/-- A string in memory. -/
structure CString where
  bytes : List UInt8
  nonzero : 0 ∉ bytes
  fits : bytes.length < memoryEnd

namespace CString

variable (a b : CString)

def source : ByteSource Empty := .quiet (fun i => a.bytes.getD i 0) 0

theorem str : a.source.Str a.bytes where
  byte i hi := by simp [source, getElem?_eq_getElem hi, getD_eq_getElem?_getD]
  nonzero := a.nonzero
  terminated := by simp [source]

def compare : Outcome Int := (strcmp a.source b.source).outcome

theorem compare_spec : Ensures (a.compare b) fun d => d = 0 ↔ a.bytes = b.bytes :=
  strcmp_spec a.str b.str a.fits

end CString

/-- The commands `κ` and their directories `π`. A directory is what one command of type
`DB_COMMAND_TYPE_TREE` stands for; the function of any other command sees `db_command_return`. -/
structure DbCommands (κ π : Type) where
  root : π
  cName : κ → CString
  cParent : κ → π
  cTree : κ → Option π
  cVoidf : κ → Bool → Outcome Bool
  tree_inj : ∀ {c c' t}, cTree c = some t → cTree c' = some t → c = c'

variable {κ π : Type} (D : DbCommands κ π)

/-! ## The lookup -/

/-- One command of the walk of `db_command_lookup`, with `match` and `ambiguous`. -/
def dbCommandLookupRound (next : κ → Outcome (Option κ)) (name : CString) :
    Option κ × Option κ × Bool → Outcome ((Option κ × Option κ × Bool) ⊕ Option κ)
  | (none, found, ambiguous) => pure (.inr (if ambiguous then none else found))
  | (some cmd, found, ambiguous) => do
    let go (found : Option κ) (ambiguous : Bool) := do
      let cmd ← next cmd
      pure (.inl (cmd, found, ambiguous))
    let len ← (strlen name.source).outcome
    let cLen ← (strlen (D.cName cmd).source).outcome
    if len ≤ cLen then do
      let d ← name.compare (D.cName cmd)
      if d = 0 then pure (.inr (some cmd))
      else if len = cLen then go found ambiguous
      else do
        let d ← (strncmp name.source (D.cName cmd).source len).outcome
        if d = 0 then
          match found with
          | some _ => go found true
          | none => go (some cmd) ambiguous
        else go found ambiguous
    else go found ambiguous

def dbCommandLookup [DecidableEq κ] (tree : LinkedTree κ) (name : CString) :
    Outcome (Option κ) := do
  let cmd ← btreeMin tree
  loop (dbCommandLookupRound D (btreeNext tree) name) (tree.bound + 1) (cmd, none, false)

section Lookup

variable {D} {name : CString} (hne : name.bytes ≠ [])

def sole {α : Type} : List α → Option α
  | [x] => some x
  | _ => none

theorem sole_eq_some {l : List κ} {c : κ} (hn : l.Nodup) :
    sole l = some c ↔ c ∈ l ∧ ∀ c' ∈ l, c' = c := by
  match l with
  | [] => simp [sole]
  | [x] => simp [sole, eq_comm]
  | x :: y :: l =>
    refine iff_of_false nofun fun h => (nodup_cons.mp hn).1 ?_
    rw [h.2 x mem_cons_self, ← h.2 y (mem_cons_of_mem _ mem_cons_self)]
    exact mem_cons_self

include hne

theorem dbCommandLookupRound_eq {next : κ → Outcome (Option κ)} {cmd : κ} {o : Option κ}
    (hx : next cmd = .ok o) (ms : List κ) :
    dbCommandLookupRound D next name (some cmd, ms.head?, decide (1 < ms.length)) =
      .ok (if name.bytes = (D.cName cmd).bytes then .inr (some cmd) else
        let ms := if name.bytes <+: (D.cName cmd).bytes then ms ++ [cmd] else ms
        .inl (o, ms.head?, decide (1 < ms.length))) := by
  obtain ⟨d, hd, hd0⟩ := name.compare_spec (D.cName cmd)
  obtain ⟨k, hk, hk0⟩ := strncmp_spec name.str (D.cName cmd).str hne name.fits
  simp only [dbCommandLookupRound, strlen_spec name.str name.fits,
    strlen_spec (D.cName cmd).str (D.cName cmd).fits, hd, hk, hx, ok_bind]
  by_cases heq : name.bytes = (D.cName cmd).bytes
  · rw [if_pos (congrArg length heq).le, if_pos (hd0.mpr heq), if_pos heq]
    rfl
  rw [if_neg heq, if_neg (mt hd0.mp heq)]
  by_cases hp : name.bytes <+: (D.cName cmd).bytes
  · -- an abbreviation is shorter
    rw [if_pos hp, if_pos hp.length_le, if_neg fun h => heq (hp.eq_of_length h),
      if_pos (hk0.mpr hp)]
    cases ms with
    | nil => rfl
    | cons m ms => simp [pure, Except.pure]
  · rw [if_neg hp, if_neg (mt hk0.mp hp)]
    split_ifs <;> rfl

theorem dbCommandLookup_walk {next : κ → Outcome (Option κ)} {o : Option κ} {xs : List κ}
    (h : Visits next o xs) {n : ℕ} (hn : xs.length < n) (ms : List κ) :
    loop (dbCommandLookupRound D next name) n (o, ms.head?, decide (1 < ms.length)) =
      .ok ((xs.find? fun c => name.bytes = (D.cName c).bytes).or
        (sole (ms ++ xs.filter fun c => name.bytes <+: (D.cName c).bytes))) := by
  induction h generalizing n ms with
  | null =>
    obtain ⟨n, rfl⟩ := Nat.exists_eq_succ_of_ne_zero (Nat.ne_zero_of_lt hn)
    match ms with
    | [] | [m] | m :: m' :: ms => rfl
  | @node x o xs hx _ ih =>
    obtain ⟨n, rfl⟩ := Nat.exists_eq_succ_of_ne_zero (Nat.ne_zero_of_lt hn)
    rw [loop, dbCommandLookupRound_eq hne hx, ok_bind]
    by_cases heq : name.bytes = (D.cName x).bytes
    · rw [if_pos heq, find?_cons_of_pos (by simpa using heq)]
      rfl
    rw [if_neg heq, find?_cons_of_neg (by simpa using heq)]
    refine (ih (Nat.lt_of_succ_lt_succ hn) _).trans ?_
    by_cases hp : name.bytes <+: (D.cName x).bytes
    · rw [if_pos hp, filter_cons_of_pos (by simpa using hp), append_assoc, singleton_append]
    · rw [if_neg hp, filter_cons_of_neg (by simpa using hp)]

variable [DecidableEq κ]

theorem dbCommandLookup_eq {tree : LinkedTree κ} {T : BinaryTree κ} (h : Represents tree T) :
    dbCommandLookup D tree name =
      .ok ((T.inorder.find? fun c => name.bytes = (D.cName c).bytes).or
        (sole (T.inorder.filter fun c => name.bytes <+: (D.cName c).bytes))) := by
  rw [dbCommandLookup, btreeMin_eq h, ok_bind]
  refine dbCommandLookup_walk hne (visits_btreeNext h) ?_ []
  rw [length_inorder]
  exact Nat.lt_succ_of_le h.bound

end Lookup

/-! ## The trees of commands -/

/-- `ct_commands` and `ct_parent` of the directories. -/
structure DbTrees (κ π : Type) where
  ctCommands : π → LinkedTree κ
  ctParent : π → Option π

variable [DecidableEq κ] [DecidableEq π]

def dbCommandInsert (S : DbTrees κ π) (cmd : κ) : Outcome (DbTrees κ π) :=
  if D.cTree cmd = some D.root then pure S
  else do
    let less iter := ((D.cName cmd).compare (D.cName iter)).toOption.any (· < 0)
    let tree ← btreeInsert less cmd (S.ctCommands (D.cParent cmd))
    pure ⟨update S.ctCommands (D.cParent cmd) tree,
      fun t => if D.cTree cmd = some t then some (D.cParent cmd) else S.ctParent t⟩

def dbCommandInit (commands : List κ) : Outcome (DbTrees κ π) :=
  commands.foldlM (dbCommandInsert D) ⟨fun _ => empty, fun _ => none⟩

def DbCommands.Under (commands : List κ) (p : π) (c : κ) : Prop :=
  c ∈ commands ∧ D.cParent c = p ∧ D.cTree c ≠ some D.root

def DbCommands.Built (done : List κ) (p : π) (tree : LinkedTree κ) : Prop :=
  (∃ T, Represents tree T ∧ ∀ c, c ∈ T.inorder ↔ D.Under done p c) ∧
    ∀ c ∉ done, tree.left c = none ∧ tree.right c = none

/-- What the trees are after some of the commands. -/
structure DbTrees.Holds (S : DbTrees κ π) (done : List κ) : Prop where
  tree : ∀ p, D.Built done p (S.ctCommands p)
  parent : ∀ c ∈ done, ∀ t ≠ D.root, D.cTree c = some t → S.ctParent t = some (D.cParent c)
  root : S.ctParent D.root = none

variable {D} {S : DbTrees κ π} {commands done : List κ} {cmd : κ} {p : π}

section

omit [DecidableEq κ] [DecidableEq π]

theorem DbCommands.under_snoc {c : κ} : D.Under (done ++ [cmd]) p c ↔
    D.Under done p c ∨ c = cmd ∧ D.cParent cmd = p ∧ D.cTree cmd ≠ some D.root := by
  simp only [Under, mem_append, mem_singleton, or_and_right]
  refine or_congr_right (and_congr_right ?_)
  rintro rfl
  rfl

theorem DbCommands.Built.other {tree : LinkedTree κ} (h : D.Built done p tree)
    (hc : ¬ (D.cParent cmd = p ∧ D.cTree cmd ≠ some D.root)) : D.Built (done ++ [cmd]) p tree := by
  obtain ⟨⟨T, hT, hmem⟩, hun⟩ := h
  refine ⟨⟨T, hT, fun c => ?_⟩, fun c hc => hun c fun hm => hc (mem_append_left _ hm)⟩
  rw [hmem, under_snoc, or_iff_left fun h => hc h.2]

end

theorem dbCommandInsert_spec (h : S.Holds D done) (hc : cmd ∉ done) :
    Ensures (dbCommandInsert D S cmd) fun S' => S'.Holds D (done ++ [cmd]) := by
  have hmem' : ∀ c ∈ done ++ [cmd], c ≠ cmd → c ∈ done := fun c hm hne =>
    (mem_append.mp hm).resolve_right fun hm => hne (mem_singleton.mp hm)
  rw [dbCommandInsert]
  split_ifs with hrt
  · refine .ret ⟨fun p => (h.tree p).other fun hp => hp.2 hrt, fun c hm t ht htc => ?_, h.root⟩
    refine h.parent c (hmem' c hm ?_) t ht htc
    rintro rfl
    exact ht (Option.some.inj (htc.symm.trans hrt))
  obtain ⟨⟨T, hT, hmem⟩, hun⟩ := h.tree (D.cParent cmd)
  refine (btreeInsert_spec hT _ (fun hm => hc ((hmem cmd).mp hm).1) (hun _ hc).1
    (hun _ hc).2).bind ?_
  rintro tree ⟨hT', hf⟩
  refine .ret ⟨fun p => ?_, fun c hm t ht htc => ?_, (if_neg hrt).trans h.root⟩
  · dsimp only
    by_cases hp : p = D.cParent cmd
    · subst hp
      rw [update_self]
      refine ⟨⟨_, hT', fun c => ?_⟩, fun c hcd => ?_⟩
      · rw [mem_inorder_insert, hmem, DbCommands.under_snoc, or_comm]
        simp [hrt]
      · obtain ⟨hd, hne⟩ : c ∉ done ∧ c ≠ cmd := by simpa [not_or] using hcd
        obtain ⟨hl, hr, -⟩ := hf c (fun hm => hd ((hmem c).mp hm).1) hne
        rw [hl, hr]
        exact hun c hd
    · rw [update_of_ne hp]
      exact (h.tree p).other fun h => hp h.1.symm
  · dsimp only
    split_ifs with hct
    · -- the directory has no other command
      rw [D.tree_inj htc hct]
    · refine h.parent c (hmem' c hm ?_) t ht htc
      rintro rfl
      exact hct htc

theorem dbCommandInit_spec (hn : commands.Nodup) :
    Ensures (dbCommandInit D commands) fun S => S.Holds D commands := by
  refine Ensures.foldlM (I := fun done S => DbTrees.Holds D S done) hn ?_
    fun _ _ _ hc h => dbCommandInsert_spec h hc
  exact ⟨fun p => ⟨⟨.nil, ⟨rfl, nodup_nil, Nat.zero_le _⟩, fun c => by simp [DbCommands.Under]⟩,
    fun _ _ => ⟨rfl, rfl⟩⟩, nofun, rfl⟩

/-- **A lookup** finds the command of that name, or else the only one that the name abbreviates,
whatever the order of the commands. -/
theorem db_command_lookup_exact (hn : commands.Nodup)
    (hd : ∀ c ∈ commands, ∀ c' ∈ commands, D.cParent c = D.cParent c' →
      (D.cName c).bytes = (D.cName c').bytes → c = c')
    (p : π) {name : CString} (hne : name.bytes ≠ []) :
    ∃ S r, dbCommandInit D commands = .ok S ∧ dbCommandLookup D (S.ctCommands p) name = .ok r ∧
      (∀ c, D.Under commands p c → name.bytes = (D.cName c).bytes → r = some c) ∧
      ((∀ c, D.Under commands p c → name.bytes ≠ (D.cName c).bytes) → ∀ c, r = some c ↔
        D.Under commands p c ∧ name.bytes <+: (D.cName c).bytes ∧
          ∀ c', D.Under commands p c' → name.bytes <+: (D.cName c').bytes → c' = c) := by
  obtain ⟨S, hS, h⟩ := dbCommandInit_spec (D := D) hn
  obtain ⟨⟨T, hT, hmem⟩, -⟩ := h.tree p
  refine ⟨S, _, hS, dbCommandLookup_eq hne hT, fun c hc heq => ?_, fun hno c => ?_⟩
  · cases hf : T.inorder.find? fun c => name.bytes = (D.cName c).bytes with
    | none => exact absurd heq (by simpa using find?_eq_none.mp hf c ((hmem c).mpr hc))
    | some c' =>
      obtain ⟨hm, hp, -⟩ := (hmem c').mp (mem_of_find?_eq_some hf)
      have heq' : name.bytes = (D.cName c').bytes := by simpa using find?_some hf
      rw [hd c hc.1 c' hm (hc.2.1.trans hp.symm) (heq.symm.trans heq')]
      rfl
  · rw [find?_eq_none.mpr fun c hc => by simpa using hno c ((hmem c).mp hc), Option.none_or,
      sole_eq_some (hT.nodup.filter _)]
    simp only [mem_filter, hmem, decide_eq_true_eq, and_imp, and_assoc]

def nameB : CString := ⟨[98], by decide, by decide⟩

def twoCommands : DbCommands Bool Unit where
  root := ()
  cName c := if c then ⟨[98, 116], by decide, by decide⟩ else nameB
  cParent _ := ()
  cTree _ := none
  cVoidf _ ret := pure ret
  tree_inj := nofun

theorem db_command_lookup_exact_two : ∃ S, dbCommandInit twoCommands [false, true] = .ok S ∧
    dbCommandLookup twoCommands (S.ctCommands ()) nameB = .ok (some false) := by
  obtain ⟨S, r, hS, hr, hex, -⟩ := db_command_lookup_exact (D := twoCommands)
    (by decide : [false, true].Nodup) (by decide) () (by decide : nameB.bytes ≠ [])
  rw [hex false ⟨by decide, rfl, nofun⟩ rfl] at hr
  exact ⟨S, hS, hr⟩

/-! ## The position -/

/-- The directories below the root. -/
inductive DbCommands.Registered (D : DbCommands κ π) (commands : List κ) : π → Prop
  | root : D.Registered commands D.root
  | tree {c : κ} {t : π} : c ∈ commands → D.cTree c = some t → t ≠ D.root →
      D.Registered commands (D.cParent c) → D.Registered commands t

def CString.anyOf (a : CString) : List CString → Outcome Bool
  | [] => pure false
  | b :: bs => do
    let d ← a.compare b
    if d = 0 then pure true else a.anyOf bs

theorem CString.anyOf_eq (a : CString) (bs : List CString) :
    a.anyOf bs = .ok (bs.any fun b => a.bytes = b.bytes) := by
  induction bs with
  | nil => rfl
  | cons b bs ih =>
    obtain ⟨d, hd, hd0⟩ := a.compare_spec b
    rw [anyOf, hd, ok_bind, ih, any_cons]
    by_cases heq : a.bytes = b.bytes
    · rw [if_pos (hd0.mpr heq), decide_eq_true heq]
      rfl
    · rw [if_neg (mt hd0.mp heq), decide_eq_false heq]
      rfl

/-- The local variables of `db_command_enter`, with the arguments that are left of a line. -/
structure DbEnter (π : Type) where
  current : Option π
  old : Option π
  args : List CString
  dbCommandReturn : Bool

def dotDot : CString := ⟨[46, 46], by decide, by decide⟩

def listingNames : List CString :=
  [⟨[], by decide, by decide⟩, ⟨[46], by decide, by decide⟩, ⟨[63], by decide, by decide⟩,
    ⟨[104, 101, 108, 112], by decide, by decide⟩]

def star : CString := ⟨[42], by decide, by decide⟩

def dbCommandPath (D : DbCommands κ π) (S : DbTrees κ π) : ℕ → Option π → Outcome Unit
  | 0, _ => .error .spin
  | _ + 1, none => .error .fault
  | n + 1, some current =>
    if current = D.root then pure () else dbCommandPath D S n (S.ctParent current)

def dbCommand (D : DbCommands κ π) (ret : Bool) (cmd : κ) : Outcome Bool :=
  match D.cTree cmd with
  | some _ => pure ret
  | none => D.cVoidf cmd ret

/-- One argument of a line. A listing only prints, and all others use the current directory as
well. -/
def dbCommandArg (D : DbCommands κ π) (S : DbTrees κ π) (s : DbEnter π) (arg : CString)
    (args : List CString) : Outcome (DbEnter π) :=
  match s.current with
  | none => .error .fault
  | some current => do
    if ← arg.anyOf [dotDot] then pure { s with current := S.ctParent current, args := args }
    else if ← arg.anyOf listingNames then pure { s with args := args }
    else if ← arg.anyOf [star] then do
      let ret ← btreeForeach (dbCommand D) (S.ctCommands current) s.dbCommandReturn
      pure { s with args := args, dbCommandReturn := ret }
    else
      match ← dbCommandLookup D (S.ctCommands current) arg with
      | none => pure { s with current := s.old, args := [] }
      | some cmd =>
        match D.cTree cmd with
        | some t => pure { s with current := some t, args := args }
        | none => do
          let ret ← D.cVoidf cmd s.dbCommandReturn
          pure { s with args := args, dbCommandReturn := ret }

/-- **The steps of `db_command_enter`**: a line is read after the prompt, and its arguments are
taken one after the other. -/
inductive DbStep (D : DbCommands κ π) (S : DbTrees κ π) :
    DbEnter π → List CString → DbEnter π → Prop
  | line {s n args} : s.args = [] → s.dbCommandReturn = false →
      dbCommandPath D S n s.current = .ok () →
      DbStep D S s args { s with old := s.current, args := args }
  | arg {s arg args s'} : s.args = arg :: args → dbCommandArg D S s arg args = .ok s' →
      DbStep D S s [arg] s'

def DbEnter.start (D : DbCommands κ π) : DbEnter π := ⟨some D.root, some D.root, [], false⟩

def DbEnter.LeavesRoot (D : DbCommands κ π) (s : DbEnter π) : Prop :=
  s.current = some D.root ∧ ∃ arg ∈ s.args.head?, arg.bytes = dotDot.bytes

section Position

variable (h : S.Holds D commands)
include h

omit [DecidableEq κ] in
theorem DbCommands.Registered.path {t : π} (ht : D.Registered commands t) :
    ∃ n, dbCommandPath D S n (some t) = .ok () := by
  induction ht with
  | root => exact ⟨1, if_pos rfl⟩
  | tree hc hct hne _ ih =>
    obtain ⟨n, hn⟩ := ih
    exact ⟨n + 1, by rw [dbCommandPath, if_neg hne, h.parent _ hc _ hne hct, hn]⟩

/-- The positions that are kept are directories below the root. -/
structure DbEnter.Valid (D : DbCommands κ π) (commands : List κ) (s : DbEnter π) : Prop where
  current : ∃ t, s.current = some t ∧ D.Registered commands t
  old : ∃ t, s.old = some t ∧ D.Registered commands t

theorem DbStep.valid {s s' : DbEnter π} {a : List CString} (hv : s.Valid D commands)
    (hs : DbStep D S s a s') :
    s.LeavesRoot D ∧ s'.current = none ∨ ¬ s.LeavesRoot D ∧ s'.Valid D commands := by
  cases hs with
  | line ha =>
    refine .inr ⟨fun ⟨_, b, hb, _⟩ => ?_, hv.current, hv.current⟩
    rw [ha] at hb
    cases hb
  | @arg arg args _ ha harg =>
    obtain ⟨⟨t, hcur, ht⟩, hold⟩ := hv
    have hh : ∀ b ∈ s.args.head?, b = arg := fun b hb => by simpa [ha] using hb.symm
    simp only [dbCommandArg, hcur, CString.anyOf_eq, ok_bind] at harg
    by_cases hdot : arg.bytes = dotDot.bytes
    · rw [if_pos (by simpa using hdot)] at harg
      cases harg
      by_cases hrt : t = D.root
      · exact .inl ⟨⟨hrt ▸ hcur, arg, by simp [ha], hdot⟩, hrt ▸ h.root⟩
      · refine .inr ⟨fun hl => hrt (Option.some.inj (hcur.symm.trans hl.1)), ?_, hold⟩
        cases ht with
        | root => exact absurd rfl hrt
        | tree hc hct _ hp => exact ⟨_, h.parent _ hc _ hrt hct, hp⟩
    refine .inr ⟨fun ⟨_, b, hb, hd⟩ => hdot (hh b hb ▸ hd), ?_⟩
    rw [if_neg (by simpa using hdot)] at harg
    split_ifs at harg with hls hst
    · cases harg
      exact ⟨⟨t, rfl, ht⟩, hold⟩
    · obtain ⟨ret, -, hr⟩ := bind_eq_ok.mp harg
      cases hr
      exact ⟨⟨t, rfl, ht⟩, hold⟩
    have hne : arg.bytes ≠ [] := fun he => hls (by simp [listingNames, he])
    obtain ⟨⟨T, hT, hmem⟩, -⟩ := h.tree t
    rw [dbCommandLookup_eq hne hT, ok_bind] at harg
    cases hr : (T.inorder.find? fun c => arg.bytes = (D.cName c).bytes).or
        (sole (T.inorder.filter fun c => arg.bytes <+: (D.cName c).bytes)) with
    | none =>
      rw [hr] at harg
      cases harg
      exact ⟨hold, hold⟩
    | some cmd =>
      simp only [hr] at harg
      cases hct : D.cTree cmd with
      | none =>
        simp only [hct] at harg
        obtain ⟨ret, -, hr⟩ := bind_eq_ok.mp harg
        cases hr
        exact ⟨⟨t, rfl, ht⟩, hold⟩
      | some t' =>
        simp only [hct] at harg
        cases harg
        have hm : cmd ∈ T.inorder := by
          rcases Option.or_eq_some_iff.mp hr with hf | ⟨-, hf⟩
          · exact mem_of_find?_eq_some hf
          · exact mem_of_mem_filter ((sole_eq_some (hT.nodup.filter _)).mp hf).1
        obtain ⟨hc, rfl, hrt⟩ := (hmem cmd).mp hm
        exact ⟨⟨t', rfl, .tree hc hct (fun he => hrt (he ▸ hct)) ht⟩, hold⟩

theorem DbStep.run_valid {l : List (DbEnter π × List CString)} {s : DbEnter π}
    (hr : Run (DbStep D S) (.start D) l s) :
    s.Valid D commands ∧ (∀ e ∈ l.getLast?, ¬ e.1.LeavesRoot D) ∨
      s.current = none ∧ ∃ e ∈ l.getLast?, e.1.LeavesRoot D := by
  induction hr with
  | nil => exact .inl ⟨⟨⟨_, rfl, .root⟩, _, rfl, .root⟩, nofun⟩
  | snoc _ hs ih =>
    rcases ih with ⟨hv, -⟩ | ⟨hn, -⟩
    · simp only [getLast?_concat, Option.mem_some_iff, forall_eq', exists_eq_left']
      rcases DbStep.valid h hv hs with hs | hs
      · exact .inr hs.symm
      · exact .inl hs.symm
    · -- without a current directory there is no step
      cases hs with
      | @line n args _ _ hp =>
        rw [hn] at hp
        cases n <;> cases hp
      | arg _ ha =>
        rw [dbCommandArg, hn] at ha
        cases ha

end Position

/-- **The position is a directory below the root**, whose path ends, exactly after the runs whose
last step does not go up from the root. -/
theorem db_position_valid_iff (hn : commands.Nodup) {l : List (DbEnter π × List CString)}
    {s : DbEnter π} (hS : dbCommandInit D commands = .ok S)
    (hr : Run (DbStep D S) (.start D) l s) :
    (∃ t, s.current = some t ∧ D.Registered commands t ∧
      ∃ n, dbCommandPath D S n (some t) = .ok ()) ↔ ∀ e ∈ l.getLast?, ¬ e.1.LeavesRoot D := by
  have h : S.Holds D commands := (dbCommandInit_spec hn).yields S hS
  rcases DbStep.run_valid h hr with ⟨⟨⟨t, hc, ht⟩, -⟩, hl⟩ | ⟨hnn, e, he, hl⟩
  · exact iff_of_true ⟨t, hc, ht, ht.path h⟩ hl
  · refine iff_of_false (fun ⟨t, hc, _⟩ => ?_) fun hno => hno e he hl
    rw [hnn] at hc
    cases hc

def oneDirectory : DbCommands Bool Bool where
  root := false
  cName := twoCommands.cName
  cParent c := c
  cTree c := if c then none else some true
  cVoidf _ ret := pure ret
  tree_inj := by decide

/-- The lines `b` and `..`: into the directory, and back to the root. -/
theorem db_position_valid_iff_back : ∃ S l s, dbCommandInit oneDirectory [false, true] = .ok S ∧
    Run (DbStep oneDirectory S) (.start oneDirectory) l s ∧
      l.map (fun e => (e.1.current, e.2)) =
        [(some false, [nameB]), (some false, [nameB]), (some true, [dotDot]),
          (some true, [dotDot])] ∧
      ∃ t, s.current = some t ∧ oneDirectory.Registered [false, true] t ∧
        ∃ n, dbCommandPath oneDirectory S n (some t) = .ok () :=
  have hr := (((Run.nil.snoc (@DbStep.line _ _ _ _ _ _ _ 1 [nameB] rfl rfl rfl)).snoc
    (.arg rfl rfl)).snoc (@DbStep.line _ _ _ _ _ _ _ 2 [dotDot] rfl rfl rfl)).snoc
    (.arg rfl rfl)
  ⟨_, _, _, rfl, hr, rfl, (db_position_valid_iff (by decide) rfl hr).mpr fun _ he hl => by
    cases he
    cases hl.1⟩

/-- **The line `..` at the root**: the next prompt follows a null pointer. -/
theorem db_position_null : ∃ S l s, dbCommandInit twoCommands [false, true] = .ok S ∧
    Run (DbStep twoCommands S) (.start twoCommands) l s ∧ s.current = none ∧ s.args = [] ∧
      s.dbCommandReturn = false ∧
      ∀ n, dbCommandPath twoCommands S (n + 1) s.current = .error .fault :=
  ⟨_, _, _, rfl, (Run.nil.snoc (@DbStep.line _ _ _ _ _ _ _ 1 [dotDot] rfl rfl rfl)).snoc
    (.arg rfl rfl), rfl, rfl, rfl, fun _ => rfl⟩

end Glatt
