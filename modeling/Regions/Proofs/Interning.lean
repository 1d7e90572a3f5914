import Mathlib
import Regions.Interner

/-!
# Interning from many sides

Callers share one table of strings. A call is two steps, a look-up and, for a string that was not
found, an addition; steps of other callers may come between the two. Whatever their order, a string
gets one number and a number belongs to one string.

* `Interner.Consistent`: the two halves of a table agree;
* `Interner.Session`, `Session.step`, `Session.run`: a table with callers that take turns;
* `Session.Sound`: what every step keeps;
* `Session.answers_of_run`: the answers that callers get, and what they mean ever after.
-/

namespace Regions
namespace Interner

variable {interner : Interner} {string other : String} {index : UInt32}

/-- No string is there twice, and the strings that are found are those that are there, each at its
position. -/
structure Consistent (interner : Interner) : Prop where
  nodup : interner.values.toList.Nodup
  position : ∀ string n,
    interner.values[n]? = some string ↔ (interner.indices[string]?).map UInt32.toNat = some n

theorem Consistent.get?_iff (hinterner : interner.Consistent) :
    interner.get? index = some string ↔ interner.indexOf? string = some index := by
  rw [get?, hinterner.position, Option.map_eq_some_iff, indexOf?]
  simp [UInt32.toNat_inj]

theorem Consistent.not_mem_values (hinterner : interner.Consistent)
    (habsent : interner.indexOf? string = none) : string ∉ interner.values := by
  intro hmem
  obtain ⟨n, hn⟩ := Array.mem_iff_getElem?.1 hmem
  rw [hinterner.position] at hn
  rw [indexOf?] at habsent
  simp [habsent] at hn

/-! ## Adding a string -/

theorem add_of_eq_some (hfound : interner.indexOf? string = some index) :
    interner.add string = (index, interner) := by
  rw [add, hfound]

theorem add_of_eq_none (habsent : interner.indexOf? string = none) :
    interner.add string = (interner.values.size.toUInt32, ⟨interner.values.push string,
        interner.indices.insert string interner.values.size.toUInt32⟩) := by
  rw [add, habsent]

theorem indexOf?_add_self (interner : Interner) (string : String) :
    (interner.add string).2.indexOf? string = some (interner.add string).1 := by
  cases hlook : interner.indexOf? string with
  | some index => rw [add_of_eq_some hlook, hlook]
  | none =>
    rw [add_of_eq_none hlook]
    exact Std.ExtTreeMap.getElem?_insert_self

theorem indexOf?_add_of_ne (hne : string ≠ other) :
    (interner.add string).2.indexOf? other = interner.indexOf? other := by
  cases hlook : interner.indexOf? string with
  | some index => rw [add_of_eq_some hlook]
  | none =>
    rw [add_of_eq_none hlook]
    exact Std.ExtTreeMap.getElem?_insert.trans (if_neg (by simpa using hne))

/-- An addition changes the number of no string that is there. -/
theorem indexOf?_add (hfound : interner.indexOf? other = some index) (string : String) :
    (interner.add string).2.indexOf? other = some index := by
  by_cases heq : string = other
  · subst heq
    rwa [add_of_eq_some hfound]
  · rwa [indexOf?_add_of_ne heq]

theorem mem_values_add (hmem : other ∈ (interner.add string).2.values) :
    other ∈ interner.values ∨ other = string := by
  cases hlook : interner.indexOf? string with
  | some index =>
    rw [add_of_eq_some hlook] at hmem
    exact .inl hmem
  | none =>
    rw [add_of_eq_none hlook] at hmem
    exact Array.mem_push.1 hmem

/-- While there is a number left, a new string keeps the two halves together. -/
theorem Consistent.add_new (hinterner : interner.Consistent)
    (habsent : interner.indexOf? string = none) (hroom : interner.values.size < 2 ^ 32) :
    (interner.add string).2.Consistent := by
  have hnew : string ∉ interner.values := hinterner.not_mem_values habsent
  have hsize : interner.values.size.toUInt32.toNat = interner.values.size := by
    rw [Nat.toUInt32_eq, UInt32.toNat_ofNat_of_lt' hroom]
  constructor
  · rw [add_of_eq_none habsent, Array.toList_push]
    refine List.nodup_append.2 ⟨hinterner.nodup, List.nodup_singleton string, ?_⟩
    rintro value hvalue _ hlast rfl
    rw [List.mem_singleton.1 hlast, Array.mem_toList_iff] at hvalue
    exact hnew hvalue
  · intro other n
    have hvalues : (interner.add string).2.values[n]? =
        if n = interner.values.size then some string else interner.values[n]? := by
      rw [add_of_eq_none habsent, Array.getElem?_push]
    change _ ↔ ((interner.add string).2.indexOf? other).map UInt32.toNat = some n
    rw [hvalues]
    by_cases heq : string = other
    · subst heq
      have hold : interner.values[n]? ≠ some string := fun h => hnew (Array.mem_of_getElem? h)
      rw [indexOf?_add_self, add_of_eq_none habsent, Option.map_some, hsize]
      split
      · rename_i hn
        rw [hn]
        exact iff_of_true rfl rfl
      · rename_i hn
        exact iff_of_false hold (by simpa using Ne.symm hn)
    · -- the new string is the last one, and all others are where they were
      have hlast : interner.values[interner.values.size]? ≠ some other := by simp
      rw [indexOf?_add_of_ne heq, indexOf?, ← hinterner.position]
      split
      · rename_i hn
        exact iff_of_false (by simpa using heq) (hn ▸ hlast)
      · rfl

theorem Consistent.add (hinterner : interner.Consistent)
    (hroom : interner.indexOf? string = none → interner.values.size < 2 ^ 32) :
    (interner.add string).2.Consistent := by
  cases hlook : interner.indexOf? string with
  | some index => rwa [add_of_eq_some hlook]
  | none => exact hinterner.add_new hlook (hroom hlook)

/-! ## Callers that take turns -/

/-- What a caller can do next: look up a string that it wants the number of, or add the one that it
has looked up in vain. -/
inductive Action
  | look (string : String)
  | add
  deriving DecidableEq, Repr

/-- A table that callers share. -/
structure Session (Caller : Type) where
  table : Interner
  /-- The string that a caller has not found and is about to add. -/
  waiting : Caller → Option String
  /-- Which caller got which number for which string, the last answer first. -/
  answers : List (Caller × String × UInt32)

namespace Session

variable {Caller : Type} {session later : Session Caller} {caller : Caller} {action : Action}
  {steps : List (Caller × Action)} {strings : Finset String}

/-- An empty table, and no call under way. -/
def start : Session Caller := ⟨Interner.empty, fun _ => none, []⟩

/-- The table is consistent and holds strings of a given set; callers are about to add only such
strings, and were given the numbers that the table has. -/
structure Sound (strings : Finset String) (session : Session Caller) : Prop where
  consistent : session.table.Consistent
  values : ∀ string ∈ session.table.values, string ∈ strings
  waiting : ∀ caller string, session.waiting caller = some string → string ∈ strings
  answers : ∀ caller string index, (caller, string, index) ∈ session.answers →
    session.table.indexOf? string = some index

theorem sound_start : (start : Session Caller).Sound strings := by
  refine ⟨⟨List.nodup_nil, by simp [start, Interner.empty]⟩, ?_, ?_, ?_⟩ <;>
    simp [start, Interner.empty]

/-- A table of strings from a small set has a number left for each that is not there. -/
theorem Sound.size_lt (hsession : session.Sound strings) (hfew : strings.card ≤ 2 ^ 32)
    {string : String} (hmem : string ∈ strings) (habsent : session.table.indexOf? string = none) :
    session.table.values.size < 2 ^ 32 := by
  have hsub : session.table.values.toList.toFinset ⊂ strings := by
    refine (Finset.ssubset_iff_of_subset ?_).2 ⟨string, hmem, ?_⟩
    · intro value hvalue
      simp only [List.mem_toFinset, Array.mem_toList_iff] at hvalue
      exact hsession.values value hvalue
    · simpa using hsession.consistent.not_mem_values habsent
  have hcard := Finset.card_lt_card hsub
  rw [List.toFinset_card_of_nodup hsession.consistent.nodup, Array.length_toList] at hcard
  omega

variable [DecidableEq Caller]

/-- One step of one caller. A look-up that succeeds ends the call, and so does an addition, which
looks again under the lock. A caller makes one call at a time. -/
def step (session : Session Caller) (caller : Caller) : Action → Option (Session Caller)
  | .look string =>
    match session.waiting caller, session.table.indexOf? string with
    | some _, _ => none
    | none, some index =>
        some { session with answers := (caller, string, index) :: session.answers }
    | none, none =>
        some { session with waiting := Function.update session.waiting caller (some string) }
  | .add =>
    (session.waiting caller).map fun string =>
      { table := (session.table.add string).2
        waiting := Function.update session.waiting caller none
        answers := (caller, string, (session.table.add string).1) :: session.answers }

/-- The steps of all callers, in the order in which they happen. -/
def run (session : Session Caller) (steps : List (Caller × Action)) : Option (Session Caller) :=
  steps.foldlM (fun session entry => session.step entry.1 entry.2) session

/-- The three things that a step can do. -/
theorem step_cases (hstep : session.step caller action = some later) :
    (∃ string index, action = .look string ∧ session.table.indexOf? string = some index ∧
      later = { session with answers := (caller, string, index) :: session.answers }) ∨
    (∃ string, action = .look string ∧ session.table.indexOf? string = none ∧
      later = { session with waiting := Function.update session.waiting caller (some string) }) ∨
    (∃ string, action = .add ∧ session.waiting caller = some string ∧
      later = { table := (session.table.add string).2
                waiting := Function.update session.waiting caller none
                answers :=
                (caller, string, (session.table.add string).1) :: session.answers }) := by
  cases action with
  | look string =>
    simp only [step] at hstep
    split at hstep
    · cases hstep
    · rename_i hlook
      exact .inl ⟨string, _, rfl, hlook, (Option.some.inj hstep).symm⟩
    · rename_i hlook
      exact .inr (.inl ⟨string, rfl, hlook, (Option.some.inj hstep).symm⟩)
  | add =>
    obtain ⟨string, hwaiting, rfl⟩ := Option.map_eq_some_iff.1 hstep
    exact .inr (.inr ⟨string, rfl, hwaiting, rfl⟩)

/-- Every step keeps a session sound. What others added since a caller's look-up does no harm: the
addition either finds the string, or has a number left for it. -/
theorem Sound.step (hsession : session.Sound strings) (hfew : strings.card ≤ 2 ^ 32)
    (hasked : ∀ string, action = .look string → string ∈ strings)
    (hstep : session.step caller action = some later) : later.Sound strings := by
  obtain ⟨string, index, rfl, hfound, rfl⟩ | ⟨string, rfl, -, rfl⟩
      | ⟨string, rfl, hwaiting, rfl⟩ :=
    step_cases hstep
  · refine ⟨hsession.consistent, hsession.values, hsession.waiting, ?_⟩
    rintro other name number (_ | ⟨_, hmem⟩)
    · exact hfound
    · exact hsession.answers other name number hmem
  · refine ⟨hsession.consistent, hsession.values, ?_, hsession.answers⟩
    intro other name hname
    by_cases heq : other = caller
    · subst heq
      obtain rfl : string = name := by simpa using hname
      exact hasked string rfl
    · exact hsession.waiting other name (by simpa [heq] using hname)
  · have hmem : string ∈ strings := hsession.waiting caller string hwaiting
    refine ⟨hsession.consistent.add (hsession.size_lt hfew hmem), ?_, ?_, ?_⟩
    · intro name hname
      rcases mem_values_add hname with hname | rfl
      · exact hsession.values name hname
      · exact hmem
    · intro other name hname
      by_cases heq : other = caller
      · simp [heq] at hname
      · exact hsession.waiting other name (by simpa [heq] using hname)
    · rintro other name number (_ | ⟨_, hmem⟩)
      · exact indexOf?_add_self session.table string
      · exact indexOf?_add (hsession.answers other name number hmem) string

theorem run_cons (session : Session Caller) (entry : Caller × Action)
    (steps : List (Caller × Action)) :
    session.run (entry :: steps) = (session.step entry.1 entry.2).bind (·.run steps) := rfl

theorem Sound.run (hsession : session.Sound strings) (hfew : strings.card ≤ 2 ^ 32)
    (hasked : ∀ caller string, (caller, .look string) ∈ steps → string ∈ strings)
    (hrun : session.run steps = some later) : later.Sound strings := by
  induction steps generalizing session with
  | nil =>
    obtain rfl := Option.some.inj hrun
    exact hsession
  | cons entry steps ih =>
    rw [run_cons, Option.bind_eq_some_iff] at hrun
    obtain ⟨next, hstep, hrest⟩ := hrun
    refine ih (hsession.step hfew ?_ hstep) ?_ hrest
    · intro string haction
      exact hasked entry.1 string (haction ▸ List.mem_cons_self)
    · exact fun caller string hmem => hasked caller string (List.mem_cons_of_mem _ hmem)

theorem answers_suffix (hrun : session.run steps = some later) :
    session.answers <:+ later.answers := by
  induction steps generalizing session with
  | nil =>
    obtain rfl := Option.some.inj hrun
    exact List.suffix_rfl
  | cons entry steps ih =>
    rw [run_cons, Option.bind_eq_some_iff] at hrun
    obtain ⟨next, hstep, hrest⟩ := hrun
    refine List.IsSuffix.trans ?_ (ih hrest)
    obtain ⟨_, _, -, -, rfl⟩ | ⟨_, -, -, rfl⟩ | ⟨_, -, -, rfl⟩ := step_cases hstep
    · exact List.suffix_cons _ _
    · exact List.suffix_rfl
    · exact List.suffix_cons _ _

/-- The two steps of a call with no other step between them are `Interner.intern`. -/
theorem exists_run_eq_intern (hidle : session.waiting caller = none) (string : String) :
    ∃ actions : List Action, session.run (actions.map (caller, ·)) = some { session with
      table := (session.table.intern string).2
      answers := (caller, string, (session.table.intern string).1) :: session.answers } := by
  cases hlook : session.table.indexOf? string with
  | some index =>
    refine ⟨[.look string], ?_⟩
    simp [run, step, hidle, hlook, intern]
  | none =>
    refine ⟨[.look string, .add], ?_⟩
    simp [run, step, hidle, hlook, intern]

/-- Callers that share a table take their steps in any order, and ask for no more strings than there
are numbers. Then the table is consistent at every moment; a string and the number that some caller
was given for it find each other from then on; and two answers agree on the number just if they
agree on the string. -/
theorem answers_of_run {before after : List (Caller × Action)} (hfew : strings.card ≤ 2 ^ 32)
    (hasked : ∀ caller string, (caller, .look string) ∈ before ++ after → string ∈ strings)
    (hbefore : start.run before = some session) (hafter : session.run after = some later) :
    later.table.Consistent ∧
    (∀ caller string index, (caller, string, index) ∈ session.answers →
      later.table.get? index = some string ∧ later.table.indexOf? string = some index) ∧
    session.answers <:+ later.answers ∧
    (∀ first ∈ later.answers, ∀ second ∈ later.answers,
      first.2.2 = second.2.2 ↔ first.2.1 = second.2.1) := by
  have hsession : session.Sound strings := sound_start.run hfew
      (fun caller string hmem => hasked caller string (List.mem_append_left _ hmem)) hbefore
  have hlater : later.Sound strings := hsession.run hfew
      (fun caller string hmem => hasked caller string (List.mem_append_right _ hmem)) hafter
  have hfound : ∀ answer ∈ later.answers, later.table.indexOf? answer.2.1 = some answer.2.2 :=
    fun answer hmem => hlater.answers answer.1 answer.2.1 answer.2.2 hmem
  have hsuffix := answers_suffix hafter
  refine ⟨hlater.consistent, ?_, hsuffix, ?_⟩
  · intro caller string index hmem
    have hindex := hlater.answers caller string index (hsuffix.subset hmem)
    exact ⟨hlater.consistent.get?_iff.2 hindex, hindex⟩
  · intro first hfirst second hsecond
    have hget := hlater.consistent.get?_iff.2 (hfound first hfirst)
    constructor
    · intro hindex
      rw [hindex, hlater.consistent.get?_iff.2 (hfound second hsecond)] at hget
      exact (Option.some.inj hget).symm
    · intro hstring
      have hsame := hfound first hfirst
      rw [hstring, hfound second hsecond] at hsame
      exact (Option.some.inj hsame).symm

/-- Two callers miss the same string, and a third one adds another before the slower of them gets
its turn. -/
theorem answers_of_race : ∃ session later : Session Nat,
    start.run [(0, .look "x"), (1, .look "x"), (1, .add)] = some session ∧
    session.run [(2, .look "y"), (2, .add), (0, .add)] = some later ∧
    session.answers = [(1, "x", 0)] ∧ later.answers = [(0, "x", 0), (2, "y", 1), (1, "x", 0)] ∧
    later.table.Consistent ∧ later.table.get? 0 = some "x" ∧
    later.table.indexOf? "x" = some 0 := by
  have hasked : ∀ (caller : Nat) string,
      (caller, .look string) ∈ ([(0, .look "x"), (1, .look "x"), (1, .add)] : List
      (Nat × Action)) ++
        [(2, .look "y"), (2, .add), (0, .add)] → string ∈ ({"x", "y"} : Finset String) := by
    simp only [List.mem_append, List.mem_cons, Finset.mem_insert, Finset.mem_singleton]
    grind
  have hrun := answers_of_run (by decide) hasked rfl rfl
  exact ⟨_, _, rfl, rfl, rfl, rfl, hrun.1, hrun.2.1 1 "x" 0 List.mem_cons_self⟩

end Session

end Interner
end Regions
