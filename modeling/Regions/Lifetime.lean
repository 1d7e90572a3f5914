import Regions.Path

/-!
# Lifetimes

A lifetime stands for the time during which some data can be reached. It belongs to a path, and
to a version of that path: each reassignment of a variable starts a new version. Its role says
how it takes part in the analysis, its origin what kind of storage it speaks of.
-/

namespace Regions

/-- How a lifetime takes part in the analysis. -/
inductive Role
  /-- A region of storage, which ends on its own. -/
  | root
  /-- Data that a variable refers to. -/
  | alias
  /-- An intermediate value. -/
  | temp
  deriving DecidableEq, Repr

/-- The kind of storage that a lifetime speaks of. -/
inductive Origin
  /-- The data behind a local variable. -/
  | localValue
  /-- The storage of a local variable itself. -/
  | localSlot
  /-- The data behind an intermediate value. -/
  | temporary
  | heap
  /-- No storage: the lifetime of data that refers to nothing. -/
  | none
  deriving DecidableEq, Repr

structure Lifetime where
  path : Path
  version : Nat := 0
  role : Role
  origin : Origin
  deriving DecidableEq, Repr

namespace Role

def rank : Role → Nat
  | .root => 0
  | .alias => 1
  | .temp => 2

def name : Role → String
  | .root => "Root"
  | .alias => "Alias"
  | .temp => "Temp"

theorem rank_inj {a b : Role} (h : a.rank = b.rank) : a = b := by
  revert h
  cases a <;> cases b <;> decide

end Role

namespace Origin

def rank : Origin → Nat
  | .localValue => 0
  | .localSlot => 1
  | .temporary => 2
  | .heap => 3
  | .none => 4

def name : Origin → String
  | .localValue => "LocalValue"
  | .localSlot => "LocalLocation"
  | .temporary => "TempValue"
  | .heap => "Heap"
  | .none => "None"

theorem rank_inj {a b : Origin} (h : a.rank = b.rank) : a = b := by
  revert h
  cases a <;> cases b <;> decide

end Origin

namespace Lifetime

/-! ## Order: by path, version, role and origin -/

/-- The comparison of the parts, the first that differs deciding. -/
def comparison : Lifetime → Lifetime → Ordering :=
  compareLex (compareOn path) <| compareLex (compareOn version) <|
    compareLex (compareOn fun l => l.role.rank) (compareOn fun l => l.origin.rank)

instance : Ord Lifetime := ⟨comparison⟩

instance : Std.TransOrd Lifetime := by
  unfold Std.TransOrd
  change Std.TransCmp comparison
  unfold comparison
  infer_instance

instance : Std.LawfulEqOrd Lifetime where
  eq_of_compare := by
    rintro ⟨p, v, r, o⟩ ⟨p', v', r', o'⟩ h
    have h : comparison _ _ = .eq := h
    simp only [comparison, compareLex, compareOn, Ordering.then_eq_eq] at h
    obtain ⟨hp, hv, hr, ho⟩ := h
    cases Std.LawfulEqCmp.eq_of_compare hp
    cases Std.LawfulEqCmp.eq_of_compare hv
    cases Role.rank_inj (Std.LawfulEqCmp.eq_of_compare hr)
    cases Origin.rank_inj (Std.LawfulEqCmp.eq_of_compare ho)
    rfl

/-! ## Particular lifetimes -/

/-- The lifetime of data that refers to nothing. -/
def none : Lifetime := { path := .whole, role := .temp, origin := .none }

/-- The lifetime that outlives the program's calls. -/
def heap : Lifetime := { path := .single "$heap", role := .root, origin := .heap }

instance : Inhabited Lifetime := ⟨none⟩

/-- The region of storage at a path. -/
def root (path : Path) (origin : Origin) : Lifetime :=
  { path, role := .root, origin }

def isNone (l : Lifetime) : Bool := l.origin = .none

def isHeap (l : Lifetime) : Bool := l.origin = .heap

def isRoot (l : Lifetime) : Bool := l.role = .root

/-- Whether the lifetime is that of a local variable's storage. -/
def isSlot (l : Lifetime) : Bool := l.origin = .localSlot

/-! ## Text -/

/-- The path, with the version unless it is the first, and a mark on storage. -/
def text (l : Lifetime) : String :=
  if l.isNone then
    "\x7bnone\x7d"
  else
    l.path.text ++ (if l.version = 0 then "" else "#" ++ toString l.version) ++
      (if l.isSlot then "@" else "")

def listing (l : Lifetime) : String :=
  "Lifetime \x7b path: " ++ l.path.quoted ++ ", version: " ++ toString l.version ++
    ", role: " ++ l.role.name ++ ", origin: " ++ l.origin.name ++ " \x7d"

end Lifetime

abbrev LifetimeSet := Std.ExtTreeSet Lifetime

end Regions
