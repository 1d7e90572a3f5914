import Std.Data.ExtTreeMap
import Std.Data.ExtTreeSet

/-!
# Paths

A path names a variable, a member inside a value, a declared type or a function. It is a list
of segments; the empty path stands for a whole value.

- `Path.ofString` reads a path from text, cutting at `::` and dropping empty segments.
- `Path.text` shows it.
- `p ++ q`, `Path.child`, `Path.startsWith`, `Path.strip?`, `Path.ancestry`: the tree of paths.
-/

namespace Regions

/-- A sequence of name segments. -/
structure Path where
  segments : List String
  deriving DecidableEq, Repr

namespace Path

/-- The path of a whole value. -/
def whole : Path := ⟨[]⟩

instance : EmptyCollection Path := ⟨whole⟩

instance : Inhabited Path := ⟨whole⟩

/-! ## Order: segment by segment, each by its code points -/

instance : Ord Path := ⟨compareOn segments⟩

instance : Std.TransOrd Path :=
  inferInstanceAs (Std.TransCmp (compareOn segments))

instance : Std.LawfulEqOrd Path where
  eq_of_compare := by
    rintro ⟨p⟩ ⟨q⟩ h
    have h : compare p q = .eq := h
    exact congrArg Path.mk (Std.LawfulEqCmp.eq_of_compare h)

/-! ## Reading and showing -/

/-- Cuts text at every `::`, from left to right. -/
def splitColons : List Char → List (List Char)
  | [] => [[]]
  | ':' :: ':' :: rest => [] :: splitColons rest
  | c :: rest =>
      match splitColons rest with
      | [] => [[c]]
      | piece :: pieces => (c :: piece) :: pieces

/-- The path that a text names: the non-empty pieces between `::`. -/
def ofString (text : String) : Path :=
  ⟨((splitColons text.toList).filter (· ≠ [])).map String.ofList⟩

def single (name : String) : Path := ⟨[name]⟩

/-- The segments joined by `::`; the empty path has a text of its own. -/
def text (p : Path) : String :=
  match p.segments with
  | [] => "<whole>"
  | segments => "::".intercalate segments

/-- A path between grave accents, as messages quote it. -/
def quoted (p : Path) : String :=
  "`" ++ p.text ++ "`"

/-! ## The tree of paths -/

instance : Append Path := ⟨fun p q => ⟨p.segments ++ q.segments⟩⟩

def child (p : Path) (name : String) : Path := ⟨p.segments ++ [name]⟩

/-- Whether `p` lies at or below `base`. -/
def startsWith (p base : Path) : Bool :=
  base.segments.isPrefixOf p.segments

/-- What remains of `p` below `base`. -/
def strip? (p base : Path) : Option Path :=
  if p.startsWith base then some ⟨p.segments.drop base.segments.length⟩ else none

/-- The non-empty paths at or above `p`, from the shortest to `p` itself. -/
def ancestry (p : Path) : List Path :=
  (List.range p.segments.length).map fun n => ⟨p.segments.take (n + 1)⟩

@[simp] theorem segments_append (p q : Path) :
    (p ++ q).segments = p.segments ++ q.segments := rfl

theorem startsWith_iff {p base : Path} : p.startsWith base = true ↔ ∃ q, p = base ++ q := by
  simp only [startsWith, List.isPrefixOf_iff_prefix]
  constructor
  · rintro ⟨rest, h⟩
    exact ⟨⟨rest⟩, congrArg Path.mk h.symm⟩
  · rintro ⟨q, rfl⟩
    exact ⟨q.segments, rfl⟩

theorem strip?_eq_some_iff {p base q : Path} : p.strip? base = some q ↔ p = base ++ q := by
  unfold strip?
  constructor
  · intro h
    split at h
    · rename_i hp
      obtain ⟨r, rfl⟩ := startsWith_iff.1 hp
      simp only [segments_append, List.drop_left, Option.some.injEq] at h
      rw [← h]
    · cases h
  · rintro rfl
    simp [startsWith_iff.2 ⟨q, rfl⟩]

end Path

abbrev PathSet := Std.ExtTreeSet Path

abbrev PathMap (α : Type) := Std.ExtTreeMap Path α

end Regions
