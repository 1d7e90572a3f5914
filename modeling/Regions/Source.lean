import Regions.Text.Styling

/-!
# Source text and positions in it

Positions are byte offsets into the UTF-8 form of the text. A position beyond the end counts
as the end; a position inside a character has no row, no column and no highlight, and the
functions below answer `none` there.

- `Source.row?`, `Source.column?`: one-based row, and one-based byte column.
- `Source.position?`: the place of a span as `name:row:column`.
- `Source.highlight?`: the line of a span with carets under the marked part.
-/

namespace Regions

/-- A half-open range of byte offsets. -/
structure Span where
  start : Nat
  stop : Nat
  deriving DecidableEq, Repr, Inhabited

/-- What a source text is called: it stands in a file, or it has no name. -/
inductive SourceName
  | memory
  | file (name : String)
  deriving DecidableEq, Repr

def SourceName.text : SourceName → String
  | .memory => "<memory>"
  | .file name => name

structure Source where
  contents : String
  name : SourceName := .memory
  deriving DecidableEq, Repr

namespace Source

/-! ## Cutting at byte offsets -/

/-- The length of characters in UTF-8. -/
def byteLength : List Char → Nat
  | [] => 0
  | c :: cs => c.utf8Size + byteLength cs

/-- Characters before and after a byte offset; `none` when the offset is past the end or
inside a character. -/
def splitBytes? : Nat → List Char → Option (List Char × List Char)
  | 0, cs => some ([], cs)
  | _ + 1, [] => none
  | n + 1, c :: cs =>
      if c.utf8Size ≤ n + 1 then
        (splitBytes? (n + 1 - c.utf8Size) cs).map fun (before, after) => (c :: before, after)
      else
        none

@[simp] theorem byteLength_nil : byteLength [] = 0 := rfl

@[simp] theorem byteLength_cons (c : Char) (cs : List Char) :
    byteLength (c :: cs) = c.utf8Size + byteLength cs := rfl

@[simp] theorem byteLength_append (cs ds : List Char) :
    byteLength (cs ++ ds) = byteLength cs + byteLength ds := by
  induction cs with
  | nil => simp
  | cons c cs ih => simp [ih, Nat.add_assoc]

/-- Cutting finds the one place, if any, where the first part has the wanted length. -/
theorem splitBytes?_eq_some_iff {n : Nat} {cs before after : List Char} :
    splitBytes? n cs = some (before, after) ↔ cs = before ++ after ∧ byteLength before = n := by
  induction cs generalizing n before after with
  | nil =>
      cases n with
      | zero =>
          cases before <;> simp [splitBytes?, eq_comm]
      | succ n =>
          cases before <;> simp [splitBytes?]
  | cons c cs ih =>
      have hpos := c.utf8Size_pos
      cases n with
      | zero =>
          cases before with
          | nil => simp [splitBytes?, eq_comm]
          | cons d ds =>
              simp only [splitBytes?, Option.some.injEq, Prod.mk.injEq, byteLength_cons,
                reduceCtorEq, false_and, false_iff, not_and]
              have := d.utf8Size_pos
              omega
      | succ n =>
          rw [splitBytes?]
          split
          · rename_i hle
            simp only [Option.map_eq_some_iff, Prod.exists, Prod.mk.injEq, ih]
            constructor
            · rintro ⟨front, back, ⟨rfl, hlen⟩, rfl, rfl⟩
              simp only [List.cons_append, byteLength_cons, hlen, true_and]
              omega
            · rintro ⟨happ, hlen⟩
              cases before with
              | nil => simp at hlen
              | cons d ds =>
                  simp only [List.cons_append, List.cons.injEq] at happ
                  obtain ⟨rfl, rfl⟩ := happ
                  simp only [byteLength_cons] at hlen
                  exact ⟨ds, after, ⟨rfl, by omega⟩, rfl, rfl⟩
          · rename_i hgt
            simp only [reduceCtorEq, false_iff, not_and]
            intro happ
            cases before with
            | nil => simp
            | cons d ds =>
                simp only [List.cons_append, List.cons.injEq] at happ
                simp only [byteLength_cons, ← happ.1]
                omega

/-- What follows the last line break. -/
def lastLine (cs : List Char) : List Char :=
  (cs.reverse.takeWhile (· ≠ '\n')).reverse

/-- What precedes the first line break. -/
def firstLine (cs : List Char) : List Char :=
  cs.takeWhile (· ≠ '\n')

/-- The characters before and after a position, which counts as the end when beyond it. -/
def cut? (source : Source) (pos : Nat) : Option (List Char × List Char) :=
  splitBytes? (min pos (byteLength source.contents.toList)) source.contents.toList

/-! ## Rows and columns -/

/-- One more than the number of line breaks before a position. -/
def row? (source : Source) (pos : Nat) : Option Nat :=
  (source.cut? pos).map fun (before, _) => before.count '\n' + 1

/-- One more than the number of bytes between the start of the line and a position. -/
def column? (source : Source) (pos : Nat) : Option Nat :=
  (source.cut? pos).map fun (before, _) => byteLength (lastLine before) + 1

/-- The place where a span starts, as `name:row:column`. -/
def position? (source : Source) (span : Span) : Option String := do
  let row ← source.row? span.start
  let column ← source.column? span.start
  return source.name.text ++ ":" ++ toString row ++ ":" ++ toString column

/-! ## Highlighting -/

/-- A line of source text with a marked part. -/
structure Excerpt where
  row : Nat
  /-- The characters of the line before the marked part. -/
  before : List Char
  marked : List Char
  after : List Char
  deriving DecidableEq, Repr

/-- The line where a span starts. The marked part ends with the line at the latest. -/
def excerpt? (source : Source) (span : Span) : Option Excerpt := do
  let row ← source.row? span.start
  let (before, after) ← source.cut? span.start
  let tail := firstLine after
  let start := byteLength before
  let width := min (span.stop - start) (byteLength tail)
  let (marked, rest) ← splitBytes? width tail
  return { row, before := lastLine before, marked, after := rest }

/-- Three lines: an empty gutter, the numbered source line, and the carets. An empty marked
part still gets one caret. -/
def Excerpt.render (excerpt : Excerpt) (styling : Styling) : String :=
  let number := toString excerpt.row
  let gutter := String.ofList (List.replicate number.length ' ')
  let bar := styling.paint .blue "|"
  let line := String.ofList (excerpt.before ++ excerpt.marked ++ excerpt.after)
  let padding := String.ofList (List.replicate excerpt.before.length ' ')
  let carets := String.ofList (List.replicate (max 1 excerpt.marked.length) '^')
  gutter ++ " " ++ bar ++ "\n" ++ styling.paint .blue number ++ " " ++ bar ++ " " ++ line ++ "\n" ++
    gutter ++ " " ++ bar ++ " " ++ padding ++ styling.paint .red carets

def highlight? (source : Source) (styling : Styling) (span : Span) : Option String :=
  (source.excerpt? span).map fun excerpt => excerpt.render styling

end Source

end Regions
