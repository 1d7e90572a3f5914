import Regions.Lifetime
import Regions.Source

/-!
# Violations

The two findings that the analysis can make about a program: a function returns data that may
not last beyond the call, or data that may not last is stored in heap memory.
-/

namespace Regions

inductive Violation
  /-- The value that `function` returns rests on regions that end with the call. -/
  | returnEscape (function : Path) (span : Span) (roots : List Lifetime) (captured : List Path)
  /-- A value in heap memory rests on regions that may end before the heap memory does. -/
  | heapStore (span : Span) (roots : List Lifetime)
  deriving DecidableEq, Repr

namespace Violation

/-- Where the value stands in the source text. -/
def span : Violation → Span
  | .returnEscape _ span _ _ => span
  | .heapStore span _ => span

/-- The regions that may end too early. -/
def roots : Violation → List Lifetime
  | .returnEscape _ _ roots _ => roots
  | .heapStore _ roots => roots

def quotedList (paths : List Path) : String :=
  ", ".intercalate (paths.map Path.quoted)

/-- The finding in one line. -/
def message (violation : Violation) : String :=
  let subject :=
    match violation with
    | .returnEscape function _ _ _ => "value returned from " ++ function.quoted
    | .heapStore _ _ => "value stored into heap memory"
  subject ++ " may outlive the region(s) backing it: " ++
    quotedList (violation.roots.map Lifetime.path)

/-- The variables that the value holds on to, as a note. -/
def notes (violation : Violation) (styling : Styling) : String :=
  match violation with
  | .returnEscape _ _ _ (path :: paths) =>
      "\n" ++ styling.paint .blue "note" ++ ": the returned value holds on to " ++
        quotedList (path :: paths)
  | _ => ""

/-- The whole diagnostic against the source text; `none` when the span cuts a character. -/
def render? (violation : Violation) (styling : Styling) (source : Source) : Option String := do
  let position ← source.position? violation.span
  let highlight ← source.highlight? styling violation.span
  return styling.paint .red "error" ++ ": " ++ violation.message ++ " " ++
    styling.paint .white ("(at " ++ position ++ ")") ++ "\n" ++ highlight ++
    violation.notes styling ++ "\n" ++ styling.paint .cyan "help" ++
    ": copy the data into a heap allocation (`new`) before it escapes"

end Violation

end Regions
