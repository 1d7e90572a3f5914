import Regions.Digraph
import Regions.Path

/-!
# Captures

A variable holds on to another when a reference to the other was put into it. Who holds on to what
is kept in both directions, so that either end can be asked about.

- `Captures.capturedBy`: all that a variable holds on to, directly or through others.
- `Captures.dependentsOf`: all variables that hold on to a variable.
-/

namespace Regions

/-- Which variables hold on to which. -/
structure Captures where
  /-- An edge runs from each variable to those that hold on to it. -/
  dependents : Digraph Path
  /-- An edge runs from each holder to what it holds on to. -/
  held : Digraph Path

namespace Captures

def empty : Captures := ⟨∅, ∅⟩

instance : EmptyCollection Captures := ⟨empty⟩

/-- Records that `holder` holds on to `captured`, in both directions. -/
def record (captures : Captures) (captured holder : Path) : Captures :=
  if captured = holder then
    captures
  else
    { dependents := captures.dependents.insert captured holder
      held := captures.held.insert holder captured }

/-- All that `holder` holds on to, directly or through others. -/
def capturedBy (captures : Captures) (holder : Path) : PathSet :=
  captures.held.closure .stack holder

/-- All variables that hold on to `captured`, directly or through others. -/
def dependentsOf (captures : Captures) (captured : Path) : PathSet :=
  captures.dependents.closure .stack captured

end Captures

end Regions
