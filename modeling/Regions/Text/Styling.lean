/-!
# Styled terminal text

Rendered diagnostics come in two stylings: plain text, or text with terminal colour
sequences. `Styling.paint` is the only place where a colour sequence is written.
-/

namespace Regions

/-- Whether rendered text carries terminal colours. -/
inductive Styling
  | plain
  | colored
  deriving DecidableEq, Repr

/-- The colours that diagnostics use. -/
inductive Ink
  | red
  | yellow
  | blue
  | cyan
  | white
  deriving DecidableEq, Repr

/-- The terminal's number for a foreground colour. -/
def Ink.code : Ink → String
  | .red => "31"
  | .yellow => "33"
  | .blue => "34"
  | .cyan => "36"
  | .white => "37"

/-- The sequence that turns a colour on. -/
def Ink.opening (ink : Ink) : String :=
  "\x1b[" ++ ink.code ++ "m"

namespace Styling

/-- The sequence that turns every colour off. -/
def reset : String := "\x1b[0m"

/-- Text in a colour. A reset inside the text is followed by the colour again, so that the
colour lasts to the end of the text. -/
def paint (styling : Styling) (ink : Ink) (text : String) : String :=
  match styling with
  | .plain => text
  | .colored => ink.opening ++ text.replace reset (reset ++ ink.opening) ++ reset

@[simp] theorem paint_plain (ink : Ink) (text : String) : paint .plain ink text = text := rfl

end Styling

end Regions
