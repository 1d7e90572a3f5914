import Regions.Text.Hidden

/-!
# Quoted names

Names are shown between double quotes where a message prints them as data. `quote` writes
quotes, backslashes, line ends and every character that does not show as an escape.
-/

namespace Regions
namespace Text

/-- One character of a quoted name. -/
def quoteChar (c : Char) : List Char :=
  match c with
  | '"' => ['\\', '"']
  | '\\' => ['\\', '\\']
  | '\n' => ['\\', 'n']
  | '\r' => ['\\', 'r']
  | '\t' => ['\\', 't']
  | '\x00' => ['\\', '0']
  | _ =>
      if isHidden c then
        ['\\', 'u', '\x7b'] ++ Nat.toDigits 16 c.toNat ++ ['\x7d']
      else
        [c]

/-- A name between double quotes, with escapes. -/
def quote (name : String) : String :=
  "\"" ++ String.ofList (name.toList.flatMap quoteChar) ++ "\""

end Text
end Regions
