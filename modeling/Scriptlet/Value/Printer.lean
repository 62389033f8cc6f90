import Scriptlet.Ast.Printer
import Scriptlet.Value

/-!
# Values as text

The text of a value as programs print it. Floats have six places, strings no quotes, and functions
of the machine show their identity as an address.
-/

namespace Scriptlet.Value

/-- An identity as an address of twelve hexadecimal digits. -/
def address (id : Identity) : String :=
  let digits := Nat.toDigits 16 id
  "0x" ++ String.ofList (List.replicate (12 - digits.length) '0' ++ digits)

mutual

/-- The text of a value. -/
def text : Value → String
  | int i => toString i.toInt
  | float x => Decimal.fixed 6 x
  | bool b => if b then "true" else "false"
  | str s => s
  | null => "null"
  | error message => "ERROR: " ++ message
  | array _ elements => "[" ++ listText elements ++ "]"
  | hash _ entries => "\x7b" ++ entriesText entries ++ "\x7d"
  | function _ params body _ => "fn(" ++ ", ".intercalate params ++ ") " ++ Stmt.blockText body
  | compiled id _ => "CompiledFunction[" ++ address id ++ "]"
  | closure id _ _ => "Closure[" ++ address id ++ "]"
  | builtin b => "builtin function " ++ b.name
  | quote _ e => "QUOTE(" ++ e.text ++ ")"

/-- The texts of values with commas between them. -/
def listText : List Value → String
  | [] => ""
  | v :: rest => moreText v.text rest

/-- Appends a comma and the text of each value. -/
def moreText (front : String) : List Value → String
  | [] => front
  | v :: rest => moreText (front ++ ", " ++ v.text) rest

/-- The texts of entries with commas between them. -/
def entriesText : List (Entry Value) → String
  | [] => ""
  | ⟨_, shown, value⟩ :: rest => moreEntriesText (shown.text ++ ": " ++ value.text) rest

/-- Appends a comma and the text of each entry. -/
def moreEntriesText (front : String) : List (Entry Value) → String
  | [] => front
  | ⟨_, shown, value⟩ :: rest =>
    moreEntriesText (front ++ ", " ++ (shown.text ++ ": " ++ value.text)) rest

end

end Scriptlet.Value
