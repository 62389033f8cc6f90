import Scriptlet.Value

/-!
# Operators

The meaning of the operators on values, which evaluation and the machine share. Integer arithmetic
wraps around at 64 bits; only a quotient that does not exist or does not fit is a fault.
-/

namespace Scriptlet.Value

/-- The quotient of two integers, truncated toward zero; there is none for a divisor of zero and for
the smallest integer divided by minus one. -/
def quotient? (a b : Int64) : Option Int64 :=
  if b = 0 ∨ (a = Int64.minValue ∧ b = -1) then none else some (a / b)

/-- An infix operator on integers. -/
def infixInt (op : Token) (a b : Int64) : Except Fault Value :=
  match op with
  | .plus => .ok (int (a + b))
  | .minus => .ok (int (a - b))
  | .asterisk => .ok (int (a * b))
  | .slash =>
    match quotient? a b with
    | some q => .ok (int q)
    | none => .error .divisionByZero
  | .lt => .ok (bool (a < b))
  | .gt => .ok (bool (b < a))
  | .eq => .ok (bool (a == b))
  | .notEq => .ok (bool (a != b))
  | _ => .error (.unknownInfix .int op .int)

/-- An infix operator on two values. Both have to be of one kind; apart from integers, values only
know equality. -/
def infixOp (op : Token) (left right : Value) : Except Fault Value :=
  if left.kind ≠ right.kind then .error (.typeMismatch left.kind op right.kind)
  else
    match op, left, right with
    | op, int a, int b => infixInt op a b
    | .eq, left, right => .ok (bool (left.identical right))
    | .notEq, left, right => .ok (bool (!left.identical right))
    | op, left, right => .error (.unknownInfix left.kind op right.kind)

/-- A prefix operator on a value. -/
def prefixOp (op : Token) (operand : Value) : Except Fault Value :=
  match op, operand with
  | .bang, v => .ok (bool (!v.truthy))
  | .minus, int i => .ok (int (-i))
  | op, v => .error (.unknownPrefix op v.kind)

/-- The element of an array at an index, or the value of a hash under a key; `null` if there is
none. -/
def subscript (container index : Value) : Except Fault Value :=
  match container, index with
  | array _ elements, int i =>
    if 0 ≤ i then .ok ((elements[i.toInt.toNat]?).getD null) else .ok null
  | hash _ entries, index =>
    match index.key? with
    | some key => .ok ((Entry.find? key entries).getD null)
    | none => .error (.unusableKey index.kind)
  | container, _ => .error (.notIndexable container.kind)

/-- Puts a pair into the entries of a hash in the making. -/
def insertPair (entries : List (Entry Value)) (shown value : Value) :
    Except Fault (List (Entry Value)) :=
  match shown.key? with
  | some key => .ok (Entry.insert ⟨key, shown, value⟩ entries)
  | none => .error (.unusableKey shown.kind)

end Scriptlet.Value
