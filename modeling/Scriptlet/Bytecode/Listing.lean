import Scriptlet.Bytecode.Code

/-!
# Listings of code

`Code.items?` takes code apart into its instructions, each with its position; a byte that stands for
no operation is an item of its own. A listing has one line for each item: for an instruction its
position with at least four digits, its name and its operands.
-/

namespace Scriptlet

/-- An item of a listing. -/
inductive Item where
  | instruction (op : Op) (operands : List Nat)
  | unknown (byte : UInt8)
deriving DecidableEq, Repr

/-- A number with at least four digits. -/
def fourDigits (n : Nat) : String :=
  let digits := Nat.toDigits 10 n
  String.ofList (List.replicate (4 - digits.length) '0' ++ digits)

/-- The line of an item. -/
def Item.line (position : Nat) : Item → String
  | instruction op operands =>
    fourDigits position ++ " " ++ op.name
      ++ String.join (operands.map fun n => " " ++ toString n) ++ "\n"
  | unknown byte => "ERROR: unknown opcode: " ++ toString byte.toNat ++ "\n"

namespace Code

/-- The items of the bytes that start at `position`, each with its position; fails if the operands
of an instruction are cut off. -/
def itemsFrom? (position : Nat) : (bytes : List UInt8) → Option (List (Nat × Item))
  | [] => some []
  | b :: rest =>
    match Op.ofByte? b with
    | none => (itemsFrom? (position + 1) rest).map ((position, .unknown b) :: ·)
    | some op =>
      match op.operands? rest with
      | none => none
      | some operands =>
        (itemsFrom? (position + 1 + op.operandSize) (rest.drop op.operandSize)).map
          ((position, .instruction op operands) :: ·)
termination_by bytes => bytes.length
decreasing_by
  · simp
  · simp only [List.length_drop, List.length_cons]
    omega

/-- The items of code, unless its last instruction is cut off. -/
def items? (code : Code) : Option (List (Nat × Item)) :=
  itemsFrom? 0 code.toList

/-- The listing of code, unless its last instruction is cut off. -/
def listing? (code : Code) : Option String :=
  code.items?.map fun items => String.join (items.map fun (position, item) => item.line position)

end Code

end Scriptlet
