import Scriptlet.Bytecode.Op

/-!
# Code

Code is a sequence of bytes: each instruction is the byte of its operation followed by its operands,
highest byte first. `Op.encode` writes one instruction, `Op.operands?` reads the operands back from
the bytes that follow the operation.
-/

namespace Scriptlet

/-- A sequence of encoded instructions. -/
abbrev Code := Array UInt8

/-- The lowest `width` bytes of a number, highest first. -/
def bigEndian : (width : Nat) → (n : Nat) → List UInt8
  | 0, _ => []
  | width + 1, n => bigEndian width (n / 256) ++ [UInt8.ofNat n]

/-- The number written as bytes, highest first. -/
def ofBigEndian (bytes : List UInt8) : Nat :=
  bytes.foldl (fun n b => 256 * n + b.toNat) 0

namespace Op

/-- The bytes of operands of the given widths. A missing operand is zero, a surplus one is dropped,
and one that is too large loses its high bytes. -/
def encodeOperands : (widths : List Nat) → (operands : List Nat) → List UInt8
  | [], _ => []
  | width :: widths, [] => bigEndian width 0 ++ encodeOperands widths []
  | width :: widths, n :: operands => bigEndian width n ++ encodeOperands widths operands

/-- The bytes of one instruction. -/
def encode (op : Op) (operands : List Nat) : List UInt8 :=
  op.byte :: encodeOperands op.widths operands

/-- Reads operands of the given widths from the front of `bytes`; fails if the bytes run out. -/
def decodeOperands? : (widths : List Nat) → (bytes : List UInt8) → Option (List Nat)
  | [], _ => some []
  | width :: widths, bytes =>
    if width ≤ bytes.length then
      (decodeOperands? widths (bytes.drop width)).map (ofBigEndian (bytes.take width) :: ·)
    else none

/-- Reads the operands of an operation from the bytes behind it. -/
def operands? (op : Op) (bytes : List UInt8) : Option (List Nat) :=
  decodeOperands? op.widths bytes

/-- The number of bytes that the operands of an operation take. -/
def operandSize (op : Op) : Nat :=
  op.widths.foldr (· + ·) 0

end Op

namespace Code

/-- Code that consists of the given instructions. -/
def ofInstructions (instructions : List (Op × List Nat)) : Code :=
  (instructions.flatMap fun (op, operands) => op.encode operands).toArray

/-- Writes bytes over those from `position` on. -/
def overwrite (code : Code) (position : Nat) : (bytes : List UInt8) → Code
  | [] => code
  | b :: bytes => overwrite (code.setIfInBounds position b) (position + 1) bytes

/-- Writes bytes over those from `position` on, if all of them lie inside the code. -/
def replace? (code : Code) (position : Nat) (bytes : List UInt8) : Option Code :=
  if position + bytes.length ≤ code.size then some (code.overwrite position bytes) else none

/-- The first `size` bytes, or all if there are fewer. -/
def truncate (code : Code) (size : Nat) : Code :=
  code.shrink size

/-- The bytes from `position` on; fails behind the end. -/
def tail? (code : Code) (position : Nat) : Option (List UInt8) :=
  if position ≤ code.size then some (code.toList.drop position) else none

end Code

/-- Where a new closure finds a variable that it captures: a local of the running function, or a
variable which that function has captured itself. -/
inductive Capture where
  | slot (index : Nat)
  | free (index : Nat)
deriving DecidableEq, Repr

/-- A compiled function: its code, how many locals it has, its parameters among them, and the
variables that it captures. -/
structure FunctionCode where
  code : Code
  locals : Nat
  params : Nat
  captures : List Capture
deriving DecidableEq, Repr, Inhabited

end Scriptlet
