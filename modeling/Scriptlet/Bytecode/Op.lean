/-!
# Operations of the machine

Each operation has a byte, a name and operands of fixed widths. `Op.ofByte?` undoes `Op.byte`.
-/

namespace Scriptlet

/-- An operation of the machine. -/
inductive Op where
  | constant
  | add
  | sub
  | mul
  | div
  | pop
  | pushTrue
  | pushFalse
  | equal
  | notEqual
  | greaterThan
  | minus
  | bang
  | jumpNotTruthy
  | jump
  | pushNull
  | getGlobal
  | setGlobal
  | array
  | hash
  | index
  | call
  | returnValue
  | returnNull
  | getLocal
  | setLocal
  | getBuiltin
  | closure
  | getFree
  | setFree
deriving DecidableEq, Repr, Inhabited

namespace Op

/-- All operations, each at the index that is its byte. -/
def all : Array Op :=
  #[.constant, .add, .sub, .mul, .div, .pop, .pushTrue, .pushFalse, .equal, .notEqual,
    .greaterThan, .minus, .bang, .jumpNotTruthy, .jump, .pushNull, .getGlobal, .setGlobal,
    .array, .hash, .index, .call, .returnValue, .returnNull, .getLocal, .setLocal, .getBuiltin,
    .closure, .getFree, .setFree]

/-- The byte that stands for an operation. -/
def byte : Op → UInt8
  | constant => 0
  | add => 1
  | sub => 2
  | mul => 3
  | div => 4
  | pop => 5
  | pushTrue => 6
  | pushFalse => 7
  | equal => 8
  | notEqual => 9
  | greaterThan => 10
  | minus => 11
  | bang => 12
  | jumpNotTruthy => 13
  | jump => 14
  | pushNull => 15
  | getGlobal => 16
  | setGlobal => 17
  | array => 18
  | hash => 19
  | index => 20
  | call => 21
  | returnValue => 22
  | returnNull => 23
  | getLocal => 24
  | setLocal => 25
  | getBuiltin => 26
  | closure => 27
  | getFree => 28
  | setFree => 29

/-- The operation that a byte stands for. -/
def ofByte? (b : UInt8) : Option Op :=
  all[b.toNat]?

theorem ofByte?_byte (op : Op) : ofByte? op.byte = some op := by
  cases op <;> rfl

/-- No other byte stands for an operation than its own. -/
theorem eq_byte_of_ofByte? {b : UInt8} {op : Op} (h : ofByte? b = some op) : b = op.byte := by
  have hall : ∀ i < all.size, all[i]?.all (fun op => op.byte.toNat == i) = true := by decide
  have hbyte := hall b.toNat (Array.getElem?_eq_some_iff.mp h).1
  unfold ofByte? at h
  rw [h, Option.all_some, beq_iff_eq] at hbyte
  exact UInt8.toNat_inj.mp hbyte.symm

/-- The name of an operation in listings. -/
def name : Op → String
  | constant => "OpConstant"
  | add => "OpAdd"
  | sub => "OpSub"
  | mul => "OpMul"
  | div => "OpDiv"
  | pop => "OpPop"
  | pushTrue => "OpTrue"
  | pushFalse => "OpFalse"
  | equal => "OpEqual"
  | notEqual => "OpNotEqual"
  | greaterThan => "OpGreaterThan"
  | minus => "OpMinus"
  | bang => "OpBang"
  | jumpNotTruthy => "OpJumpNotTruthy"
  | jump => "OpJump"
  | pushNull => "OpNull"
  | getGlobal => "OpGetGlobal"
  | setGlobal => "OpSetGlobal"
  | array => "OpArray"
  | hash => "OpHash"
  | index => "OpIndex"
  | call => "OpCall"
  | returnValue => "OpReturnValue"
  | returnNull => "OpReturn"
  | getLocal => "OpGetLocal"
  | setLocal => "OpSetLocal"
  | getBuiltin => "OpGetBuiltin"
  | closure => "OpClosure"
  | getFree => "OpGetFree"
  | setFree => "OpSetFree"

/-- The widths in bytes of the operands of an operation, in order. -/
def widths : Op → List Nat
  | constant | jumpNotTruthy | jump | getGlobal | setGlobal | array | hash => [2]
  | call | getLocal | setLocal | getBuiltin | getFree | setFree => [1]
  | closure => [2, 1]
  | _ => []

end Op

end Scriptlet
