import Scriptlet.Compilation
import Scriptlet.Evaluation

/-!
# Stray jumps

A `break` or `continue` strays if it does not stand in the body of a loop of its own function. The
head of a loop does not count as its body, nor does a loop around the function.

This is a property of the syntax alone. The compiler and the evaluator have their own ways to notice
a stray jump, the loops that are open and the scopes around it; both are compared to this
definition, and through it with each other (`Proofs/Jumps.lean`).
-/

namespace Scriptlet

/-- The two statements that jump out of the body of a loop. -/
inductive LoopJump where
  | breaks
  | continues
deriving DecidableEq, Repr

/-- The error of the compiler for a jump that strays. -/
def LoopJump.error : LoopJump → Compilation.CompileError
  | breaks => .breakOutsideLoop
  | continues => .continueOutsideLoop

/-- The fault of the evaluation for a jump that strays. -/
def LoopJump.fault : LoopJump → Fault
  | breaks => .breakOutsideLoop
  | continues => .continueOutsideLoop

/-! ## Where jumps stray

`inLoop` is the only thing that has to be known of the surroundings. It is set in the body of a
loop, reset in that of a function, and handed on everywhere else. -/

mutual

/-- Whether a jump of the given kind strays in an expression, which itself stands in the body of a
loop if `inLoop` holds. -/
def Expr.strays (jump : LoopJump) (inLoop : Bool) : Expr → Bool
  | .ident _ | .int _ | .float _ | .str _ | .bool _ => false
  | .array elements => Expr.straysAny jump inLoop elements
  | .hash pairs => Expr.straysPairs jump inLoop pairs
  | .prefixOp _ operand => operand.strays jump inLoop
  | .infixOp left _ right => left.strays jump inLoop || right.strays jump inLoop
  | .cond test yes no =>
    test.strays jump inLoop || Stmt.straysAny jump inLoop yes || Stmt.straysOption jump inLoop no
  | .fn _ body => Stmt.straysAny jump false body
  | .call callee args => callee.strays jump inLoop || Expr.straysAny jump inLoop args
  | .index left subscript => left.strays jump inLoop || subscript.strays jump inLoop

/-- Whether a jump strays in one of the expressions. -/
def Expr.straysAny (jump : LoopJump) (inLoop : Bool) : List Expr → Bool
  | [] => false
  | e :: rest => e.strays jump inLoop || Expr.straysAny jump inLoop rest

/-- Whether a jump strays in one of the pairs. -/
def Expr.straysPairs (jump : LoopJump) (inLoop : Bool) : List (Expr × Expr) → Bool
  | [] => false
  | (key, value) :: rest =>
    key.strays jump inLoop || value.strays jump inLoop || Expr.straysPairs jump inLoop rest

/-- Whether a jump strays in a statement. -/
def Stmt.strays (jump : LoopJump) (inLoop : Bool) : Stmt → Bool
  | .bind _ value | .assign _ value | .ret value | .expr value => value.strays jump inLoop
  | .block body => Stmt.straysAny jump inLoop body
  | .loop init test post body =>
    init.strays jump inLoop || test.strays jump inLoop || post.strays jump inLoop
      || Stmt.straysAny jump true body
  | .breakLoop => jump = .breaks && !inLoop
  | .continueLoop => jump = .continues && !inLoop

/-- Whether a jump strays in one of the statements. -/
def Stmt.straysAny (jump : LoopJump) (inLoop : Bool) : List Stmt → Bool
  | [] => false
  | s :: rest => s.strays jump inLoop || Stmt.straysAny jump inLoop rest

/-- Whether a jump strays in a branch that may be missing. -/
def Stmt.straysOption (jump : LoopJump) (inLoop : Bool) : Option (List Stmt) → Bool
  | none => false
  | some body => Stmt.straysAny jump inLoop body

end

/-- Whether a jump strays in a program. -/
def Program.strays (jump : LoopJump) (program : Program) : Bool :=
  Stmt.straysAny jump false program

/-! ## Where names occur

Needed for one name only: the argument of a call of `quote` is not evaluated and not compiled, so
jumps in it do not matter. Whether a call is one of `quote` depends on what is bound, and programs
without the name are those where the question does not arise. -/

mutual

/-- Whether a name occurs in an expression: is read, assigned or bound. -/
def Expr.mentions (name : String) : Expr → Bool
  | .ident other => other == name
  | .int _ | .float _ | .str _ | .bool _ => false
  | .array elements => Expr.mentionsAny name elements
  | .hash pairs => Expr.mentionsPairs name pairs
  | .prefixOp _ operand => operand.mentions name
  | .infixOp left _ right => left.mentions name || right.mentions name
  | .cond test yes no =>
    test.mentions name || Stmt.mentionsAny name yes || Stmt.mentionsOption name no
  | .fn params body => params.contains name || Stmt.mentionsAny name body
  | .call callee args => callee.mentions name || Expr.mentionsAny name args
  | .index left subscript => left.mentions name || subscript.mentions name

/-- Whether a name occurs in one of the expressions. -/
def Expr.mentionsAny (name : String) : List Expr → Bool
  | [] => false
  | e :: rest => e.mentions name || Expr.mentionsAny name rest

/-- Whether a name occurs in one of the pairs. -/
def Expr.mentionsPairs (name : String) : List (Expr × Expr) → Bool
  | [] => false
  | (key, value) :: rest =>
    key.mentions name || value.mentions name || Expr.mentionsPairs name rest

/-- Whether a name occurs in a statement. -/
def Stmt.mentions (name : String) : Stmt → Bool
  | .bind other value | .assign other value => other == name || value.mentions name
  | .ret value | .expr value => value.mentions name
  | .block body => Stmt.mentionsAny name body
  | .loop init test post body =>
    init.mentions name || test.mentions name || post.mentions name || Stmt.mentionsAny name body
  | .breakLoop | .continueLoop => false

/-- Whether a name occurs in one of the statements. -/
def Stmt.mentionsAny (name : String) : List Stmt → Bool
  | [] => false
  | s :: rest => s.mentions name || Stmt.mentionsAny name rest

/-- Whether a name occurs in a branch that may be missing. -/
def Stmt.mentionsOption (name : String) : Option (List Stmt) → Bool
  | none => false
  | some body => Stmt.mentionsAny name body

end

/-- Whether a name occurs in a program. -/
def Program.mentions (name : String) (program : Program) : Bool :=
  Stmt.mentionsAny name program

end Scriptlet
