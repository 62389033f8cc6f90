import Scriptlet.Builtin
import Scriptlet.Proofs.Alignment

/-!
# Programs whose names mean the same in both backends

Evaluation finds a name in the scopes that exist when it is read; the compiler finds it in the text
before. The two differ where a `let` may be skipped, or where a loop comes around to a use of a name
that its own body binds further down: the scope of the loop has the name from the iteration before,
the text above the `let` does not.

`Stmt.plain` rules these out. Outside of loops a `let` may stand anywhere. In a loop it is the
init part or stands directly in the body, and the names that the body binds are not mentioned
before they are bound, nor in the parts of the loop that run between two iterations. Plain programs
make no functions, call built-in functions by their names, and leave those names alone.

`Expr.mirrored` writes `a < b` as `b > a`, which is how the compiler reads it: it evaluates `b`
first, and a fault speaks of `>`.
-/

namespace Scriptlet

/-! ## Reading `<` backwards -/

mutual

/-- The expression with every `a < b` written as `b > a`. -/
def Expr.mirrored : Expr → Expr
  | .infixOp left op right =>
    if op = .lt then .infixOp right.mirrored .gt left.mirrored
    else .infixOp left.mirrored op right.mirrored
  | .prefixOp op operand => .prefixOp op operand.mirrored
  | .cond test yes no =>
    .cond test.mirrored (Stmt.mirroredAll yes) (Stmt.mirroredOption no)
  | .array elements => .array (Expr.mirroredAll elements)
  | .hash pairs => .hash (Expr.mirroredPairs pairs)
  | .index left subscript => .index left.mirrored subscript.mirrored
  | .fn params body => .fn params (Stmt.mirroredAll body)
  | .call callee args => .call callee.mirrored (Expr.mirroredAll args)
  | .ident name => .ident name
  | .int i => .int i
  | .float x => .float x
  | .str s => .str s
  | .bool b => .bool b

/-- The expressions with every `a < b` written as `b > a`. -/
def Expr.mirroredAll : List Expr → List Expr
  | [] => []
  | e :: rest => e.mirrored :: Expr.mirroredAll rest

/-- The pairs with every `a < b` written as `b > a`. -/
def Expr.mirroredPairs : List (Expr × Expr) → List (Expr × Expr)
  | [] => []
  | (key, value) :: rest => (key.mirrored, value.mirrored) :: Expr.mirroredPairs rest

/-- The statement with every `a < b` written as `b > a`. -/
def Stmt.mirrored : Stmt → Stmt
  | .bind name value => .bind name value.mirrored
  | .assign name value => .assign name value.mirrored
  | .ret value => .ret value.mirrored
  | .expr value => .expr value.mirrored
  | .block body => .block (Stmt.mirroredAll body)
  | .loop init test post body =>
    .loop init.mirrored test.mirrored post.mirrored (Stmt.mirroredAll body)
  | .breakLoop => .breakLoop
  | .continueLoop => .continueLoop

/-- The statements with every `a < b` written as `b > a`. -/
def Stmt.mirroredAll : List Stmt → List Stmt
  | [] => []
  | s :: rest => s.mirrored :: Stmt.mirroredAll rest

/-- The branch with every `a < b` written as `b > a`, if there is one. -/
def Stmt.mirroredOption : Option (List Stmt) → Option (List Stmt)
  | none => none
  | some body => some (Stmt.mirroredAll body)

end

/-- The program with every `a < b` written as `b > a`. -/
def Program.mirrored (program : Program) : Program :=
  Stmt.mirroredAll program

/-! ## Names in loops -/

/-- The names that a statement itself binds. -/
def Stmt.binds : Stmt → List String
  | .bind name _ => [name]
  | _ => []

/-- The names that statements bind which are not bound yet. -/
def Stmt.pending (bound : List String) (body : List Stmt) : List String :=
  (body.flatMap Stmt.binds).filter fun name => !bound.contains name

section Plain

variable (table : BuiltinTable)

mutual

/-- Whether an expression is plain; no name of `later` may be mentioned. Outside of loops, which
`root` says, a `let` may stand in a branch. -/
def Expr.plain (root : Bool) (later : List String) : Expr → Bool
  | .ident name => !later.contains name
  | .int _ | .float _ | .str _ | .bool _ => true
  | .infixOp left _ right => left.plain root later && right.plain root later
  | .prefixOp _ operand => operand.plain root later
  | .cond test yes no =>
    test.plain root later && Stmt.plainAll root later yes && Stmt.plainOption root later no
  | .array elements => Expr.plainAll root later elements
  | .hash pairs => Expr.plainPairs root later pairs
  | .index left subscript => left.plain root later && subscript.plain root later
  | .fn _ _ => false
  | .call (.ident name) args =>
    (table.find? name).isSome && !later.contains name && Expr.plainAll root later args
  | .call _ _ => false

/-- Whether expressions are plain. -/
def Expr.plainAll (root : Bool) (later : List String) : List Expr → Bool
  | [] => true
  | e :: rest => e.plain root later && Expr.plainAll root later rest

/-- Whether pairs of expressions are plain. -/
def Expr.plainPairs (root : Bool) (later : List String) : List (Expr × Expr) → Bool
  | [] => true
  | (key, value) :: rest =>
    key.plain root later && value.plain root later && Expr.plainPairs root later rest

/-- Whether a statement is plain. It may be a `let` only where `direct` holds. -/
def Stmt.plain (root direct : Bool) (later : List String) : Stmt → Bool
  | .bind name value =>
    direct && (table.find? name).isNone && value.plain root later
  | .assign name value =>
    (table.find? name).isNone && !later.contains name && value.plain root later
  | .ret value | .expr value => value.plain root later
  | .block _ => false
  | .loop init test post body =>
    init.plain false true later
      && test.plain false (Stmt.pending init.binds body ++ later)
      && post.plain false false (Stmt.pending init.binds body ++ later)
      && Stmt.plainBody init.binds later body
  | .breakLoop | .continueLoop => true

/-- Whether the statements of a branch are plain, or those outside of all loops. -/
def Stmt.plainAll (root : Bool) (later : List String) : List Stmt → Bool
  | [] => true
  | s :: rest => s.plain root root later && Stmt.plainAll root later rest

/-- Whether a branch that may be missing is plain. -/
def Stmt.plainOption (root : Bool) (later : List String) : Option (List Stmt) → Bool
  | none => true
  | some body => Stmt.plainAll root later body

/-- Whether the rest of the body of a loop is plain, when the names of `bound` are bound by its
init part or in the body above. -/
def Stmt.plainBody (bound later : List String) : List Stmt → Bool
  | [] => true
  | s :: rest =>
    s.plain false true (Stmt.pending bound (s :: rest) ++ later)
      && Stmt.plainBody (s.binds ++ bound) later rest

end

/-- Whether a program is plain. -/
def Program.plain (program : Program) : Bool :=
  Stmt.plainAll table true [] program

end Plain

end Scriptlet
