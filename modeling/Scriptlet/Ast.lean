import Scriptlet.Token

/-!
# Abstract programs

Statements and expressions of the language. A program and the body of a function, a branch or a loop
are lists of statements. An operator is kept as the token that was read for it, whatever that token
is: evaluation and compilation decide which tokens they accept.

`Expr.same` and `Stmt.same` compare trees part by part. They are no equality on trees with floats in
them, since a float that is not a number differs from itself.
-/

namespace Scriptlet

mutual

/-- An expression. -/
inductive Expr where
  | ident (name : String)
  | int (value : Int64)
  | float (value : Float)
  | str (value : String)
  | bool (value : Bool)
  | array (elements : List Expr)
  /-- A hash literal, its pairs in the order of the source. -/
  | hash (pairs : List (Expr × Expr))
  | prefixOp (op : Token) (operand : Expr)
  | infixOp (left : Expr) (op : Token) (right : Expr)
  | cond (test : Expr) (yes : List Stmt) (no : Option (List Stmt))
  | fn (params : List String) (body : List Stmt)
  | call (callee : Expr) (args : List Expr)
  | index (left : Expr) (subscript : Expr)

/-- A statement. -/
inductive Stmt where
  /-- Binds a name in the innermost scope. -/
  | bind (name : String) (value : Expr)
  /-- Stores into the nearest binding of a name. -/
  | assign (name : String) (value : Expr)
  | ret (value : Expr)
  | expr (value : Expr)
  | block (body : List Stmt)
  | loop (init : Stmt) (test : Expr) (post : Stmt) (body : List Stmt)
  | breakLoop
  | continueLoop

end

instance : Inhabited Expr := ⟨.bool false⟩
instance : Inhabited Stmt := ⟨.breakLoop⟩

/-- A program is a list of statements. -/
abbrev Program := List Stmt

mutual

/-- Whether two expressions are built alike from equal leaves. -/
def Expr.same : Expr → Expr → Bool
  | .ident a, .ident b => a == b
  | .int a, .int b => a == b
  | .float a, .float b => a == b
  | .str a, .str b => a == b
  | .bool a, .bool b => a == b
  | .array as, .array bs => Expr.sameList as bs
  | .hash as, .hash bs => Expr.samePairs as bs
  | .prefixOp o a, .prefixOp p b => o == p && a.same b
  | .infixOp a o c, .infixOp b p d => a.same b && o == p && c.same d
  | .cond a as x, .cond b bs y => a.same b && Stmt.sameList as bs && Stmt.sameOption x y
  | .fn ps as, .fn qs bs => ps == qs && Stmt.sameList as bs
  | .call a as, .call b bs => a.same b && Expr.sameList as bs
  | .index a c, .index b d => a.same b && c.same d
  | _, _ => false

/-- Whether two lists of expressions agree element by element. -/
def Expr.sameList : List Expr → List Expr → Bool
  | [], [] => true
  | a :: as, b :: bs => a.same b && Expr.sameList as bs
  | _, _ => false

/-- Whether two lists of pairs agree pair by pair. -/
def Expr.samePairs : List (Expr × Expr) → List (Expr × Expr) → Bool
  | [], [] => true
  | (a, c) :: as, (b, d) :: bs => a.same b && c.same d && Expr.samePairs as bs
  | _, _ => false

/-- Whether two statements are built alike from equal leaves. -/
def Stmt.same : Stmt → Stmt → Bool
  | .bind n a, .bind m b => n == m && a.same b
  | .assign n a, .assign m b => n == m && a.same b
  | .ret a, .ret b => a.same b
  | .expr a, .expr b => a.same b
  | .block as, .block bs => Stmt.sameList as bs
  | .loop a c p as, .loop b d q bs => a.same b && c.same d && p.same q && Stmt.sameList as bs
  | .breakLoop, .breakLoop => true
  | .continueLoop, .continueLoop => true
  | _, _ => false

/-- Whether two lists of statements agree statement by statement. -/
def Stmt.sameList : List Stmt → List Stmt → Bool
  | [], [] => true
  | a :: as, b :: bs => a.same b && Stmt.sameList as bs
  | _, _ => false

/-- Whether two branches are both missing or agree. -/
def Stmt.sameOption : Option (List Stmt) → Option (List Stmt) → Bool
  | none, none => true
  | some as, some bs => Stmt.sameList as bs
  | _, _ => false

end

end Scriptlet
