import Scriptlet.Proofs.Agreement.Loops

/-!
# The machine follows the evaluation

The lemmas about the kinds of expressions and statements, put together by induction on the fuel of
the evaluation: `follows_all`.

The induction is on fuel and not on the syntax because of loops: an iteration is followed by the
whole loop again, with less fuel and the same syntax. Without fuel the evaluation ends with the
signal that it has run out, for which `Fails` asks nothing.
-/

namespace Scriptlet

open Evaluation

/-- **The machine follows every evaluation with so much fuel.** One field for each function of the
evaluator, and two for the statements that stand directly in a loop, which are followed in another
way than those of a branch. -/
structure Follows (exe : Executable) (table : BuiltinTable) (final : Symbols) (fuel : Nat) :
    Prop where
  expr (e : Expr) : ExprFollows exe table final fuel e
  exprs (es : List Expr) : ExprsFollow exe table final fuel es
  pairs (pairs : List (Expr × Expr)) : PairsFollow exe table final fuel pairs
  stmt (s : Stmt) : StmtFollows exe table final fuel s
  stmts (body : List Stmt) : StmtsFollow exe table final fuel body
  direct (s : Stmt) : DirectFollows exe table final fuel s
  body (body : List Stmt) : BodyFollows exe table final fuel body
  iterate (test : Expr) (post : Stmt) (body : List Stmt) :
    IterateFollows exe table final fuel test post body

section

variable {exe : Executable} {table : BuiltinTable} {final : Symbols} {fuel : Nat}

/-- Without fuel an evaluation is over at once. -/
theorem follows_zero : Follows exe table final 0 where
  expr _ := fun _ _ _ _ _ _ _ _ _ _ _ _ _ _ _ => trivial
  exprs _ := fun _ _ _ _ _ _ _ _ _ _ _ _ _ _ _ _ => trivial
  pairs _ := fun _ _ _ _ _ _ _ _ _ _ _ _ _ _ _ _ => trivial
  stmt _ := fun _ _ _ _ _ _ _ _ _ _ _ _ _ _ _ _ _ _ _ => trivial
  stmts _ := fun _ _ _ _ _ _ _ _ _ _ _ _ _ _ _ _ _ _ => trivial
  direct _ := fun _ _ _ _ _ _ _ _ _ _ _ _ _ _ _ _ _ _ _ _ => trivial
  body _ := fun _ _ _ _ _ _ _ _ _ _ _ _ _ _ _ _ _ _ _ _ _ _ _ _ _ => trivial
  iterate _ _ _ := fun _ _ _ _ _ _ _ _ _ _ _ _ _ _ _ _ _ => trivial

/-- One line for each constructor of an expression. Functions are not plain, so a call is a call of
a name. -/
theorem Follows.expr_succ (h : Follows exe table final fuel)
    (hglobals : exe.globals = final.globals) (hfew : table.length ≤ 256) (e : Expr) :
    ExprFollows exe table final (fuel + 1) e := by
  cases e with
  | ident name => exact .ident hglobals hfew name
  | int i => exact .int i
  | float x => exact .float x
  | str s => exact .str s
  | bool v => exact .bool v
  | array elements => exact .array (h.exprs elements)
  | hash pairs => exact .hash (h.pairs pairs)
  | prefixOp op operand => exact .prefixOp (h.expr operand)
  | infixOp left op right => exact .infixOp (h.expr left) (h.expr right)
  | cond test yes no => exact .cond (h.expr test) (h.stmts yes) fun body _ => h.stmts body
  | fn params body =>
    exact fun _ _ _ _ _ _ _ _ _ hplain => absurd hplain (by simp [Expr.plain])
  | call callee args =>
    cases callee with
    | ident name => exact .call hglobals hfew (h.exprs args)
    | _ => exact fun _ _ _ _ _ _ _ _ _ hplain => absurd hplain (by simp [Expr.plain])
  | index left subscript => exact .index (h.expr left) (h.expr subscript)

/-- One line for each constructor of a statement. -/
theorem Follows.stmt_succ (h : Follows exe table final fuel) (s : Stmt) :
    StmtFollows exe table final (fuel + 1) s := by
  cases s with
  | bind name value => exact .bind (h.expr value)
  | assign name value => exact .assign (h.expr value)
  | ret value => exact .ret (h.expr value)
  | expr value => exact .expr (h.expr value)
  | block body =>
    exact fun _ _ _ _ _ _ _ _ _ _ _ hplain => absurd hplain (by simp [Stmt.plain])
  | loop init test post body => exact .loop (h.direct init) (h.iterate test post body)
  | breakLoop => exact .breakLoop
  | continueLoop => exact .continueLoop

theorem Follows.succ (h : Follows exe table final fuel) (hglobals : exe.globals = final.globals)
    (hfew : table.length ≤ 256) : Follows exe table final (fuel + 1) where
  expr := h.expr_succ hglobals hfew
  exprs es := by
    cases es with
    | nil => exact .nil
    | cons e rest => exact .cons (h.expr e) (h.exprs rest)
  pairs pairs := by
    cases pairs with
    | nil => exact .nil
    | cons pair rest => exact .cons (h.expr pair.1) (h.expr pair.2) (h.pairs rest)
  stmt := h.stmt_succ
  stmts body := by
    cases body with
    | nil => exact .nil
    | cons s rest => exact .cons (h.stmt s) (h.stmts rest)
  direct s := by
    cases s with
    | bind name value => exact .bind (h.expr value)
    | _ => exact .of_stmt rfl (h.stmt_succ _)
  body body := by
    cases body with
    | nil => exact .nil
    | cons s rest => exact .cons (h.direct s) (h.body rest)
  iterate test post body :=
    .succ (h.expr test) (h.stmt post) (h.body body) (h.iterate test post body)

/-- **The machine follows the evaluation**, with any fuel. -/
theorem follows_all (hglobals : exe.globals = final.globals) (hfew : table.length ≤ 256)
    (fuel : Nat) : Follows exe table final fuel := by
  -- all kinds at once, since each of them evaluates the others with less fuel
  induction fuel with
  | zero => exact follows_zero
  | succ fuel ih => exact ih.succ hglobals hfew

end

end Scriptlet
