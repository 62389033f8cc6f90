import Scriptlet.Proofs.Agreement.Expressions
import Scriptlet.Proofs.Evaluation.Effects

/-!
# Reading `<` backwards

Where the operands of every `<` are names, literals and operators on them, it does not matter which
one is evaluated first, unless one of them is refused: a program and its mirror image then have the
same value and the same effects (`mirrored_all`).

The statement is one-sided. If the program as written fails, its mirror image may fail otherwise: it
meets the fault of the right operand first, and the text of the fault speaks of `>`. So `Matches x
y` says that `y` does what `x` does unless `x` fails, and all that is to be shown of it is that it
is kept by every construction of the evaluator.
-/

namespace Scriptlet

/-! ## Steady programs

Two conditions, which can be checked: `still` is about an expression that stands next to `<`,
`steady` about a whole program. A still expression has no calls, so it neither prints nor changes a
variable. -/

/-- Whether an expression is made of names and literals by operators. Its evaluation leaves the
world as it is, which is `unmoved_of_still`. -/
def Expr.still : Expr → Bool
  | .ident _ | .int _ | .float _ | .str _ | .bool _ => true
  | .prefixOp _ operand => operand.still
  | .infixOp left _ right => left.still && right.still
  | .index left subscript => left.still && subscript.still
  | _ => false

mutual

/-- Whether both operands of every `<` are still. There are no functions and quotes, which would
keep the text of their bodies. -/
def Expr.steady : Expr → Bool
  | .infixOp left op right =>
    left.steady && right.steady && (op != .lt || (left.still && right.still))
  | .prefixOp _ operand => operand.steady
  | .cond test yes no =>
    test.steady && Stmt.steadyAll yes && Stmt.steadyOption no
  | .array elements => Expr.steadyAll elements
  | .hash pairs => Expr.steadyPairs pairs
  | .index left subscript => left.steady && subscript.steady
  | .fn _ _ => false
  | .call (.ident name) args => name != "quote" && Expr.steadyAll args
  | .call _ _ => false
  | .ident _ | .int _ | .float _ | .str _ | .bool _ => true

/-- Whether both operands of every `<` are still. -/
def Expr.steadyAll : List Expr → Bool
  | [] => true
  | e :: rest => e.steady && Expr.steadyAll rest

/-- Whether both operands of every `<` are still. -/
def Expr.steadyPairs : List (Expr × Expr) → Bool
  | [] => true
  | (key, value) :: rest => key.steady && value.steady && Expr.steadyPairs rest

/-- Whether both operands of every `<` are still. -/
def Stmt.steady : Stmt → Bool
  | .bind _ value | .assign _ value | .ret value | .expr value => value.steady
  | .block body => Stmt.steadyAll body
  | .loop init test post body =>
    init.steady && test.steady && post.steady && Stmt.steadyAll body
  | .breakLoop | .continueLoop => true

/-- Whether both operands of every `<` are still. -/
def Stmt.steadyAll : List Stmt → Bool
  | [] => true
  | s :: rest => s.steady && Stmt.steadyAll rest

/-- Whether both operands of every `<` are still. -/
def Stmt.steadyOption : Option (List Stmt) → Bool
  | none => true
  | some body => Stmt.steadyAll body

end

/-- Whether both operands of every `<` in a program are still. -/
def Program.steady (program : Program) : Bool :=
  Stmt.steadyAll program

namespace Evaluation

/-! ## Evaluations that are the same unless they fail

`Matches` is a preorder on evaluations that is compatible with `bind`. It is not symmetric, since
the first evaluation may fail where the second does not. -/

/-- A signal that ends the program without its value: a fault, or want of fuel. The other signals
are jumps and returns, which the evaluator looks at and goes on from. -/
def Signal.fatal : Signal → Bool
  | .halted (.fault _) | .outOfFuel => true
  | _ => false

/-- **Two evaluations do the same, unless the first one fails.** -/
def Matches {α : Type} (x y : Eval α) : Prop :=
  ∀ world, x world = y world
    ∨ ∃ signal world', signal.fatal = true ∧ x world = .error signal world'

section Matches

variable {α β : Type}

theorem Matches.ok {x y : Eval α} {value : α} {world world' : World} (h : Matches x y)
    (hx : x world = .ok value world') : y world = .ok value world' := by
  rcases h world with heq | ⟨signal, world'', -, herror⟩
  · rw [← heq, hx]
  · rw [hx] at herror
    cases herror

theorem Matches.refl (x : Eval α) : Matches x x :=
  fun _ => .inl rfl

/-- If the first parts match in every world and the rest matches for every value, then the whole
does. A failure of the first part is a failure of the whole. -/
theorem Matches.bind {x y : Eval α} {f g : α → Eval β} (h : Matches x y)
    (h' : ∀ value, Matches (f value) (g value)) : Matches (x >>= f) (y >>= g) := by
  intro world
  cases hx : x world with
  | ok value world' =>
    rw [bind_of_ok hx, bind_of_ok (h.ok hx)]
    exact h' value world'
  | error signal world' =>
    rw [bind_of_error hx]
    rcases h world with heq | ⟨signal', world'', hfatal, hx'⟩
    · rw [bind_of_error (heq.symm.trans hx)]
      exact .inl rfl
    · rw [hx] at hx'
      cases hx'
      exact .inr ⟨signal, world', hfatal, rfl⟩

/-- A computation whose signals are looked at. Fatal signals are thrown again by every construct
that looks at them, so they stay failures. -/
theorem Matches.caught {x y : Eval α} {f g : Except Signal α → Eval β} (h : Matches x y)
    (h' : ∀ result, Matches (f result) (g result))
    (hfatal : ∀ signal, signal.fatal = true → f (.error signal) = throw signal) :
    Matches (Evaluation.caught x >>= f) (Evaluation.caught y >>= g) := by
  intro world
  rcases h world with heq | ⟨signal, world', hsignal, hx⟩
  · have hcaught : Evaluation.caught y world = Evaluation.caught x world := by
      rw [Evaluation.caught, Evaluation.caught, heq]
    cases hx : Evaluation.caught x world with
    | ok result world' =>
      rw [bind_of_ok hx, bind_of_ok (hcaught.trans hx)]
      exact h' result world'
    | error signal world' =>
      rw [bind_of_error hx, bind_of_error (hcaught.trans hx)]
      exact .inl rfl
  -- a loop hands on what ends the program
  · have hcaught : Evaluation.caught x world = .ok (.error signal) world' := by
      rw [Evaluation.caught, hx]
    rw [bind_of_ok hcaught, hfatal signal hsignal]
    exact .inr ⟨signal, world', hsignal, rfl⟩

end Matches

/-! ## Still expressions

A still expression changes nothing, so two of them can be evaluated in either order. This is the one
place where the order of evaluation is exchanged. -/

section Still

variable {table : BuiltinTable}

/-- The result of an evaluation that leaves the world as it is and can only fail. -/
def Unmoved {α : Type} (x : Eval α) : Prop :=
  ∀ world, (∃ value, x world = .ok value world)
    ∨ ∃ signal, signal.fatal = true ∧ x world = .error signal world

theorem Unmoved.bind {α β : Type} {x : Eval α} {f : α → Eval β} (h : Unmoved x)
    (h' : ∀ value, Unmoved (f value)) : Unmoved (x >>= f) := by
  intro world
  rcases h world with ⟨value, hx⟩ | ⟨signal, hfatal, hx⟩
  · rw [bind_of_ok hx]
    exact h' value world
  · exact .inr ⟨signal, hfatal, bind_of_error hx f⟩

theorem Unmoved.ofExcept {α : Type} (result : Except Fault α) : Unmoved (ofExcept result) := by
  intro world
  cases result with
  | ok value => exact .inl ⟨value, rfl⟩
  | error fault => exact .inr ⟨.halted (.fault fault), rfl, rfl⟩

theorem Unmoved.identifier (env : Env) (name : String) : Unmoved (identifier table env name) := by
  refine Unmoved.bind (fun world => .inl ⟨_, rfl⟩) fun found world => ?_
  cases found with
  | some value => exact .inl ⟨value, rfl⟩
  | none =>
    cases hfind : table.find? name with
    | some builtin => exact .inl ⟨.builtin builtin, rfl⟩
    | none => exact .inr ⟨.halted (.fault (.unbound name)), rfl, rfl⟩

/-- **A still expression changes nothing.** Induction on the fuel, with a case for each constructor
that a still expression may have. -/
theorem unmoved_of_still {fuel : Nat} {env : Env} {e : Expr} (h : e.still) :
    Unmoved (expr table fuel env e) := by
  induction fuel generalizing e with
  | zero => exact fun world => .inr ⟨.outOfFuel, rfl, rfl⟩
  | succ fuel ih =>
    cases e with
    | ident name => exact .identifier env name
    | int i => exact fun world => .inl ⟨.int i, rfl⟩
    | float x => exact fun world => .inl ⟨.float x, rfl⟩
    | str s => exact fun world => .inl ⟨.str s, rfl⟩
    | bool b => exact fun world => .inl ⟨.bool b, rfl⟩
    | prefixOp op operand => exact (ih (e := operand) h).bind fun value => .ofExcept _
    | infixOp left op right =>
      simp only [Expr.still, Bool.and_eq_true] at h
      exact (ih h.1).bind fun l => (ih h.2).bind fun r => .ofExcept _
    | index left subscript =>
      simp only [Expr.still, Bool.and_eq_true] at h
      exact (ih h.1).bind fun l => (ih h.2).bind fun r => .ofExcept _
    | array _ | hash _ | cond _ _ _ | fn _ _ | call _ _ => exact absurd h (by simp [Expr.still])

end Still

/-! ## Programs and their mirror images

The only construct that differs in the mirror image is `<`. There the two operands change places,
and so do the two arguments of the operator. -/

/-- `a < b` is `b > a`, unless it is refused. If it is, then so is the other one, with a fault that
shows the other operator. -/
theorem infixOp_gt_of_lt {left right value : Value}
    (h : left.infixOp .lt right = .ok value) : right.infixOp .gt left = .ok value := by
  unfold Value.infixOp at h
  split at h
  · cases h
  · cases left with
    | int a =>
      cases right with
      | int b => exact h
      | _ => cases h
    | _ => cases h

section Mirror

variable {table : BuiltinTable} {fuel : Nat} {env : Env}

/-- **With still operands, their order does not matter.** Each operand leaves the world as it is, so
both orders compute the same two values in the same world; if one fails, then the program fails. -/
theorem Matches.lt {left right : Expr} (hleft : left.still) (hright : right.still)
    (h : Matches (expr table fuel env left) (expr table fuel env left.mirrored))
    (h' : Matches (expr table fuel env right) (expr table fuel env right.mirrored)) :
    Matches (expr table (fuel + 1) env (.infixOp left .lt right))
      (expr table (fuel + 1) env (.infixOp right.mirrored .gt left.mirrored)) := by
  intro world
  have hlt : expr table (fuel + 1) env (.infixOp left .lt right)
      = (expr table fuel env left >>= fun l => expr table fuel env right >>= fun r =>
        ofExcept (l.infixOp .lt r)) := rfl
  have hgt : expr table (fuel + 1) env (.infixOp right.mirrored .gt left.mirrored)
      = (expr table fuel env right.mirrored >>= fun r => expr table fuel env left.mirrored >>=
        fun l => ofExcept (r.infixOp .gt l)) := rfl
  rw [hlt, hgt]
  -- both leave the world as it is, so the second finds what the first one found
  rcases unmoved_of_still hleft world with ⟨l, hl⟩ | ⟨signal, hfatal, hl⟩
  · rw [bind_of_ok hl]
    rcases unmoved_of_still hright world with ⟨r, hr⟩ | ⟨signal, hfatal, hr⟩
    · rw [bind_of_ok hr, bind_of_ok (h'.ok hr), bind_of_ok (h.ok hl)]
      cases hresult : l.infixOp .lt r with
      | ok value => exact .inl (by rw [infixOp_gt_of_lt hresult])
      | error fault => exact .inr ⟨.halted (.fault fault), world, rfl, rfl⟩
    · exact .inr ⟨signal, world, hfatal, bind_of_error hr _⟩
  · exact .inr ⟨signal, world, hfatal, bind_of_error hl _⟩

end Mirror

/-! ## All programs

The recursion of the evaluator, which is on fuel. Every field is about one of its functions, and
every constructor but `<` is an application of `Matches.bind` to the fields. -/

/-- **Everything that is evaluated with so much fuel does the same as its mirror image, unless it
fails.** -/
structure Mirrored (table : BuiltinTable) (fuel : Nat) : Prop where
  expr (env : Env) (e : Expr) : e.steady →
    Matches (expr table fuel env e) (Evaluation.expr table fuel env e.mirrored)
  exprs (env : Env) (read : List Value) (es : List Expr) : Expr.steadyAll es →
    Matches (exprs table fuel env read es)
      (Evaluation.exprs table fuel env read (Expr.mirroredAll es))
  pairs (env : Env) (entries : List (Entry Value)) (pairs : List (Expr × Expr)) :
    Expr.steadyPairs pairs →
    Matches (pairsFrom table fuel env entries pairs)
      (pairsFrom table fuel env entries (Expr.mirroredPairs pairs))
  stmt (env : Env) (s : Stmt) : s.steady →
    Matches (stmt table fuel env s) (Evaluation.stmt table fuel env s.mirrored)
  stmts (env : Env) (last : Value) (body : List Stmt) : Stmt.steadyAll body →
    Matches (stmts table fuel env last body)
      (Evaluation.stmts table fuel env last (Stmt.mirroredAll body))
  iterate (env : Env) (test : Expr) (post : Stmt) (body : List Stmt) :
    test.steady → post.steady → Stmt.steadyAll body →
    Matches (iterate table fuel env test post body)
      (Evaluation.iterate table fuel env test.mirrored post.mirrored (Stmt.mirroredAll body))

section

variable {table : BuiltinTable} {fuel : Nat}

/-- Functions are excluded because their text is part of their value; a call of a name is a call of
the same name. -/
theorem Mirrored.expr_succ (h : Mirrored table fuel) (env : Env) (e : Expr) (hsteady : e.steady) :
    Matches (Evaluation.expr table (fuel + 1) env e)
      (Evaluation.expr table (fuel + 1) env e.mirrored) := by
  cases e with
  | ident _ | int _ | float _ | str _ | bool _ => exact .refl _
  | array elements => exact (h.exprs env [] elements hsteady).bind fun _ => .refl _
  | hash pairs => exact (h.pairs env [] pairs hsteady).bind fun _ => .refl _
  | prefixOp op operand => exact (h.expr env operand hsteady).bind fun _ => .refl _
  | infixOp left op right =>
    simp only [Expr.steady, Bool.and_eq_true, Bool.or_eq_true, bne_iff_ne] at hsteady
    obtain ⟨⟨hleft, hright⟩, hop⟩ := hsteady
    rw [Expr.mirrored]
    split
    -- a comparison that is turned round: as both sides are still, either order gives the same
    · rename_i heq
      subst heq
      obtain ⟨hstill, hstill'⟩ := hop.resolve_left (absurd rfl)
      exact Matches.lt hstill hstill' (h.expr env left hleft) (h.expr env right hright)
    · exact (h.expr env left hleft).bind fun _ => (h.expr env right hright).bind fun _ => .refl _
  | cond test yes no =>
    simp only [Expr.steady, Bool.and_eq_true] at hsteady
    obtain ⟨⟨htest, hyes⟩, hno⟩ := hsteady
    refine (h.expr env test htest).bind fun holds => ?_
    cases holds.truthy with
    | true => exact h.stmts env .null yes hyes
    | false =>
      cases no with
      | none => exact .refl _
      | some no => exact h.stmts env .null no hno
  | fn _ _ => exact absurd hsteady (by simp [Expr.steady])
  | call callee args =>
    cases callee with
    | ident name =>
      simp only [Expr.steady, Bool.and_eq_true, bne_iff_ne] at hsteady
      rw [Expr.mirrored, Expr.mirrored, expr_call_ident hsteady.1, expr_call_ident hsteady.1]
      exact (Matches.refl _).bind fun callee => (h.exprs env [] args hsteady.2).bind fun _ =>
        .refl _
    | _ => exact absurd hsteady (by simp [Expr.steady])
  | index left subscript =>
    simp only [Expr.steady, Bool.and_eq_true] at hsteady
    exact (h.expr env left hsteady.1).bind fun _ =>
      (h.expr env subscript hsteady.2).bind fun _ => .refl _

theorem Mirrored.stmt_succ (h : Mirrored table fuel) (env : Env) (s : Stmt) (hsteady : s.steady) :
    Matches (Evaluation.stmt table (fuel + 1) env s)
      (Evaluation.stmt table (fuel + 1) env s.mirrored) := by
  cases s with
  | expr value => exact h.expr env value hsteady
  | bind name value => exact (h.expr env value hsteady).bind fun _ => .refl _
  | assign name value => exact (h.expr env value hsteady).bind fun _ => .refl _
  | ret value => exact (h.expr env value hsteady).bind fun _ => .refl _
  | block body => exact (Matches.refl _).bind fun env => h.stmts env .null body hsteady
  | loop init test post body =>
    simp only [Stmt.steady, Bool.and_eq_true] at hsteady
    obtain ⟨⟨⟨hinit, htest⟩, hpost⟩, hbody⟩ := hsteady
    exact (Matches.refl _).bind fun env => (h.stmt env init hinit).bind fun _ =>
      h.iterate env test post body htest hpost hbody
  | breakLoop | continueLoop => exact .refl _

/-- An iteration, whose signals are looked at twice: those of the body, and those of the rest of the
loop. -/
theorem Mirrored.iterate_succ (h : Mirrored table fuel) (env : Env) {test : Expr} {post : Stmt}
    {body : List Stmt} (htest : test.steady) (hpost : post.steady) (hbody : Stmt.steadyAll body) :
    Matches (Evaluation.iterate table (fuel + 1) env test post body)
      (Evaluation.iterate table (fuel + 1) env test.mirrored post.mirrored
        (Stmt.mirroredAll body)) := by
  refine (h.expr env test htest).bind fun holds => ?_
  cases holds.truthy with
  | false => exact .refl _
  | true =>
    refine (h.stmts env .null body hbody).caught (fun result => ?_) fun signal hfatal => ?_
    · have hnext := (h.stmt env post hpost).bind fun _ => h.iterate env test post body htest hpost
        hbody
      match result with
      | .ok _ | .error .continueLoop => exact hnext
      | .error .breakLoop | .error (.returned _) | .error (.halted _) | .error .outOfFuel =>
        exact .refl _
    · cases signal with
      | breakLoop | continueLoop => exact absurd hfatal (by decide)
      | _ => rfl

theorem Mirrored.succ (h : Mirrored table fuel) : Mirrored table (fuel + 1) where
  expr := h.expr_succ
  exprs env read es hsteady := by
    cases es with
    | nil => exact .refl _
    | cons e rest =>
      simp only [Expr.steadyAll, Bool.and_eq_true] at hsteady
      exact (h.expr env e hsteady.1).bind fun value =>
        h.exprs env (value :: read) rest hsteady.2
  pairs env entries pairs hsteady := by
    cases pairs with
    | nil => exact .refl _
    | cons pair rest =>
      simp only [Expr.steadyPairs, Bool.and_eq_true] at hsteady
      obtain ⟨⟨hkey, hvalue⟩, hrest⟩ := hsteady
      -- a key that is refused ends the hash before the value is evaluated, on both sides
      refine (h.expr env pair.1 hkey).bind fun shown => ?_
      cases shown.key? with
      | none => exact .refl _
      | some key =>
        exact (h.expr env pair.2 hvalue).bind fun value =>
          h.pairs env (Entry.insert ⟨key, shown, value⟩ entries) rest hrest
  stmt := h.stmt_succ
  stmts env last body hsteady := by
    cases body with
    | nil => exact .refl _
    | cons s rest =>
      simp only [Stmt.steadyAll, Bool.and_eq_true] at hsteady
      exact (h.stmt env s hsteady.1).bind fun value => h.stmts env value rest hsteady.2
  iterate env _ _ _ := h.iterate_succ env

/-- Induction on the fuel. -/
theorem mirrored_all (table : BuiltinTable) (fuel : Nat) : Mirrored table fuel := by
  induction fuel with
  | zero =>
    exact ⟨fun _ _ _ => .refl _, fun _ _ _ _ => .refl _, fun _ _ _ _ => .refl _,
      fun _ _ _ => .refl _, fun _ _ _ _ => .refl _, fun _ _ _ _ _ _ _ => .refl _⟩
  | succ fuel ih => exact ih.succ

end

end Evaluation

end Scriptlet
