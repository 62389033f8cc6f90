import Mathlib.Data.Int.ModEq
import Scriptlet.Proofs.Agreement

/-!
# Arithmetic

Integer arithmetic wraps around at every node of an expression, in both backends. The result is the
64-bit integer that is congruent to the value of the tree in unbounded integers, however deep the
tree is (`arithmetic_wraps`). Quotients and comparisons do not commute with wrapping, so they are
those of the wrapped operands.

Wrapping at every node comes to wrapping once at the end because it is a ring homomorphism
(`Operator.infixInt_ofInt`). That fact is about two integers; the tree is an induction on top of it,
once for the evaluator and once for the machine.
-/

namespace Scriptlet

/-! ## Trees

`Arith` has only the operators that commute with wrapping. The others may be asked once, at the root
of a tree (`Question`). -/

namespace Arith

/-- An operator that commutes with wrapping. -/
inductive Operator where
  | add
  | sub
  | mul

namespace Operator

/-- The token that an operator is written as. -/
def token : Operator → Token
  | add => .plus
  | sub => .minus
  | mul => .asterisk

/-- An operator on unbounded integers. -/
def onInt : Operator → Int → Int → Int
  | add, a, b => a + b
  | sub, a, b => a - b
  | mul, a, b => a * b

end Operator

end Arith

/-- A tree of arithmetic over integer literals. -/
inductive Arith where
  | literal (value : Int64)
  | negation (operand : Arith)
  | operation (op : Arith.Operator) (left right : Arith)

namespace Arith

/-- A tree as an expression. -/
def expr : Arith → Expr
  | literal i => .int i
  | negation operand => .prefixOp .minus operand.expr
  | operation op left right => .infixOp left.expr op.token right.expr

/-- The value of a tree in unbounded integers. -/
def value : Arith → Int
  | literal i => i.toInt
  | negation operand => -operand.value
  | operation op left right => op.onInt left.value right.value

/-- The height of a tree. -/
def height : Arith → Nat
  | literal _ => 1
  | negation operand => operand.height + 1
  | operation _ left right => max left.height right.height + 1

/-- An operator that is asked at the root of a tree. -/
inductive Question where
  | div
  | greater
  | less
  | equal
  | notEqual

namespace Question

/-- The token that an operator is written as. -/
def token : Question → Token
  | div => .slash
  | greater => .gt
  | less => .lt
  | equal => .eq
  | notEqual => .notEq

/-- **What an operator gives for two 64-bit integers**, said of their unbounded values. A quotient
is rounded towards zero, and there is none by zero nor where it would not fit. -/
def Gives (a b : Int) : Question → Except Fault Value → Prop
  | div, result =>
    if b = 0 ∨ a = -2 ^ 63 ∧ b = -1 then result = .error .divisionByZero
    else ∃ q : Int64, q.toInt = a.tdiv b ∧ result = .ok (.int q)
  | greater, result => result = .ok (.bool (decide (a > b)))
  | less, result => result = .ok (.bool (decide (a < b)))
  | equal, result => result = .ok (.bool (decide (a = b)))
  | notEqual, result => result = .ok (.bool (decide (a ≠ b)))

end Question

/-- **A 64-bit integer stands for an unbounded one**: it is in range and congruent to it. -/
def Wraps (n : Int64) (x : Int) : Prop :=
  -2 ^ 63 ≤ n.toInt ∧ n.toInt < 2 ^ 63 ∧ n.toInt ≡ x [ZMOD 2 ^ 64]

end Arith

/-- **A program comes to a result in both backends**, from any surroundings, which it leaves as they
are; the machine may run out of room on its stack. -/
def Program.ComesTo (table : BuiltinTable) (prog : Program) (result : Except Fault Value) : Prop :=
  ∀ host, (∃ least, ∀ fuel ≥ least,
      Evaluation.answerOf table fuel host prog = some ⟨result.mapError .fault, host⟩)
    ∧ ∀ exe, Compilation.program table prog = .ok exe →
      (Machine.load exe table host).Overflows
        ∨ ∃ n, Machine.answer? (Machine.run n (Machine.load exe table host))
          = some ⟨result.mapError .fault, host⟩

namespace Arith

/-! ## Wrapping

The one fact about integers, and what the other operators give. -/

theorem wraps_ofInt (x : Int) : Wraps (Int64.ofInt x) x := by
  refine ⟨Int64.le_toInt _, Int64.toInt_lt _, ?_⟩
  rw [Int64.toInt_ofInt]
  exact Int.bmod_emod

/-- The operators on values do to wrapped integers what they do to unbounded ones. -/
theorem Operator.infixInt_ofInt (op : Operator) (a b : Int) :
    Value.infixInt op.token (Int64.ofInt a) (Int64.ofInt b)
      = .ok (.int (Int64.ofInt (op.onInt a b))) := by
  cases op with
  | add => exact congrArg (fun i => Except.ok (Value.int i)) (Int64.ofInt_add a b).symm
  | sub => exact congrArg (fun i => Except.ok (Value.int i)) (Int64.ofInt_sub a b).symm
  | mul => exact congrArg (fun i => Except.ok (Value.int i)) (Int64.ofInt_mul a b).symm

theorem Operator.token_ne_lt (op : Operator) : op.token ≠ .lt := by
  cases op <;> decide

/-- A quotient is exact unless there is none. -/
theorem quotient?_eq (a b : Int64) :
    (Value.quotient? a b = none ∧ (b.toInt = 0 ∨ a.toInt = -2 ^ 63 ∧ b.toInt = -1))
      ∨ ∃ q : Int64, Value.quotient? a b = some q ∧ q.toInt = a.toInt.tdiv b.toInt
        ∧ ¬(b.toInt = 0 ∨ a.toInt = -2 ^ 63 ∧ b.toInt = -1) := by
  have hzero : b = 0 ↔ b.toInt = 0 := Int64.toInt_inj.symm
  have hleast : a = Int64.minValue ↔ a.toInt = -2 ^ 63 := Int64.toInt_inj.symm
  have hminus : b = -1 ↔ b.toInt = -1 := Int64.toInt_inj.symm
  unfold Value.quotient?
  by_cases h : b = 0 ∨ a = Int64.minValue ∧ b = -1
  · rw [if_pos h]
    exact .inl ⟨rfl, by rwa [hzero, hleast, hminus] at h⟩
  · rw [if_neg h]
    refine .inr ⟨a / b, rfl, ?_, by rwa [hzero, hleast, hminus] at h⟩
    by_cases ha : a = Int64.minValue
    · exact Int64.toInt_div_of_ne_right a b fun hb => h (.inr ⟨ha, hb⟩)
    · exact Int64.toInt_div_of_ne_left a b ha

theorem Question.gives_infixInt (op : Question) (a b : Int64) :
    op.Gives a.toInt b.toInt (Value.infixInt op.token a b) := by
  cases op with
  | div =>
    show if _ then _ else _
    simp only [Value.infixInt, token]
    rcases quotient?_eq a b with ⟨hnone, h⟩ | ⟨q, hsome, hq, h⟩
    · rw [if_pos h, hnone]
    · rw [if_neg h, hsome]
      exact ⟨q, hq, rfl⟩
  | greater | less =>
    refine congrArg (fun v => Except.ok (Value.bool v)) ?_
    exact decide_eq_decide.mpr Int64.lt_iff_toInt_lt
  | equal =>
    refine congrArg (fun v => Except.ok (Value.bool v)) ?_
    rw [Bool.eq_iff_iff, beq_iff_eq, decide_eq_true_iff, Int64.toInt_inj]
  | notEqual =>
    refine congrArg (fun v => Except.ok (Value.bool v)) ?_
    rw [Bool.eq_iff_iff, bne_iff_ne, decide_eq_true_iff, ne_eq, ne_eq, Int64.toInt_inj]

end Arith

theorem Value.infixOp_int (op : Token) (a b : Int64) :
    (Value.int a).infixOp op (.int b) = infixInt op a b := by
  unfold infixOp
  rw [if_neg (by simp [kind])]

/-! ## Evaluation

An expression without names settles: with enough fuel it comes to the same result in every
environment and every world. -/

namespace Evaluation

/-- Wherever an expression is evaluated, with enough fuel, it has a result and no effect. -/
def Settles (table : BuiltinTable) (e : Expr) (least : Nat) (result : Except Fault Value) : Prop :=
  ∀ fuel ≥ least, ∀ env world, expr table fuel env e world = ofExcept result world

variable {table : BuiltinTable} {left right : Expr} {a b : Value} {least least' : Nat}

theorem Settles.infixOp (hleft : Settles table left least (.ok a))
    (hright : Settles table right least' (.ok b)) (op : Token) :
    Settles table (.infixOp left op right) (max least least' + 1) (a.infixOp op b) := by
  intro fuel hfuel env world
  obtain ⟨fuel, rfl⟩ : ∃ k, fuel = k + 1 := ⟨fuel - 1, by omega⟩
  have hleft := hleft fuel (by omega) env world
  have hright := hright fuel (by omega) env world
  rw [expr, bind_of_ok hleft, bind_of_ok hright]

theorem settles_tree (t : Arith) :
    Settles table t.expr t.height (.ok (.int (Int64.ofInt t.value))) := by
  induction t with
  | literal i =>
    intro fuel hfuel env world
    obtain ⟨fuel, rfl⟩ : ∃ k, fuel = k + 1 := ⟨fuel - 1, Nat.eq_add_of_sub_eq hfuel rfl⟩
    rw [Arith.expr, expr, Arith.value, Int64.ofInt_toInt]
    rfl
  | negation operand ih =>
    intro fuel hfuel env world
    obtain ⟨fuel, rfl⟩ : ∃ k, fuel = k + 1 :=
      ⟨fuel - 1, by simp only [Arith.height] at hfuel; omega⟩
    have hoperand := ih fuel (by simp only [Arith.height] at hfuel; omega) env world
    rw [Arith.expr, expr, bind_of_ok hoperand, Arith.value, Int64.ofInt_neg]
    rfl
  | operation op left right ihleft ihright =>
    have h := ihleft.infixOp ihright op.token
    rwa [Value.infixOp_int, op.infixInt_ofInt] at h

theorem Settles.answerOf {e : Expr} {result : Except Fault Value} (h : Settles table e least result)
    (host : Host) {fuel : Nat} (hfuel : least + 2 ≤ fuel) :
    Evaluation.answerOf table fuel host [.expr e] = some ⟨result.mapError .fault, host⟩ := by
  obtain ⟨fuel, rfl⟩ : ∃ k, fuel = k + 2 := ⟨fuel - 2, by omega⟩
  have he := h fuel (by omega) .root (.initial host)
  unfold Evaluation.answerOf
  rw [stmts, stmt]
  cases result with
  | ok value =>
    rw [bind_of_ok he]
    rfl
  | error fault =>
    rw [bind_of_error he]
    rfl

end Evaluation

/-! ## The machine

The same for the code of an expression, wherever it stands: it is run at the top level and leaves
its value on the stack. Only the room on the stack is not the expression's own. -/

namespace Machine

section

variable {exe : Executable} {table : BuiltinTable} {exit : Option Exit} {d : Nat} {x y : Point}
  {p : Nat} {ops : List Value} {globals : Memory (Option Value)} {host : Host} {m : Machine}
  {left right : Expr} {a b : Value} {result : Except Fault Value}

/-- **Wherever the code of an expression is run, it leaves a value** and has no other effect. -/
def Leaves (exe : Executable) (table : BuiltinTable) (e : Expr) (value : Value) : Prop :=
  ∀ (exit : Option Exit) (d : Nat) (x y : Point) (ops : List Value)
    (globals : Memory (Option Value)) (host : Host) (m : Machine),
    ExprAt exe.code exe.constants exit d e x y →
    TopLevel exe table x.position ops globals host m →
    m.Arrives (TopLevel exe table y.position (value :: ops) globals host)

theorem Arrives.results {goal : Machine → Prop} (h : m.Arrives goal)
    (h' : ∀ m', goal m' → Results exe table p ops globals host m' result) :
    m.Overflows ∨ Results exe table p ops globals host m result := by
  rcases h with hover | ⟨m', hruns, hgoal⟩
  · exact .inl hover
  · have hresults := h' m' hgoal
    cases result with
    | ok value => exact .inr (.before hruns hresults)
    | error fault => exact .inr (hresults.before hruns)

theorem results_infixOp (hleft : Leaves exe table left a) (hright : Leaves exe table right b)
    {op : Token} (hcode : ExprAt exe.code exe.constants exit d (.infixOp left op right) x y)
    (hm : TopLevel exe table x.position ops globals host m) (hop : op ≠ .lt) :
    m.Overflows ∨ Results exe table y.position ops globals host m (a.infixOp op b) := by
  rw [ExprAt, if_neg hop] at hcode
  obtain ⟨o, x₁, x₂, ho, hx₁, hx₂, hinstr, rfl⟩ := hcode
  obtain ⟨rfl, hwidths, hperform⟩ := infix_operation ho
  have hboth := (hleft _ _ _ _ _ _ _ _ hx₁ hm).bind fun m₁ => hright _ _ _ _ _ _ _ m₁ hx₂
  exact hboth.results fun m' hm' => hm'.binary hinstr hwidths hperform

/-- The operands of `<` are on the stack in reverse. -/
theorem results_lt {a b : Int64} (hleft : Leaves exe table left (.int a))
    (hright : Leaves exe table right (.int b))
    (hcode : ExprAt exe.code exe.constants exit d (.infixOp left .lt right) x y)
    (hm : TopLevel exe table x.position ops globals host m) :
    m.Overflows
      ∨ Results exe table y.position ops globals host m ((Value.int a).infixOp .lt (.int b)) := by
  rw [ExprAt, if_pos rfl] at hcode
  obtain ⟨x₁, x₂, hx₁, hx₂, hinstr, rfl⟩ := hcode
  have hboth := (hright _ _ _ _ _ _ _ _ hx₁ hm).bind fun m₁ => hleft _ _ _ _ _ _ _ m₁ hx₂
  refine hboth.results fun m' hm' => ?_
  exact hm'.binary hinstr rfl rfl

theorem leaves_tree (t : Arith) : Leaves exe table t.expr (.int (Int64.ofInt t.value)) := by
  induction t with
  | literal i =>
    intro exit d x y ops globals host m hcode hm
    obtain ⟨hfew, hvalue, hinstr, rfl⟩ := hcode
    rw [Arith.value, Int64.ofInt_toInt]
    exact hm.constant hinstr (by unfold Compilation.maxConstants at hfew; omega) hvalue
  | negation operand ih =>
    intro exit d x y ops globals host m hcode hm
    rw [Arith.expr, ExprAt] at hcode
    obtain ⟨o, x₁, ho, hx₁, hinstr, rfl⟩ := hcode
    obtain ⟨hwidths, hperform⟩ := prefix_operation ho
    refine (ih _ _ _ _ _ _ _ _ hx₁ hm).bind fun m₁ hm₁ => ?_
    have hunary := hm₁.unary hinstr hwidths hperform
    rw [Arith.value, Int64.ofInt_neg]
    exact hunary
  | operation op left right ihleft ihright =>
    intro exit d x y ops globals host m hcode hm
    have hresults := results_infixOp ihleft ihright hcode hm op.token_ne_lt
    rw [Value.infixOp_int, op.infixInt_ofInt] at hresults
    exact hresults.elim .inl id

/-- **A program of one expression comes to the result of the expression.** The value is dropped at
its end, and found in the slot above the stack. -/
theorem answers_expr {e : Expr} (h : Compilation.program table [.expr e] = .ok exe) (host : Host)
    (hresults : ∀ (x y : Point) (globals : Memory (Option Value)) (m : Machine),
      ExprAt exe.code exe.constants none 0 e x y →
      TopLevel exe table x.position [] globals host m →
      m.Overflows ∨ Results exe table y.position [] globals host m result) :
    (load exe table host).Overflows
      ∨ ∃ n, answer? (run n (load exe table host)) = some ⟨result.mapError .fault, host⟩ := by
  obtain ⟨symbols, -, -, hlaid⟩ := Compilation.program_laid h
  rw [StmtsAt] at hlaid
  obtain ⟨y, hlaid⟩ := hlaid
  rw [if_pos (show Stmt.closingList [] = .nothing from rfl), StmtAt, StmtsAt] at hlaid
  obtain ⟨⟨x, hx, hpop, hy⟩, rfl⟩ := hlaid
  rcases hresults _ _ _ _ hx (topLevel_load exe table host) with hover | hresult
  · exact .inl hover
  cases result with
  | ok value =>
    have hsize : exe.code.size = x.position + Op.pop.size := congrArg Point.position hy
    -- the value is popped again, and behind that is the end of the code
    have hhalts : (load exe table host).Halts .finished fun m' =>
        m'.lastPopped = value ∧ m'.host = host := by
      refine Arrives.halts (Arrives.bind hresult fun m' hm' => hm'.pop hpop) fun m' hm' => .inr ?_
      obtain ⟨htop, hread⟩ := hm'
      rw [← hsize] at htop
      exact htop.finishes ⟨htop.lastPopped_eq (by decide) hread, htop.host⟩
    refine hhalts.answers fun m' hm' => ?_
    rw [answer?, hm'.1, hm'.2]
    rfl
  | error fault =>
    obtain ⟨n, m', hrun, hhost⟩ := hresult
    refine .inr ⟨n, ?_⟩
    rw [hrun, answer?, hhost]
    rfl

end

end Machine

/-! ## Both backends

Put together from both sides, for trees and for questions asked of two trees. -/

/-- **Arithmetic is exact modulo `2 ^ 64` in both backends**, however often it wraps around inside
of a tree. A quotient or a comparison at the root is that of the wrapped operands. -/
theorem arithmetic_wraps (table : BuiltinTable) :
    (∀ t : Arith, ∃ n : Int64, Arith.Wraps n t.value
      ∧ Program.ComesTo table [.expr t.expr] (.ok (.int n)))
    ∧ ∀ (left right : Arith) (op : Arith.Question), ∃ (a b : Int64) (result : Except Fault Value),
      Arith.Wraps a left.value ∧ Arith.Wraps b right.value
      ∧ op.Gives a.toInt b.toInt result
      ∧ Program.ComesTo table [.expr (.infixOp left.expr op.token right.expr)] result := by
  refine ⟨fun t => ⟨Int64.ofInt t.value, Arith.wraps_ofInt _, fun host => ⟨?_, fun exe hexe => ?_⟩⟩,
    fun left right op => ⟨Int64.ofInt left.value, Int64.ofInt right.value, _,
      Arith.wraps_ofInt _, Arith.wraps_ofInt _, op.gives_infixInt _ _,
      fun host => ⟨?_, fun exe hexe => ?_⟩⟩⟩
  · exact ⟨_, fun fuel hfuel => (Evaluation.settles_tree t).answerOf host hfuel⟩
  · exact Machine.answers_expr hexe host fun _ _ _ _ hx hm =>
      .inr (Machine.leaves_tree t _ _ _ _ _ _ _ _ hx hm)
  · have hleft : Evaluation.Settles table left.expr left.height _ := Evaluation.settles_tree left
    have h := hleft.infixOp (Evaluation.settles_tree right) op.token
    rw [Value.infixOp_int] at h
    exact ⟨_, fun fuel hfuel => h.answerOf host hfuel⟩
  · rw [← Value.infixOp_int]
    refine Machine.answers_expr hexe host fun _ _ _ _ hx hm => ?_
    -- `left < right` has been compiled as `right > left`
    by_cases hop : op.token = .lt
    · rw [hop] at hx ⊢
      exact Machine.results_lt (Machine.leaves_tree left) (Machine.leaves_tree right) hx hm
    · exact Machine.results_infixOp (Machine.leaves_tree left) (Machine.leaves_tree right) hx hm hop

end Scriptlet
