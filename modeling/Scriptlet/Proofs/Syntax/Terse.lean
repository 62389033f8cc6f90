import Scriptlet.Proofs.Syntax.Reading

/-!
# Precedence in place of parentheses

`Expr.terse` writes a tree of operators, calls and subscripts with parentheses only where the tree
would otherwise be another one: around an operand whose operator binds less tightly than its place
asks for. The main statement is that the parser reads this text as the tree, without an error
(`Program.parse_terse`), so the precedences of the grammar and its reading of chains from the left
are those that the text is written by.

The proof follows the two halves of precedence climbing. An expression is `Written` in a text if
reading its tokens comes to the operators behind it. That depends on both neighbours: an infix
expression is not read as a whole where the place in front of it asks for more than its own
precedence, and an operator behind it that binds more tightly would take its last operand away.
-/

namespace Scriptlet

open Scriptlet.Parser Scriptlet.Cursor

/-! ## Text with few parentheses

A second printer. It decides where to put parentheses by numbers that it assigns to operators
itself; that these are in the order of the grammar is `Token.binding_eq`, and no part of the
definition. -/

/-- How tightly an infix operator binds: equality less than comparison, comparison less than sum,
and sum less than product. -/
def Token.binding : Token → Nat
  | .eq | .notEq => 1
  | .lt | .gt => 2
  | .plus | .minus => 3
  | .asterisk | .slash => 4
  | _ => 0

/-- How tightly an expression is held together: as its infix operator binds, more tightly than that
by a prefix, and most tightly if it has no operator of either kind. -/
def Expr.tightness : Expr → Nat
  | .infixOp _ op _ => op.binding
  | .prefixOp _ _ => 5
  | _ => 6

/-- A text, in parentheses if it needs them. -/
def enclosed (needed : Bool) (text : String) : String :=
  if needed then "(" ++ text ++ ")" else text

mutual

/-- The text of an expression with as few parentheses as its operators allow: around a left operand
that binds less tightly than the operator, a right operand that does not bind more tightly, an infix
operand of a prefix operator, and what is called or subscripted if it is infix or prefix itself. -/
def Expr.terse : Expr → String
  | .ident name => name
  | .int value => toString value.toInt
  | .infixOp left op right =>
    enclosed (left.tightness < op.binding) left.terse ++ " " ++ op.text ++ " "
      ++ enclosed (right.tightness ≤ op.binding) right.terse
  | .prefixOp op operand => op.text ++ enclosed (operand.tightness < 5) operand.terse
  | .call callee args =>
    enclosed (callee.tightness < 6) callee.terse ++ "(" ++ Expr.terseList args ++ ")"
  | .index left subscript =>
    enclosed (left.tightness < 6) left.terse ++ "[" ++ subscript.terse ++ "]"
  | e => e.text

/-- The texts of expressions with commas between them. -/
def Expr.terseList : List Expr → String
  | [] => ""
  | e :: rest => Expr.terseMore e.terse rest

/-- Appends a comma and the text of each expression. -/
def Expr.terseMore (text : String) : List Expr → String
  | [] => text
  | e :: rest => Expr.terseMore (text ++ ", " ++ e.terse) rest

end

mutual

/-- A tree of names, numbers, operators, calls and subscripts. -/
def Expr.Formula : Expr → Prop
  | .ident name => IsName name
  | .int value => 0 ≤ value.toInt
  | .prefixOp op operand => (op = .bang ∨ op = .minus) ∧ operand.Formula
  | .infixOp left op right => left.Formula ∧ isOperator op = true ∧ right.Formula
  | .call callee args => callee.Formula ∧ Expr.FormulaList args
  | .index left subscript => left.Formula ∧ subscript.Formula
  | _ => False

/-- Trees of this kind. -/
def Expr.FormulaList : List Expr → Prop
  | [] => True
  | e :: rest => e.Formula ∧ Expr.FormulaList rest

end

/-! ## Precedences of the grammar

How the numbers of the printer and the precedences of the parser are related. Only the order
matters; the two are equal on infix operators. -/

/-- The precedence that holds an expression together in the grammar. -/
def Expr.precedence : Expr → Precedence
  | .infixOp _ op _ => Precedence.ofToken op
  | .prefixOp _ _ => .unary
  | _ => .index

/-- The grammar knows the infix operators in the same order. -/
theorem Token.binding_eq {op : Token} (hop : isOperator op = true) :
    op.binding = (Precedence.ofToken op).rank := by
  cases op <;> first | rfl | cases hop

/-- Infix operators bind more tightly than nothing and less tightly than a prefix. -/
theorem Parser.rank_isOperator {op : Token} (hop : isOperator op = true) :
    0 < (Precedence.ofToken op).rank ∧ (Precedence.ofToken op).rank < Precedence.unary.rank := by
  cases op <;> first | exact ⟨by decide, by decide⟩ | cases hop

namespace Expr.Formula

variable {e : Expr}

/-- No formula is held together by nothing. -/
theorem rank_pos (h : e.Formula) : 0 < e.precedence.rank := by
  cases e with
  | infixOp left op right => exact (rank_isOperator h.2.1).1
  | _ => exact Nat.zero_lt_succ _

/-- A formula is at least as tight in the grammar as the printer takes it to be. For a call or a
subscript it is tighter, which does no harm. -/
theorem tightness_le (h : e.Formula) : e.tightness ≤ e.precedence.rank := by
  cases e with
  | infixOp left op right => exact Nat.le_of_eq (Token.binding_eq h.2.1)
  | prefixOp op operand => exact Nat.le_refl _
  | _ => exact Nat.le_succ _

/-- What is neither infix nor prefix is held together more tightly than by any operator. -/
theorem index_le (h : e.Formula) (htight : 6 ≤ e.tightness) :
    Precedence.index.rank ≤ e.precedence.rank := by
  cases e with
  | infixOp left op right =>
    have hunary : op.binding < 5 := (Token.binding_eq h.2.1).trans_lt (rank_isOperator h.2.1).2
    have hle : 6 ≤ op.binding := htight
    omega
  | prefixOp op operand => exact absurd htight (Nat.not_succ_le_self 5)
  | _ => exact Nat.le_refl _

end Expr.Formula

/-! ## Written expressions

`Written text e k ts` is the invariant of the construction: the text spells tokens, and reading them
comes to the operators behind `e`, provided that neither neighbour interferes. `k` is how tight the
expression is. Each lemma below takes the parts of one constructor as written and shows that the
whole is, with the tightness of its own operator. -/

/-- The tokens that a written expression may start with. -/
def Token.leads : Token → Bool
  | .ident _ | .int _ | .lparen | .bang | .minus => true
  | _ => false

/-- The text is read as the tokens `ts`, and reading these comes to the operators behind `e`. An
infix expression has to stand where the precedence in front of it is lower than its own, and what
stands behind must not bind more tightly than `tightness`. -/
structure Expr.Written (text : String) (e : Expr) (tightness : Nat) (ts : List Token) : Prop where
  spells : Spells Parted text ts
  head : ∀ rest, (text.toList ++ rest).head? ≠ some '='
  leads : ∃ t more, ts = t :: more ∧ t.leads = true ∧ more.headD .eof ≠ .assign
  goesOn : ∀ fuel (precedence : Precedence) rest errors, 8 * ts.length ≤ fuel →
    precedence.rank < Precedence.call.rank →
    (tightness < Precedence.unary.rank → precedence.rank < tightness) → bound rest ≤ tightness →
      ∃ fuel' t, fuel < fuel' + 8 * ts.length
        ∧ expression fuel precedence ⟨ts ++ rest, errors⟩
          = operators fuel' precedence e ⟨t :: rest, errors⟩

namespace Expr.Written

variable {text text' : String} {e e' : Expr} {k k' : Nat} {ts ts' : List Token} {fuel : Nat}
  {precedence : Precedence}

/-- An expression that no operator follows has been read. -/
theorem expression_eq (h : Written text e k ts) (hfuel : 8 * ts.length ≤ fuel)
    (hprecedence : precedence.rank < Precedence.call.rank)
    (hlow : k < Precedence.unary.rank → precedence.rank < k) (rest : List Token)
    (hrest : bound rest ≤ precedence.rank) (htight : precedence.rank ≤ k)
    (errors : List ParseError) :
    ∃ t, expression fuel precedence ⟨ts ++ rest, errors⟩ = .ok e ⟨t :: rest, errors⟩ := by
  obtain ⟨fuel', t, hfuel', heq⟩ := h.goesOn fuel precedence rest errors hfuel hprecedence hlow
    (Nat.le_trans hrest htight)
  obtain ⟨f, rfl⟩ : ∃ f, fuel' = f + 1 := ⟨fuel' - 1, by omega⟩
  exact ⟨t, heq.trans (operators_stop hrest)⟩

/-- Where the grammar has a place for any expression. -/
theorem reads (h : Written text e k ts) (hk : 0 < k) : Reads 0 ts e := by
  intro fuel rest errors hfuel hrest _
  obtain ⟨t, heq⟩ := h.expression_eq hfuel
    (by decide : Precedence.lowest.rank < Precedence.call.rank) (fun _ => hk) rest
    (Nat.le_of_eq hrest) (Nat.zero_le k) errors
  exact ⟨t, heq⟩

theorem ne_nil (h : Written text e k ts) : ts ≠ [] := by
  obtain ⟨t, more, rfl, -⟩ := h.leads
  exact List.cons_ne_nil _ _

/-- What is written behind other tokens does not change how they start. -/
theorem leads_append (h : Written text e k ts) (ts' : List Token)
    (hts' : ts'.headD .eof ≠ .assign) :
    ∃ t more, ts ++ ts' = t :: more ∧ t.leads = true ∧ more.headD .eof ≠ .assign := by
  obtain ⟨t, more, rfl, ht, hmore⟩ := h.leads
  refine ⟨t, more ++ ts', rfl, ht, ?_⟩
  cases more with
  | nil => exact hts'
  | cons _ _ => exact hmore

theorem head_append (h : Written text e k ts) (text' : String) (rest : List Char) :
    ((text ++ text').toList ++ rest).head? ≠ some '=' := by
  rw [String.toList_append, List.append_assoc]
  exact h.head _

/-- A single token that is read as an operand. -/
theorem leaf {t : Token} (hspells : Spells Parted text [t])
    (hhead : ∀ rest, (text.toList ++ rest).head? ≠ some '=') (ht : t.leads = true)
    (h : ∀ fuel rest errors, operand (fuel + 1) ⟨t :: rest, errors⟩
      = .ok e ⟨t :: rest, errors⟩) : Written text e Precedence.index.rank [t] where
  spells := hspells
  head := hhead
  leads := ⟨t, [], rfl, ht, Token.noConfusion⟩
  goesOn fuel precedence rest errors hfuel _ _ _ := by
    rw [List.length_singleton] at hfuel
    obtain ⟨f, rfl⟩ : ∃ f, fuel = f + 2 := ⟨fuel - 2, by omega⟩
    refine ⟨f + 1, t, by simp, ?_⟩
    rw [List.singleton_append, expression, bind_ok (h f rest errors)]

/-- In parentheses an expression is an operand, whatever it is inside. -/
theorem parens (h : Written text e k ts) (hk : 0 < k) :
    Written ("(" ++ text ++ ")") e Precedence.index.rank (.lparen :: (ts ++ [.rparen])) where
  spells := by
    have hopen : Spells Anything "(" [.lparen] := spells_marks rfl
    have hclose : Spells Anything ")" [.rparen] := spells_marks rfl
    exact ((hopen.then h.spells).mark hclose rfl).parted.cast (by simp)
  head rest := by simp
  leads := by
    obtain ⟨t, more, rfl, ht, -⟩ := h.leads
    refine ⟨.lparen, _, rfl, rfl, ?_⟩
    rintro rfl
    cases ht
  goesOn fuel precedence rest errors hfuel _ _ _ := by
    simp only [List.length_cons, List.length_append, List.length_nil] at hfuel ⊢
    obtain ⟨f, rfl⟩ : ∃ f, fuel = f + 2 := ⟨fuel - 2, by omega⟩
    obtain ⟨t, heq⟩ := h.reads hk f (.rparen :: rest) errors (by omega) rfl Token.noConfusion
    rw [reported_zero] at heq
    refine ⟨f + 1, .rparen, by omega, ?_⟩
    simp only [List.cons_append, List.append_assoc, List.nil_append]
    rw [expression, bind_ok (operand_paren heq)]

/-- An operand is put into parentheses where it would not be tight enough. -/
theorem operand (h : Written text e k ts) (hk : 0 < k) (needed : Bool) (limit : Nat)
    (hlimit : limit ≤ Precedence.index.rank) (hneeded : needed = false → limit ≤ k) :
    ∃ k' ts', limit ≤ k' ∧ Written (enclosed needed text) e k' ts' := by
  cases needed with
  | true => exact ⟨_, _, hlimit, h.parens hk⟩
  | false => exact ⟨k, ts, hneeded rfl, h⟩

/-- A prefix operator takes its operand up to the next infix operator, so what stands behind the
operand must not bind more tightly than a prefix. -/
theorem prefixOp {op : Token} (hop : op = .bang ∨ op = .minus) (h : Written text e k ts)
    (hk : Precedence.unary.rank ≤ k) :
    Written (op.text ++ text) (.prefixOp op e) Precedence.unary.rank (op :: ts) where
  spells := by
    rcases hop with rfl | rfl
    · exact spells_bang.append h.spells fun rest _ => h.head rest
    · exact (spells_operator rfl).then h.spells
  head rest := by
    rcases hop with rfl | rfl
    all_goals
      rw [String.toList_append, List.append_assoc]
      exact fun hhead => absurd hhead (by simp [Token.text])
  leads := by
    obtain ⟨t, more, rfl, ht, -⟩ := h.leads
    refine ⟨op, _, rfl, by rcases hop with rfl | rfl <;> rfl, ?_⟩
    rintro rfl
    cases ht
  goesOn fuel precedence rest errors hfuel _ _ hrest := by
    rw [List.length_cons] at hfuel ⊢
    obtain ⟨f, rfl⟩ : ∃ f, fuel = f + 2 := ⟨fuel - 2, by omega⟩
    -- a prefix in front of the operand asks for no more than a prefix inside of it
    obtain ⟨t, heq⟩ := h.expression_eq (by omega : 8 * ts.length ≤ f)
      (by decide : Precedence.unary.rank < _) (fun hlt => absurd hlt (Nat.not_lt.mpr hk)) rest
      hrest hk errors
    refine ⟨f + 1, t, by omega, ?_⟩
    rw [List.cons_append, expression, bind_ok (operand_sign hop heq)]

/-- The left operand ends where the operator comes, and the right one where an operator comes that
does not bind more tightly, so that chains are read from the left. -/
theorem infixOp {op : Token} (hop : isOperator op = true) (hleft : Written text e k ts)
    (hk : (Precedence.ofToken op).rank ≤ k) (hright : Written text' e' k' ts')
    (hk' : (Precedence.ofToken op).rank < k') :
    Written (text ++ " " ++ op.text ++ " " ++ text') (.infixOp e op e')
      (Precedence.ofToken op).rank (ts ++ op :: ts') where
  spells := by
    have hblank : Spells Anything " " [] := spells_marks rfl
    have hfirst := ((hleft.spells.mark hblank rfl).then (spells_operator hop)).then hblank
    exact (hfirst.then hright.spells).cast (by simp)
  head rest := by
    rw [String.append_assoc, String.append_assoc, String.append_assoc]
    exact hleft.head_append _ rest
  leads := hleft.leads_append _ (by rintro rfl; cases hop)
  goesOn fuel precedence rest errors hfuel hprecedence hlow hrest := by
    obtain ⟨-, hunary⟩ := rank_isOperator hop
    have hlt := hlow hunary
    have hcall : Precedence.unary.rank < Precedence.call.rank := by decide
    rw [List.length_append, List.length_cons] at hfuel ⊢
    -- the left operand is followed by `op`, which does not take its last operand away
    obtain ⟨f, s, hf, hfirst⟩ := hleft.goesOn fuel precedence (op :: (ts' ++ rest)) errors
      (by omega) hprecedence (fun _ => Nat.lt_of_lt_of_le hlt hk) hk
    obtain ⟨g, rfl⟩ : ∃ g, f = g + 1 := ⟨f - 1, by omega⟩
    obtain ⟨t, hsecond⟩ := hright.expression_eq (by omega : 8 * ts'.length ≤ g)
      (Nat.lt_trans hunary hcall) (fun _ => hk') rest hrest (Nat.le_of_lt hk') errors
    refine ⟨g, t, by omega, ?_⟩
    rw [List.append_assoc, List.cons_append, hfirst, operators_infix hop hlt hsecond]

/-- A subscript is the tightest of all, on both sides: what is subscripted must be an operand, and
nothing takes the subscript away from it. -/
theorem index (hleft : Written text e k ts) (hk : Precedence.index.rank ≤ k)
    (hsubscript : Written text' e' k' ts') (hk' : 0 < k') :
    Written (text ++ "[" ++ text' ++ "]") (.index e e') Precedence.index.rank
      (ts ++ .lbracket :: (ts' ++ [.rbracket])) where
  spells := by
    have hopen : Spells Anything "[" [.lbracket] := spells_marks rfl
    have hclose : Spells Anything "]" [.rbracket] := spells_marks rfl
    have hhead := hleft.spells.mark hopen rfl
    exact ((hhead.then hsubscript.spells).mark hclose rfl).parted.cast (by simp)
  head rest := by
    rw [String.append_assoc, String.append_assoc]
    exact hleft.head_append _ rest
  leads := hleft.leads_append _ Token.noConfusion
  goesOn fuel precedence rest errors hfuel hprecedence _ _ := by
    have hlt : precedence.rank < Precedence.index.rank := Nat.lt_trans hprecedence (by decide)
    simp only [List.length_append, List.length_cons, List.length_nil] at hfuel ⊢
    -- what is subscripted is read first; its reading goes on with the bracket
    obtain ⟨f, s, hf, hfirst⟩ := hleft.goesOn fuel precedence
      (.lbracket :: (ts' ++ .rbracket :: rest)) errors (by omega) hprecedence
      (fun _ => Nat.lt_of_lt_of_le hlt hk) hk
    obtain ⟨g, rfl⟩ : ∃ g, f = g + 1 := ⟨f - 1, by omega⟩
    obtain ⟨t, hsecond⟩ := hsubscript.reads hk' g (.rbracket :: rest) errors (by omega) rfl
      Token.noConfusion
    rw [reported_zero] at hsecond
    refine ⟨g, .rbracket, by omega, ?_⟩
    simp only [List.append_assoc, List.cons_append, List.nil_append]
    rw [hfirst, operators, bind_ok peek_eq]
    refine (congrFun (if_pos hlt) _).trans ?_
    show (advance >>= fun _ => advance >>= fun _ => expression g .lowest >>= fun subscript =>
      expect .rbracket >>= fun _ => operators g precedence (.index e subscript)) _ = _
    rw [bind_ok advance_eq, bind_ok advance_eq, bind_ok hsecond, bind_ok (expect_eq .rbracket)]

end Expr.Written

/-! ## Arguments

The arguments of a call are separated by commas, which bind to nothing; so each of them is read as a
whole, and no parentheses are needed. -/

/-- The text is read as the tokens `ts`, and reading these gives the arguments of a call. -/
structure Expr.WrittenArgs (text : String) (es : List Expr) (ts : List Token) : Prop where
  spells : Spells Parted text ts
  reads : ∀ fuel t rest errors, 8 * ts.length ≤ fuel →
    expressionList (fuel + 1) .rparen ⟨t :: (ts ++ .rparen :: rest), errors⟩
      = .ok es ⟨.rparen :: rest, errors⟩

namespace Expr.Written

variable {text text' : String} {e : Expr} {es : List Expr} {k : Nat} {ts ts' : List Token}

/-- The callee is an operand, like what is subscripted. -/
theorem call (hcallee : Written text e k ts) (hk : Precedence.index.rank ≤ k)
    (hargs : WrittenArgs text' es ts') :
    Written (text ++ "(" ++ text' ++ ")") (.call e es) Precedence.index.rank
      (ts ++ .lparen :: (ts' ++ [.rparen])) where
  spells := by
    have hopen : Spells Anything "(" [.lparen] := spells_marks rfl
    have hclose : Spells Anything ")" [.rparen] := spells_marks rfl
    have hhead := hcallee.spells.mark hopen rfl
    exact ((hhead.then hargs.spells).mark hclose rfl).parted.cast (by simp)
  head rest := by
    rw [String.append_assoc, String.append_assoc]
    exact hcallee.head_append _ rest
  leads := hcallee.leads_append _ Token.noConfusion
  goesOn fuel precedence rest errors hfuel hprecedence _ _ := by
    have hcall : Precedence.call.rank ≤ k := Nat.le_trans (by decide) hk
    simp only [List.length_append, List.length_cons, List.length_nil] at hfuel ⊢
    -- the callee is read first; its reading goes on with the parenthesis
    obtain ⟨f, s, hf, hfirst⟩ := hcallee.goesOn fuel precedence
      (.lparen :: (ts' ++ .rparen :: rest)) errors (by omega) hprecedence
      (fun _ => Nat.lt_of_lt_of_le hprecedence hcall) hcall
    obtain ⟨g, rfl⟩ : ∃ g, f = g + 2 := ⟨f - 2, by omega⟩
    have hlist := hargs.reads g .lparen rest errors (by omega)
    refine ⟨g + 1, .rparen, by omega, ?_⟩
    simp only [List.append_assoc, List.cons_append, List.nil_append]
    rw [hfirst, operators, bind_ok peek_eq]
    refine (congrFun (if_pos hprecedence) _).trans ?_
    show (advance >>= fun _ => expressionList (g + 1) .rparen >>= fun args =>
      operators (g + 1) precedence (.call e args)) _ = _
    rw [bind_ok advance_eq, bind_ok hlist]

/-- The arguments behind the first one, which the text `text` ends with. -/
theorem args_cons (h : Written text e k ts) (hk : 0 < k) (hmore : ReadsMore 0 .rparen ts' es)
    (hspells : Spells Parted text' (ts ++ ts')) : WrittenArgs text' (e :: es) (ts ++ ts') where
  spells := hspells
  reads fuel t rest errors hfuel := by
    rw [List.length_append] at hfuel
    have hne : ts.headD .eof ≠ .rparen := by
      obtain ⟨u, more, rfl, hleads, -⟩ := h.leads
      rintro rfl
      cases hleads
    rw [List.append_assoc]
    exact expressionList_cons (.inl rfl) (h.reads hk) hmore h.ne_nil hne hfuel t rest errors

end Expr.Written

/-! ## All formulas

The recursion over the tree. Where the printer puts parentheses, `Expr.Written.operand` has both
cases; the comparison that decides is the one between the tightness of the operand and what its
place asks for. -/

mutual

/-- Every formula is written in its text. -/
theorem Expr.terse_written :
    (e : Expr) → e.Formula → ∃ ts, Expr.Written e.terse e e.precedence.rank ts
  | .ident name, h => by
    have hreadable : (Expr.ident name).Readable := h
    have hhead := Expr.head_text (.ident name) hreadable
    rw [Expr.text] at hhead
    rw [Expr.terse]
    exact ⟨_, .leaf h.spells hhead rfl fun _ _ _ => rfl⟩
  | .int value, h => by
    have hreadable : (Expr.int value).Readable := h
    have hspells := Expr.spells (.int value) hreadable
    have hhead := Expr.head_text (.int value) hreadable
    rw [Expr.text, Expr.tokens] at hspells
    rw [Expr.text] at hhead
    rw [Expr.terse]
    exact ⟨_, .leaf hspells hhead rfl fun _ _ _ => integer_eq h⟩
  | .prefixOp op operand, h => by
    obtain ⟨hop, hoperand⟩ := h
    have hle := hoperand.tightness_le
    obtain ⟨_, hwritten⟩ := Expr.terse_written operand hoperand
    obtain ⟨_, _, hk, hwritten⟩ := hwritten.operand hoperand.rank_pos (operand.tightness < 5)
      Precedence.unary.rank (by decide) fun hneeded =>
        Nat.le_trans (Nat.le_of_not_lt (of_decide_eq_false hneeded)) hle
    rw [Expr.terse]
    exact ⟨_, hwritten.prefixOp hop hk⟩
  | .infixOp left op right, h => by
    obtain ⟨hleft, hop, hright⟩ := h
    have hbinding := Token.binding_eq hop
    have hindex : (Precedence.ofToken op).rank < Precedence.index.rank :=
      Nat.lt_trans (rank_isOperator hop).2 (by decide)
    obtain ⟨_, hl⟩ := Expr.terse_written left hleft
    obtain ⟨_, hr⟩ := Expr.terse_written right hright
    -- as tight as the operator is enough on the left, but not on the right
    obtain ⟨_, _, hk, hl⟩ := hl.operand hleft.rank_pos (left.tightness < op.binding)
      (Precedence.ofToken op).rank (Nat.le_of_lt hindex) fun hneeded => by
        have hle := hleft.tightness_le
        have hnot := of_decide_eq_false hneeded
        omega
    obtain ⟨_, _, hk', hr⟩ := hr.operand hright.rank_pos (right.tightness ≤ op.binding)
      ((Precedence.ofToken op).rank + 1) hindex fun hneeded => by
        have hle := hright.tightness_le
        have hnot := of_decide_eq_false hneeded
        omega
    rw [Expr.terse]
    exact ⟨_, hl.infixOp hop hk hr hk'⟩
  | .call callee args, h => by
    obtain ⟨hcallee, hargs⟩ := h
    obtain ⟨_, hc⟩ := Expr.terse_written callee hcallee
    obtain ⟨_, ha⟩ := Expr.terseList_written args hargs
    obtain ⟨_, _, hk, hc⟩ := hc.operand hcallee.rank_pos (callee.tightness < 6) _ (Nat.le_refl _)
      fun hneeded => hcallee.index_le (Nat.le_of_not_lt (of_decide_eq_false hneeded))
    rw [Expr.terse]
    exact ⟨_, hc.call hk ha⟩
  | .index left subscript, h => by
    obtain ⟨hleft, hsubscript⟩ := h
    obtain ⟨_, hl⟩ := Expr.terse_written left hleft
    obtain ⟨_, hs⟩ := Expr.terse_written subscript hsubscript
    obtain ⟨_, _, hk, hl⟩ := hl.operand hleft.rank_pos (left.tightness < 6) _ (Nat.le_refl _)
      fun hneeded => hleft.index_le (Nat.le_of_not_lt (of_decide_eq_false hneeded))
    rw [Expr.terse]
    exact ⟨_, hl.index hk hs hsubscript.rank_pos⟩
  | .float _, h | .str _, h | .bool _, h | .array _, h | .hash _, h | .cond _ _ _, h
  | .fn _ _, h => h.elim

theorem Expr.terseList_written :
    (es : List Expr) → Expr.FormulaList es → ∃ ts, Expr.WrittenArgs (Expr.terseList es) es ts
  | [], _ => by
    rw [Expr.terseList]
    exact ⟨[], spells_empty, fun _ t rest errors _ => expressionList_nil t rest errors⟩
  | e :: rest, h => by
    obtain ⟨ts, he⟩ := Expr.terse_written e h.1
    obtain ⟨ts', hspells, hmore⟩ := Expr.terseMore_written rest h.2 he.spells
    rw [Expr.terseList]
    exact ⟨_, he.args_cons h.1.rank_pos hmore hspells⟩

theorem Expr.terseMore_written {text : String} {ts : List Token} :
    (es : List Expr) → Expr.FormulaList es → Spells Parted text ts →
      ∃ ts', Spells Parted (Expr.terseMore text es) (ts ++ ts') ∧ ReadsMore 0 .rparen ts' es
  | [], _, h => by
    rw [Expr.terseMore]
    exact ⟨[], h.cast (List.append_nil ts).symm, .nil (.inl rfl)⟩
  | e :: rest, hformula, h => by
    have hcomma : Spells Anything ", " [.comma] := spells_marks rfl
    obtain ⟨ts₁, he⟩ := Expr.terse_written e hformula.1
    obtain ⟨ts₂, hspells, hmore⟩ := Expr.terseMore_written rest hformula.2
      ((h.mark hcomma rfl).then he.spells)
    rw [Expr.terseMore]
    exact ⟨_, hspells.cast (by simp), .cons (.inl rfl) (he.reads hformula.1.rank_pos) hmore⟩

end

/-- A written expression is a statement by itself. -/
theorem Expr.Written.attempt_eq {text : String} {e : Expr} {k fuel : Nat} {ts : List Token}
    (h : Expr.Written text e k ts) (hk : 0 < k) (hfuel : 8 * ts.length ≤ fuel) :
    ∃ t, attempt (fuel + 3) ⟨ts, []⟩ = .ok (some (.expr e)) ⟨[t], []⟩ := by
  obtain ⟨t, heq⟩ := h.reads hk fuel [] [] hfuel rfl Token.noConfusion
  rw [List.append_nil, reported_zero] at heq
  have hexpression : expressionStatement (fuel + 1) ⟨ts, []⟩ = .ok (.expr e) ⟨[t], []⟩ := by
    rw [expressionStatement, bind_ok heq]
    rfl
  have hstatement : statement (fuel + 2) ⟨ts, []⟩ = .ok (.expr e) ⟨[t], []⟩ := by
    obtain ⟨first, more, rfl, hleads, hassign⟩ := h.leads
    rw [statement, bind_ok current_eq]
    split
    -- only a name could start something else than an expression, an assignment
    case h_6 =>
      rw [bind_ok peek_eq]
      exact (congrFun (if_neg hassign) _).trans hexpression
    case h_7 => exact hexpression
    all_goals cases hleads
  refine ⟨t, ?_⟩
  unfold attempt
  rw [hstatement]

/-- **Few parentheses suffice.** The text of a formula with as few parentheses as its operators
allow is read as that formula alone, without an error. -/
theorem Program.parse_terse (e : Expr) (h : e.Formula) :
    Program.parse e.terse = ([.expr e], []) := by
  obtain ⟨ts, hwritten⟩ := e.terse_written h
  obtain ⟨u, hattempt⟩ := hwritten.attempt_eq h.rank_pos (Nat.le_add_right _ 13)
  obtain ⟨first, more, hts, hleads, -⟩ := hwritten.leads
  have hstatements : statements (8 * ts.length + 16) ts.length [] ⟨ts, []⟩
      = .ok [.expr e] ⟨[], []⟩ := by
    have hbrace : first ≠ .rbrace := by rintro rfl; cases hleads
    have hend : first ≠ .eof := by rintro rfl; cases hleads
    subst hts
    refine ((repeats_statements _).next hbrace hend hattempt []).trans ?_
    cases more <;> rfl
  rw [Program.parse, hwritten.spells.scan, Program.ofTokens, hstatements]
  rfl

/-- A sum under a prefix, a difference on the right of another one, and a call with a subscript. -/
theorem Program.parse_terse_difference :
    ∃ e : Expr, e.Formula ∧ e.terse = "-(a + b) - (1 - f(2)[c])"
      ∧ Program.parse e.terse = ([.expr e], []) := by
  refine ⟨.infixOp (.prefixOp .minus (.infixOp (.ident "a") .plus (.ident "b"))) .minus
    (.infixOp (.int 1) .minus (.index (.call (.ident "f") [.int 2]) (.ident "c"))),
    ?formula, by decide +kernel, parse_terse _ ?formula⟩
  have hname : IsName "a" ∧ IsName "b" ∧ IsName "c" ∧ IsName "f" := by
    refine ⟨?_, ?_, ?_, ?_⟩
    all_goals exact ⟨List.all_eq_true.mp (by decide +kernel), by decide +kernel, rfl⟩
  simp [Expr.Formula, Expr.FormulaList, hname, isOperator]

end Scriptlet
