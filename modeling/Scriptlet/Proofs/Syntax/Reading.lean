import Scriptlet.Proofs.Syntax.Words

/-!
# Reading the words of a tree

The parser reads the tokens of a readable tree back into the tree. An expression is read in two
parts: its operand and the operators behind it, and of these only calls are not in parentheses. So
what reading an expression comes to is that `operators` goes on with it (`Expr.Parses`), and where
no operator follows the expression has been read.

Every token accounts for eight nested calls of the rules at most, which is why the fuel of the
parser suffices. The lemmas carry the bound along: they ask for eight times the number of tokens,
and where the parser goes on behind an expression they say that no more than that has been used.

The only errors on the way are semicolons behind loops: a loop does not take the semicolon that
parts it from the next statement, and no statement starts with one. `Expr.partings` counts them, and
every lemma says that exactly so many errors have been added.
-/

namespace Scriptlet

namespace Parser

section

variable {α β : Type} {s s' : State} {t : Token} {tokens : List Token} {errors : List ParseError}

/-! ## The steps of the parser

The elementary parts on a state whose tokens are known, as equations. A proof about a rule unfolds
the rule and rewrites with them from left to right, one token after the other. -/

/-- A part that ends well is passed over. -/
theorem bind_ok {x : Parse α} {a : α} (h : x s = .ok a s') (f : α → Parse β) :
    (x >>= f) s = f a s' := by
  show EStateM.bind x f s = f a s'
  rw [EStateM.bind, h]

theorem current_eq : current ⟨t :: tokens, errors⟩ = .ok t ⟨t :: tokens, errors⟩ := rfl

theorem peek_eq :
    peek ⟨t :: tokens, errors⟩ = .ok (tokens.headD .eof) ⟨t :: tokens, errors⟩ := rfl

theorem advance_eq : advance ⟨t :: tokens, errors⟩ = .ok () ⟨tokens, errors⟩ := rfl

theorem expect_eq (token : Token) :
    expect token ⟨t :: token :: tokens, errors⟩ = .ok () ⟨token :: tokens, errors⟩ := by
  unfold expect
  rw [bind_ok peek_eq]
  exact congrFun (if_pos rfl) _

theorem expectName_eq (name : String) :
    expectName ⟨t :: .ident name :: tokens, errors⟩ = .ok name ⟨.ident name :: tokens, errors⟩ :=
  rfl

theorem skipSemicolon_none (h : tokens.headD .eof ≠ .semicolon) :
    skipSemicolon ⟨t :: tokens, errors⟩ = .ok () ⟨t :: tokens, errors⟩ := by
  unfold skipSemicolon
  rw [bind_ok peek_eq, if_neg h]
  rfl

/-- **The text of an integer is read as that integer.** The digits are those of a natural number, so
adding them up gives the number back, and the number of a 64-bit integer that is not negative is
small enough not to be refused. -/
theorem integer_eq {value : Int64} (h : 0 ≤ value.toInt) :
    integer (toString value.toInt) s = .ok (.int value) s := by
  have hdigits : (toString value.toInt).toList = Nat.toDigits 10 value.toInt.toNat := by
    rw [toString_of_nonneg h, Nat.toString_eq_ofList_toDigits, String.toList_ofList]
  have hvalue : (toString value.toInt).toList.foldl
      (fun n c => 10 * n + (c.toNat - '0'.toNat)) 0 = value.toInt.toNat := by
    rw [hdigits, ← Nat.ofDigitChars_eq_foldl, Nat.ofDigitChars_ten_toDigits]
  have hback : Int64.ofNat value.toInt.toNat = value := by
    rw [← Int64.ofInt_eq_ofNat, Int.toNat_of_nonneg h, Int64.ofInt_toInt]
  have hrange : value.toInt.toNat < 9223372036854775808 := by
    have hlt := value.toInt_lt
    omega
  have hinteger : integer (toString value.toInt) = pure (.int value) := by
    unfold integer
    dsimp only
    rw [hvalue, if_pos hrange, hback]
  rw [hinteger]
  rfl

end

end Parser

/-! ## Stray semicolons

How many errors a rendered program has is a number that can be read off the tree: one for each loop
that stands in front of another statement of the same list, at any depth. -/

/-- The semicolons between a statement and the rest of its list that nothing takes: one if the
statement is a loop. -/
def Stmt.parting : Stmt → List Stmt → Nat
  | .loop _ _ _ _, _ :: _ => 1
  | _, _ => 0

theorem Stmt.parting_nil (s : Stmt) : s.parting [] = 0 := by
  cases s <;> rfl

mutual

/-- The number of loops in an expression that stand in front of another statement. -/
def Expr.partings : Expr → Nat
  | .ident _ | .int _ | .float _ | .str _ | .bool _ => 0
  | .array elements => Expr.listPartings elements
  | .hash pairs => Expr.pairsPartings pairs
  | .prefixOp _ operand => operand.partings
  | .infixOp left _ right => left.partings + right.partings
  | .cond test yes no => test.partings + (Stmt.listPartings yes + Stmt.elsePartings no)
  | .fn _ body => Stmt.listPartings body
  | .call callee args => callee.partings + Expr.listPartings args
  | .index left subscript => left.partings + subscript.partings

/-- Their number in a list of expressions. -/
def Expr.listPartings : List Expr → Nat
  | [] => 0
  | e :: rest => e.partings + Expr.listPartings rest

/-- Their number in the pairs of a hash. -/
def Expr.pairsPartings : List (Expr × Expr) → Nat
  | [] => 0
  | (key, value) :: rest => key.partings + (value.partings + Expr.pairsPartings rest)

/-- Their number in a statement. -/
def Stmt.partings : Stmt → Nat
  | .bind _ value | .assign _ value | .ret value | .expr value => value.partings
  | .block body => Stmt.listPartings body
  | .loop init test post body =>
    init.partings + (test.partings + (post.partings + Stmt.listPartings body))
  | .breakLoop | .continueLoop => 0

/-- Their number in a list of statements, those of the list itself included. -/
def Stmt.listPartings : List Stmt → Nat
  | [] => 0
  | s :: rest => s.partings + (s.parting rest + Stmt.listPartings rest)

/-- Their number in the second branch of a condition. -/
def Stmt.elsePartings : Option (List Stmt) → Nat
  | none => 0
  | some body => Stmt.listPartings body

end

/-- The errors behind so many stray semicolons. -/
def Parser.reported (count : Nat) (errors : List ParseError) : List ParseError :=
  List.replicate count (.noExpression .semicolon) ++ errors

theorem Parser.reported_zero (errors : List ParseError) : reported 0 errors = errors := rfl

/-- Errors are added in front, so two groups of them add up. -/
theorem Parser.reported_reported (count count' : Nat) (errors : List ParseError) :
    reported count' (reported count errors) = reported (count + count') errors := by
  unfold reported
  rw [← List.append_assoc, List.replicate_append_replicate, Nat.add_comm]

/-! ## First tokens

What a rendered expression or statement starts with. The parser decides by the first token, and by
the second one where the first is a name, so this is what has to be known of a tree in order to say
which rule reads it. -/

/-- The tokens that an expression may start with. A rendered prefix operator stands in parentheses,
so neither of the two signs is among them. -/
def Token.begins : Token → Bool
  | .ident _ | .int _ | .float _ | .str _ | .trueKw | .falseKw | .lparen | .lbracket | .lbrace
  | .ifKw | .function => true
  | _ => false

/-- An expression that starts with a name is that name, or calls it. -/
theorem Expr.tokens_cons : (e : Expr) → ∃ t ts, e.tokens = t :: ts ∧ t.begins = true
    ∧ ∀ name, t = .ident name → ts.headD .lparen = .lparen
  | .ident _ | .int _ | .float _ | .str _ | .bool true | .bool false => by
    rw [Expr.tokens]
    exact ⟨_, _, rfl, rfl, fun _ _ => rfl⟩
  | .array _ | .hash _ | .prefixOp _ _ | .infixOp _ _ _ | .cond _ _ _ | .fn _ _
  | .index _ _ => by
    rw [Expr.tokens]
    exact ⟨_, _, rfl, rfl, fun _ hname => by cases hname⟩
  | .call callee args => by
    obtain ⟨t, ts, htokens, hbegins, hname⟩ := callee.tokens_cons
    rw [Expr.tokens, htokens]
    refine ⟨t, _, rfl, hbegins, fun name ht => ?_⟩
    cases ts with
    | nil => rfl
    | cons _ _ => exact hname name ht

/-- No statement starts with a closing brace or at the end of the text. -/
theorem Stmt.tokens_cons (s : Stmt) : ∃ t ts, s.tokens = t :: ts ∧ t ≠ .rbrace ∧ t ≠ .eof := by
  cases s with
  | expr value =>
    obtain ⟨t, ts, htokens, hbegins, -⟩ := value.tokens_cons
    rw [Stmt.tokens, htokens]
    refine ⟨t, ts, rfl, ?_, ?_⟩
    all_goals
      rintro rfl
      cases hbegins
  | block body =>
    rw [Stmt.tokens, Stmt.blockTokens]
    exact ⟨_, _, rfl, Token.noConfusion, Token.noConfusion⟩
  | _ =>
    rw [Stmt.tokens]
    exact ⟨_, _, rfl, Token.noConfusion, Token.noConfusion⟩

/-! ## Expressions

`Expr.Parses` is the statement that goes along the tree. It does not say that `expression` returns
the tree, for what comes behind may go on with it; it says that the loop `operators` is entered with
the tree as its left operand. Where the next token binds no tighter than the place asks for, this
loop stops at once (`operators_stop`), and the expression has been read. -/

open Scriptlet.Parser

/-- How tightly the next token binds to an expression in front of it: the rank of its precedence,
which is `0` for anything that is no operator. -/
def Parser.bound (rest : List Token) : Nat :=
  (Precedence.ofToken (rest.headD .eof)).rank

/-- **Reading the tokens of an expression comes to the operators behind it**, with the fuel that is
left named. A branch behind it would be taken for the second one of a condition, so the next token
must not be `else`. -/
def Expr.Parses (e : Expr) : Prop :=
  ∀ fuel (precedence : Precedence) rest errors, 8 * e.tokens.length ≤ fuel →
    precedence.rank < Precedence.call.rank → rest.headD .eof ≠ .elseKw →
      ∃ fuel' t, fuel < fuel' + 8 * e.tokens.length ∧ t ≠ .semicolon
        ∧ expression fuel precedence ⟨e.tokens ++ rest, errors⟩
          = operators fuel' precedence e ⟨t :: rest, reported e.partings errors⟩

section

variable {e : Expr} {t : Token} {rest : List Token} {errors : List ParseError} {fuel : Nat}
  {precedence : Precedence}

theorem operators_stop (h : bound rest ≤ precedence.rank) :
    operators (fuel + 1) precedence e ⟨t :: rest, errors⟩ = .ok e ⟨t :: rest, errors⟩ := by
  unfold operators
  rw [bind_ok peek_eq]
  exact congrFun (if_neg (Nat.not_lt.mpr h)) _

/-- An expression that no operator follows has been read. The token at which the parser stands then
is the last one of the expression; all that is needed of it is that it is no semicolon. -/
theorem Expr.Parses.expression_eq (h : e.Parses) (hfuel : 8 * e.tokens.length ≤ fuel)
    (hprecedence : precedence.rank < Precedence.call.rank) (rest : List Token)
    (hrest : bound rest ≤ precedence.rank) (helse : rest.headD .eof ≠ .elseKw)
    (errors : List ParseError) :
    ∃ t, t ≠ .semicolon ∧ expression fuel precedence ⟨e.tokens ++ rest, errors⟩
      = .ok e ⟨t :: rest, reported e.partings errors⟩ := by
  obtain ⟨fuel', t, hfuel', ht, heq⟩ := h fuel precedence rest errors hfuel hprecedence helse
  obtain ⟨f, rfl⟩ : ∃ f, fuel' = f + 1 := ⟨fuel' - 1, by omega⟩
  exact ⟨t, ht, heq.trans (operators_stop hrest)⟩

/-- Where the grammar has a place for any expression. -/
theorem Expr.Parses.lowest_eq (h : e.Parses) (hfuel : 8 * e.tokens.length ≤ fuel)
    (rest : List Token) (hrest : bound rest = 0) (helse : rest.headD .eof ≠ .elseKw)
    (errors : List ParseError) :
    ∃ t, t ≠ .semicolon ∧ expression fuel .lowest ⟨e.tokens ++ rest, errors⟩
      = .ok e ⟨t :: rest, reported e.partings errors⟩ :=
  have hlowest : bound rest ≤ Precedence.lowest.rank := Nat.le_of_eq hrest
  h.expression_eq hfuel (by decide) rest hlowest helse errors

/-- An expression that is read as an operand. All but infix expressions, calls and subscripts are
read so, with the operators behind it left to the loop. -/
theorem Expr.Parses.of_operand
    (h : ∀ fuel rest errors, 8 * e.tokens.length ≤ fuel + 1 → rest.headD .eof ≠ .elseKw →
      ∃ t, t ≠ .semicolon ∧ operand fuel ⟨e.tokens ++ rest, errors⟩
        = .ok e ⟨t :: rest, reported e.partings errors⟩) : e.Parses := by
  intro fuel precedence rest errors hfuel _ helse
  obtain ⟨_, ts, htokens, -⟩ := e.tokens_cons
  have hlength : e.tokens.length = ts.length + 1 := by rw [htokens, List.length_cons]
  obtain ⟨f, rfl⟩ : ∃ f, fuel = f + 1 := ⟨fuel - 1, by omega⟩
  obtain ⟨t, ht, heq⟩ := h f rest errors hfuel helse
  refine ⟨f, t, by omega, ht, ?_⟩
  unfold expression
  rw [bind_ok heq]

/-- An expression of one token. -/
theorem Expr.Parses.leaf (htokens : e.tokens = [t]) (hpartings : e.partings = 0)
    (ht : t ≠ .semicolon) (h : ∀ fuel rest errors, operand (fuel + 1) ⟨t :: rest, errors⟩
      = .ok e ⟨t :: rest, errors⟩) : e.Parses := by
  refine .of_operand fun fuel rest errors hfuel _ => ?_
  rw [htokens] at hfuel ⊢
  rw [List.length_singleton] at hfuel
  obtain ⟨f, rfl⟩ : ∃ f, fuel = f + 1 := ⟨fuel - 1, by omega⟩
  rw [hpartings]
  exact ⟨t, ht, h f rest errors⟩

end

/-! ### Operators

Prefix and infix operators are rendered in parentheses, so inside of them an operand is followed by
the operator or by the closing parenthesis, neither of which takes anything away from the
operand. -/

section

variable {e left right : Expr} {t : Token} {tokens rest : List Token}
  {errors errors' : List ParseError} {fuel : Nat} {precedence : Precedence}

/-- An expression in parentheses is an operand. -/
theorem operand_paren (h : expression fuel .lowest ⟨tokens, errors⟩
      = .ok e ⟨t :: .rparen :: rest, errors'⟩) :
    operand (fuel + 1) ⟨.lparen :: tokens, errors⟩ = .ok e ⟨.rparen :: rest, errors'⟩ := by
  show (advance >>= fun _ => expression fuel .lowest >>= fun inner =>
    expect .rparen >>= fun _ => pure inner) _ = _
  rw [bind_ok advance_eq, bind_ok h, bind_ok (expect_eq .rparen)]
  rfl

/-- A prefix operator takes the expression behind it up to the next infix operator. -/
theorem operand_sign {op : Token} (hop : op = .bang ∨ op = .minus)
    (h : expression fuel .unary ⟨tokens, errors⟩ = .ok e ⟨t :: rest, errors'⟩) :
    operand (fuel + 1) ⟨op :: tokens, errors⟩ = .ok (.prefixOp op e) ⟨t :: rest, errors'⟩ := by
  rcases hop with rfl | rfl
  all_goals
    show (advance >>= fun _ => expression fuel .unary >>= fun right =>
      pure (Expr.prefixOp _ right)) _ = _
    rw [bind_ok advance_eq, bind_ok h]
    rfl

/-- An opening parenthesis, the operator, the operand and the closing parenthesis. -/
theorem Expr.Parses.prefixOp {op : Token} (hop : op = .bang ∨ op = .minus) (h : e.Parses) :
    (Expr.prefixOp op e).Parses := by
  refine .of_operand fun fuel rest errors hfuel _ => ?_
  simp only [Expr.tokens, List.length_cons, List.length_append, List.length_nil] at hfuel
  obtain ⟨f, rfl⟩ : ∃ f, fuel = f + 4 := ⟨fuel - 4, by omega⟩
  obtain ⟨t, ht, heq⟩ := h.expression_eq (by omega : 8 * e.tokens.length ≤ f + 1)
    (by decide : Precedence.unary.rank < _) (.rparen :: rest) (Nat.zero_le _) Token.noConfusion
    errors
  refine ⟨.rparen, Token.noConfusion, ?_⟩
  simp only [Expr.tokens, Expr.partings, List.cons_append, List.append_assoc, List.nil_append]
  refine operand_paren (t := t) ?_
  unfold expression
  rw [bind_ok (operand_sign hop heq)]
  exact operators_stop (Nat.zero_le _)

/-- The precedence of an operator is higher than the lowest, and lower than that of a call. -/
theorem rank_operator {op : Token} (hop : isOperator op = true) :
    Precedence.lowest.rank < (Precedence.ofToken op).rank
      ∧ (Precedence.ofToken op).rank < Precedence.call.rank := by
  cases op <;> first | exact ⟨by decide, by decide⟩ | cases hop

/-- An infix operator takes the expressions on both sides of it. -/
theorem operators_infix {op : Token} (hop : isOperator op = true)
    (hprecedence : precedence.rank < (Precedence.ofToken op).rank)
    (h : expression fuel (Precedence.ofToken op) ⟨tokens, errors⟩
      = .ok right ⟨t :: rest, errors'⟩) {s : Token} :
    operators (fuel + 1) precedence left ⟨s :: op :: tokens, errors⟩
      = operators fuel precedence (.infixOp left op right) ⟨t :: rest, errors'⟩ := by
  have hpeek : peek ⟨s :: op :: tokens, errors⟩ = .ok op ⟨s :: op :: tokens, errors⟩ := rfl
  rw [operators, bind_ok hpeek]
  refine (congrFun (if_pos hprecedence) _).trans ?_
  rw [bind_ok advance_eq]
  split
  · cases hop
  · cases hop
  · rw [bind_ok advance_eq, bind_ok h]

/-- The left operand is read up to the operator, which the loop takes because it binds more tightly
than nothing; the right one is read up to the parenthesis. -/
theorem Expr.Parses.infixOp {op : Token} (hleft : left.Parses) (hop : isOperator op = true)
    (hright : right.Parses) : (Expr.infixOp left op right).Parses := by
  obtain ⟨hlow, hhigh⟩ := rank_operator hop
  refine .of_operand fun fuel rest errors hfuel _ => ?_
  simp only [Expr.tokens, List.length_cons, List.length_append, List.length_nil] at hfuel
  obtain ⟨f, rfl⟩ : ∃ f, fuel = f + 1 := ⟨fuel - 1, by omega⟩
  obtain ⟨f', s, hf', -, hfirst⟩ := hleft f .lowest
    (op :: (right.tokens ++ .rparen :: rest)) errors (by omega) (by decide)
    (by rintro rfl; cases hop)
  obtain ⟨k, rfl⟩ : ∃ k, f' = k + 2 := ⟨f' - 2, by omega⟩
  obtain ⟨t, -, hsecond⟩ := hright.expression_eq
    (by omega : 8 * right.tokens.length ≤ k + 1) hhigh (.rparen :: rest) (Nat.zero_le _)
    Token.noConfusion (reported left.partings errors)
  refine ⟨.rparen, Token.noConfusion, ?_⟩
  simp only [Expr.tokens, Expr.partings, ← reported_reported, List.cons_append, List.append_assoc,
    List.nil_append]
  refine operand_paren (t := t) ?_
  rw [hfirst, operators_infix hop hlow hsecond]
  exact operators_stop (Nat.zero_le _)

/-- A subscript is rendered in parentheses as well, so it is read like an operator with a bracket
behind it. -/
theorem Expr.Parses.index (hleft : left.Parses) (hright : right.Parses) :
    (Expr.index left right).Parses := by
  refine .of_operand fun fuel rest errors hfuel _ => ?_
  simp only [Expr.tokens, List.length_cons, List.length_append, List.length_nil] at hfuel
  obtain ⟨f, rfl⟩ : ∃ f, fuel = f + 1 := ⟨fuel - 1, by omega⟩
  obtain ⟨f', s, hf', -, hfirst⟩ := hleft f .lowest
    (.lbracket :: (right.tokens ++ .rbracket :: .rparen :: rest)) errors (by omega) (by decide)
    Token.noConfusion
  obtain ⟨k, rfl⟩ : ∃ k, f' = k + 2 := ⟨f' - 2, by omega⟩
  obtain ⟨t, -, hsecond⟩ := hright.lowest_eq (by omega : 8 * right.tokens.length ≤ k + 1)
    (.rbracket :: .rparen :: rest) rfl Token.noConfusion (reported left.partings errors)
  refine ⟨.rparen, Token.noConfusion, ?_⟩
  simp only [Expr.tokens, Expr.partings, ← reported_reported, List.cons_append, List.append_assoc,
    List.nil_append]
  refine operand_paren (t := .rbracket) ?_
  rw [hfirst, operators, bind_ok peek_eq]
  show (advance >>= fun _ => advance >>= fun _ => expression (k + 1) .lowest >>= fun subscript =>
    expect .rbracket >>= fun _ => operators (k + 1) .lowest (.index left subscript)) _ = _
  rw [bind_ok advance_eq, bind_ok advance_eq, bind_ok hsecond, bind_ok (expect_eq .rbracket)]
  exact operators_stop (Nat.zero_le _)

end

/-! ### Lists

The arguments of a call and the elements of an array are read alike. What is said of them here does
not depend on how the expressions are spelled, so that `Proofs/Syntax/Terse.lean` can use it for
texts with fewer parentheses. -/

/-- Where the grammar has a place for any expression, the tokens `ts` are read as `e`, with so many
stray semicolons on the way. -/
def Parser.Reads (count : Nat) (ts : List Token) (e : Expr) : Prop :=
  ∀ fuel rest errors, 8 * ts.length ≤ fuel → bound rest = 0 → rest.headD .eof ≠ .elseKw →
    ∃ t, expression fuel .lowest ⟨ts ++ rest, errors⟩ = .ok e ⟨t :: rest, reported count errors⟩

/-- Behind an expression of a list the tokens `ts`, which start with a comma, are read as further
expressions, up to the closing bracket. -/
structure Parser.ReadsMore (count : Nat) (close : Token) (ts : List Token) (es : List Expr) :
    Prop where
  comma : ts.headD .comma = .comma
  reads : ∀ fuel read t rest errors, 8 * ts.length < fuel →
    expressionListRest fuel close read ⟨t :: (ts ++ close :: rest), errors⟩
      = .ok (read.reverse ++ es) ⟨close :: rest, reported count errors⟩

section

variable {e : Expr} {es : List Expr} {pairs : List (Expr × Expr)} {close : Token} {fuel : Nat}
  {count count' : Nat} {ts ts' : List Token}

theorem Expr.Parses.reads (h : e.Parses) : Reads e.partings e.tokens e := by
  intro fuel rest errors hfuel hrest helse
  obtain ⟨t, -, heq⟩ := h.lowest_eq hfuel rest hrest helse errors
  exact ⟨t, heq⟩

/-- What follows an expression in a list. -/
theorem Parser.ReadsMore.bound_eq (h : ReadsMore count close ts es)
    (hclose : close = .rparen ∨ close = .rbracket) (rest : List Token) :
    bound (ts ++ close :: rest) = 0 ∧ (ts ++ close :: rest).headD .eof ≠ .elseKw := by
  cases ts with
  | nil =>
    rcases hclose with rfl | rfl
    all_goals exact ⟨rfl, Token.noConfusion⟩
  | cons t ts =>
    obtain rfl : t = .comma := h.comma
    exact ⟨rfl, Token.noConfusion⟩

theorem Parser.ReadsMore.nil (hclose : close = .rparen ∨ close = .rbracket) :
    ReadsMore 0 close [] [] where
  comma := rfl
  reads fuel read t rest errors hfuel := by
    have hcomma : close ≠ .comma := by rcases hclose with rfl | rfl <;> exact Token.noConfusion
    obtain ⟨f, rfl⟩ : ∃ f, fuel = f + 1 := ⟨fuel - 1, by omega⟩
    rw [List.nil_append, List.append_nil, expressionListRest, bind_ok peek_eq]
    refine (congrFun (if_neg hcomma) _).trans ?_
    rw [bind_ok (expect_eq close)]
    rfl

/-- One more expression with its comma. Between two expressions the parser stands at the last token
of the first one, so it steps to the comma and behind it. -/
theorem Parser.ReadsMore.cons (hclose : close = .rparen ∨ close = .rbracket)
    (h : Reads count ts e) (hmore : ReadsMore count' close ts' es) :
    ReadsMore (count + count') close (.comma :: (ts ++ ts')) (e :: es) where
  comma := rfl
  reads fuel read t rest errors hfuel := by
    rw [List.length_cons, List.length_append] at hfuel
    obtain ⟨f, rfl⟩ : ∃ f, fuel = f + 1 := ⟨fuel - 1, by omega⟩
    obtain ⟨hbound, helse⟩ := hmore.bound_eq hclose rest
    obtain ⟨s, hfirst⟩ := h f _ errors (by omega) hbound helse
    have hrest := hmore.reads f (e :: read) s rest (reported count errors) (by omega)
    rw [reported_reported] at hrest
    rw [List.cons_append, List.append_assoc, expressionListRest, bind_ok peek_eq]
    show (advance >>= fun _ => advance >>= fun _ => expression f .lowest >>= fun e =>
      expressionListRest f close (e :: read)) _ = _
    rw [bind_ok advance_eq, bind_ok advance_eq, bind_ok hfirst, hrest, List.reverse_cons,
      List.append_assoc]
    rfl

/-- A list without expressions. -/
theorem expressionList_nil (t : Token) (rest : List Token) (errors : List ParseError) :
    expressionList (fuel + 1) close ⟨t :: close :: rest, errors⟩
      = .ok [] ⟨close :: rest, errors⟩ := by
  rw [expressionList, bind_ok peek_eq]
  refine (congrFun (if_pos rfl) _).trans ?_
  rw [bind_ok advance_eq]
  rfl

/-- A list with a first expression, which does not start with the closing bracket. -/
theorem expressionList_cons (hclose : close = .rparen ∨ close = .rbracket) (h : Reads count ts e)
    (hmore : ReadsMore count' close ts' es) (hts : ts ≠ []) (hne : ts.headD .eof ≠ close)
    (hfuel : 8 * (ts.length + ts'.length) ≤ fuel) (t : Token) (rest : List Token)
    (errors : List ParseError) :
    expressionList (fuel + 1) close ⟨t :: (ts ++ (ts' ++ close :: rest)), errors⟩
      = .ok (e :: es) ⟨close :: rest, reported (count + count') errors⟩ := by
  obtain ⟨first, more, rfl⟩ := List.exists_cons_of_ne_nil hts
  rw [List.length_cons] at hfuel
  obtain ⟨hbound, helse⟩ := hmore.bound_eq hclose rest
  obtain ⟨s, hfirst⟩ := h fuel _ errors (by rw [List.length_cons]; omega) hbound helse
  have hrest := hmore.reads fuel [e] s rest (reported count errors) (by omega)
  rw [reported_reported] at hrest
  rw [expressionList, bind_ok peek_eq]
  refine (congrFun (if_neg hne) _).trans ?_
  rw [bind_ok advance_eq, bind_ok hfirst, hrest]
  rfl

/-- Further expressions up to the closing bracket. -/
theorem readsMore_tokens (hclose : close = .rparen ∨ close = .rbracket) :
    {es : List Expr} → (∀ e ∈ es, e.Parses) →
      ReadsMore (Expr.listPartings es) close (Expr.moreTokens es) es
  | [], _ => by
    rw [Expr.moreTokens, Expr.listPartings]
    exact .nil hclose
  | e :: _, h => by
    rw [Expr.moreTokens, Expr.listPartings]
    exact .cons hclose (h e List.mem_cons_self).reads
      (readsMore_tokens hclose fun e' he' => h e' (List.mem_cons_of_mem e he'))

/-- Expressions up to the closing bracket. -/
theorem expressionList_eq (hclose : close = .rparen ∨ close = .rbracket)
    (h : ∀ e ∈ es, e.Parses) (hfuel : 8 * (Expr.listTokens es).length < fuel) (t : Token)
    (rest : List Token) (errors : List ParseError) :
    expressionList fuel close ⟨t :: (Expr.listTokens es ++ close :: rest), errors⟩
      = .ok es ⟨close :: rest, reported (Expr.listPartings es) errors⟩ := by
  obtain ⟨f, rfl⟩ : ∃ f, fuel = f + 1 := ⟨fuel - 1, by omega⟩
  cases es with
  | nil =>
    rw [Expr.listTokens, Expr.listPartings]
    exact expressionList_nil t rest errors
  | cons e es =>
    obtain ⟨first, ts, htokens, hbegins, -⟩ := e.tokens_cons
    have hmore := readsMore_tokens hclose fun e' he' => h e' (List.mem_cons_of_mem e he')
    have hne : e.tokens.headD .eof ≠ close := by
      rw [htokens]
      show first ≠ close
      rintro rfl
      rcases hclose with rfl | rfl <;> cases hbegins
    simp only [Expr.listTokens, Expr.listPartings, List.length_append, List.append_assoc] at hfuel ⊢
    exact expressionList_cons hclose (h e List.mem_cons_self).reads hmore
      (by rw [htokens]; exact List.cons_ne_nil _ _) hne
      (by omega : 8 * (e.tokens.length + (Expr.moreTokens es).length) ≤ f) t rest errors

/-- The elements between the two brackets. -/
theorem Expr.Parses.array (h : ∀ e ∈ es, e.Parses) : (Expr.array es).Parses := by
  refine .of_operand fun fuel rest errors hfuel _ => ?_
  simp only [Expr.tokens, List.length_cons, List.length_append, List.length_nil] at hfuel
  obtain ⟨f, rfl⟩ : ∃ f, fuel = f + 1 := ⟨fuel - 1, by omega⟩
  have hlist := expressionList_eq (.inr rfl) h
    (by omega : 8 * (Expr.listTokens es).length < f) .lbracket rest errors
  refine ⟨.rbracket, Token.noConfusion, ?_⟩
  simp only [Expr.tokens, Expr.partings, List.cons_append, List.append_assoc, List.nil_append]
  show (expressionList f .rbracket >>= fun elements => pure (Expr.array elements)) _ = _
  rw [bind_ok hlist]
  rfl

/-- **A call is read by the loop of operators**: behind the callee it finds the opening parenthesis,
which binds more tightly than anything that may stand in front of an expression. -/
theorem Expr.Parses.call {callee : Expr} (hcallee : callee.Parses) (h : ∀ e ∈ es, e.Parses) :
    (Expr.call callee es).Parses := by
  intro fuel precedence rest errors hfuel hprecedence _
  simp only [Expr.tokens, List.length_cons, List.length_append, List.length_nil] at hfuel ⊢
  obtain ⟨f, t, hf, -, heq⟩ := hcallee fuel precedence
    (.lparen :: (Expr.listTokens es ++ .rparen :: rest)) errors (by omega) hprecedence
    Token.noConfusion
  obtain ⟨k, rfl⟩ : ∃ k, f = k + 1 := ⟨f - 1, by omega⟩
  have hlist := expressionList_eq (.inl rfl) h
    (by omega : 8 * (Expr.listTokens es).length < k) .lparen rest (reported callee.partings errors)
  refine ⟨k, .rparen, by omega, Token.noConfusion, ?_⟩
  simp only [Expr.partings, ← reported_reported, List.cons_append, List.append_assoc,
    List.nil_append]
  rw [heq, operators, bind_ok peek_eq]
  refine (congrFun (if_pos hprecedence) _).trans ?_
  show (advance >>= fun _ => expressionList k .rparen >>= fun args =>
    operators k precedence (.call callee args)) _ = _
  rw [bind_ok advance_eq, bind_ok hlist]

/-- **One pair**, with the key, the colon and the value; the next token behind it decides whether a
comma is demanded. -/
theorem pairsRest_pair {key value : Expr} (hkey : key.Parses) (hvalue : value.Parses) {fuel : Nat}
    (hfuel : 8 * key.tokens.length ≤ fuel) (hfuel' : 8 * value.tokens.length ≤ fuel)
    {behind : List Token} (hbound : bound behind = 0) (helse : behind.headD .eof ≠ .elseKw)
    (read : List (Expr × Expr)) (t : Token) (errors : List ParseError) :
    ∃ u, pairsRest (fuel + 1) read
        ⟨t :: (key.tokens ++ .colon :: (value.tokens ++ behind)), errors⟩
      = (peek >>= fun got =>
          if got ≠ .rbrace then expect .comma >>= fun _ => pairsRest fuel ((key, value) :: read)
          else pairsRest fuel ((key, value) :: read))
        ⟨u :: behind, reported value.partings (reported key.partings errors)⟩ := by
  obtain ⟨first, ts, htokens, hbegins, -⟩ := key.tokens_cons
  obtain ⟨s, -, hfirst⟩ := hkey.lowest_eq hfuel (.colon :: (value.tokens ++ behind)) rfl
    Token.noConfusion errors
  obtain ⟨u, -, hsecond⟩ := hvalue.lowest_eq hfuel' behind hbound helse
    (reported key.partings errors)
  have hpeek : peek ⟨t :: (key.tokens ++ .colon :: (value.tokens ++ behind)), errors⟩
      = .ok first ⟨t :: (key.tokens ++ .colon :: (value.tokens ++ behind)), errors⟩ := by
    rw [htokens]
    rfl
  -- no expression starts with a closing brace
  have hne : first ≠ .rbrace := by
    rintro rfl
    cases hbegins
  refine ⟨u, ?_⟩
  rw [pairsRest, bind_ok hpeek]
  refine (congrFun (if_neg hne) _).trans ?_
  rw [bind_ok advance_eq, bind_ok hfirst, bind_ok (expect_eq .colon), bind_ok advance_eq,
    bind_ok hsecond]

/-- **Pairs up to the closing brace.** Induction on the pairs, with the current token and the pairs
read so far general. Between two pairs the parser demands a comma and takes the rest as a new list,
so the case of one pair and the case of several meet in the same induction hypothesis. -/
theorem pairsRest_eq (h : ∀ pair ∈ pairs, pair.1.Parses ∧ pair.2.Parses)
    (hfuel : 8 * (Expr.pairsTokens pairs).length < fuel) (read : List (Expr × Expr)) (t : Token)
    (rest : List Token) (errors : List ParseError) :
    pairsRest fuel read ⟨t :: (Expr.pairsTokens pairs ++ .rbrace :: rest), errors⟩
      = .ok (read.reverse ++ pairs)
        ⟨.rbrace :: rest, reported (Expr.pairsPartings pairs) errors⟩ := by
  induction pairs generalizing fuel read t errors with
  | nil =>
    obtain ⟨f, rfl⟩ : ∃ f, fuel = f + 1 := ⟨fuel - 1, by omega⟩
    rw [Expr.pairsTokens, Expr.pairsPartings, List.nil_append, List.append_nil, pairsRest,
      bind_ok peek_eq]
    refine (congrFun (if_pos rfl) _).trans ?_
    rw [bind_ok advance_eq]
    rfl
  | cons pair pairs ih =>
    obtain ⟨key, value⟩ := pair
    obtain ⟨hkey, hvalue⟩ := h (key, value) List.mem_cons_self
    have hmore := fun pair hpair => h pair (List.mem_cons_of_mem _ hpair)
    simp only [Expr.pairsTokens, List.length_cons, List.length_append] at hfuel
    obtain ⟨f, rfl⟩ : ∃ f, fuel = f + 1 := ⟨fuel - 1, by omega⟩
    -- what follows the value: a comma and the other pairs, or the closing brace
    have hbehind : bound (Expr.morePairsTokens pairs ++ .rbrace :: rest) = 0
        ∧ (Expr.morePairsTokens pairs ++ .rbrace :: rest).headD .eof ≠ .elseKw := by
      cases pairs with
      | nil =>
        rw [Expr.morePairsTokens]
        exact ⟨rfl, Token.noConfusion⟩
      | cons pair pairs =>
        rw [Expr.morePairsTokens]
        exact ⟨rfl, Token.noConfusion⟩
    obtain ⟨u, hpair⟩ := pairsRest_pair hkey hvalue (by omega : 8 * key.tokens.length ≤ f)
      (by omega : 8 * value.tokens.length ≤ f) hbehind.1 hbehind.2 read t errors
    simp only [Expr.pairsTokens, List.cons_append, List.append_assoc]
    rw [hpair]
    rw [Expr.pairsPartings, ← reported_reported, ← reported_reported]
    cases pairs with
    | nil =>
      rw [Expr.morePairsTokens, List.length_nil] at hfuel
      have hrest := ih hmore (by rw [Expr.pairsTokens, List.length_nil]; omega : _ < f)
        ((key, value) :: read) u (reported value.partings (reported key.partings errors))
      rw [Expr.morePairsTokens, bind_ok peek_eq]
      refine (congrFun (if_neg (not_not.mpr rfl)) _).trans ?_
      rw [Expr.pairsTokens] at hrest
      rw [hrest, List.reverse_cons, List.append_assoc]
      rfl
    | cons next pairs =>
      have hcomma : Expr.morePairsTokens (next :: pairs)
          = .comma :: Expr.pairsTokens (next :: pairs) := by
        rw [Expr.morePairsTokens, Expr.pairsTokens]
      rw [hcomma, List.length_cons] at hfuel
      have hrest := ih hmore (by omega : _ < f) ((key, value) :: read) .comma
        (reported value.partings (reported key.partings errors))
      rw [hcomma, List.cons_append, bind_ok peek_eq]
      refine (congrFun (if_pos Token.noConfusion) _).trans ?_
      rw [bind_ok (expect_eq .comma), hrest, List.reverse_cons, List.append_assoc]
      rfl

/-- The pairs between the two braces. -/
theorem Expr.Parses.hash (h : ∀ pair ∈ pairs, pair.1.Parses ∧ pair.2.Parses) :
    (Expr.hash pairs).Parses := by
  refine .of_operand fun fuel rest errors hfuel _ => ?_
  simp only [Expr.tokens, List.length_cons, List.length_append, List.length_nil] at hfuel
  obtain ⟨f, rfl⟩ : ∃ f, fuel = f + 1 := ⟨fuel - 1, by omega⟩
  have hpairs := pairsRest_eq h
    (by omega : 8 * (Expr.pairsTokens pairs).length < f) [] .lbrace rest errors
  refine ⟨.rbrace, Token.noConfusion, ?_⟩
  simp only [Expr.tokens, Expr.partings, List.cons_append, List.append_assoc, List.nil_append]
  show (pairsRest f [] >>= fun pairs => pure (Expr.hash pairs)) _ = _
  rw [bind_ok hpairs]
  rfl

end

/-! ## Statements

A statement ends where its last token has been read, and then `close` takes a semicolon if one
follows. Whether it does is left open in `Stmt.Parses`, because the semicolon is not one of the
tokens of the statement; the list in which the statement stands decides. -/

/-- What a statement does behind its last token: all but loops may take a semicolon. That a loop
does not is the way the grammar is written, and the one reason for errors in a rendered program. -/
def Parser.close : Stmt → Parse Unit
  | .loop _ _ _ _ => pure ()
  | _ => skipSemicolon

/-- Tokens that may stand behind a statement. -/
def Token.ends : Token → Bool
  | .semicolon | .rbrace | .rparen | .eof => true
  | _ => false

/-- **Reading the tokens of a statement comes to its end**, where the semicolon is still to be
taken. -/
def Stmt.Parses (s : Stmt) : Prop :=
  ∀ fuel rest errors, 8 * s.tokens.length + 2 ≤ fuel → (rest.headD .eof).ends = true →
    ∃ t, t ≠ .semicolon ∧ statement fuel ⟨s.tokens ++ rest, errors⟩
      = (close s >>= fun _ => pure s) ⟨t :: rest, reported s.partings errors⟩

section

variable {s : Stmt} {t : Token} {rest : List Token} {errors : List ParseError} {fuel : Nat}

theorem close_of_ne (s : Stmt) (h : rest.headD .eof ≠ .semicolon) :
    close s ⟨t :: rest, errors⟩ = .ok () ⟨t :: rest, errors⟩ := by
  cases s <;> first | rfl | exact skipSemicolon_none h

/-- A semicolon behind a statement is taken, unless the statement is a loop. -/
theorem close_cases (s : Stmt) (t : Token) (rest : List Token) (errors : List ParseError) :
    close s ⟨t :: rest, errors⟩ = .ok () ⟨t :: rest, errors⟩
        ∧ (rest.headD .eof = .semicolon → ∀ next body, s.parting (next :: body) = 1)
      ∨ close s ⟨t :: rest, errors⟩ = .ok () ⟨rest, errors⟩
        ∧ rest.headD .eof = .semicolon ∧ ∀ next body, s.parting (next :: body) = 0 := by
  by_cases hsemicolon : rest.headD .eof = .semicolon
  · cases rest with
    | nil => cases hsemicolon
    | cons u rest =>
      obtain rfl : u = .semicolon := hsemicolon
      cases s <;>
        first
          | exact .inl ⟨rfl, fun _ _ _ => rfl⟩
          | exact .inr ⟨rfl, rfl, fun _ _ => rfl⟩
  · exact .inl ⟨close_of_ne s hsemicolon, fun h => absurd h hsemicolon⟩

theorem ends_bound (h : (rest.headD .eof).ends = true) :
    bound rest = 0 ∧ rest.headD .eof ≠ .elseKw := by
  unfold bound
  cases hhead : rest.headD .eof <;> rw [hhead] at h <;>
    first | exact ⟨rfl, Token.noConfusion⟩ | cases h

end

/-! ### Blocks

A block and a whole program are read by the same loop with different fuels: one gives less fuel to
each further statement, the other the same. `Repeats` is what the two have in common. -/

section

variable {body : List Stmt} {fuel : Nat}

/-- **A statement of a block or of the program is read, and perhaps a semicolon behind it.** The two
outcomes are told apart by where the parser stands afterwards, since that decides what the step to
the next token passes over. -/
theorem attempt_eq {s : Stmt} (h : s.Parses) (hfuel : 8 * s.tokens.length + 3 ≤ fuel)
    (rest : List Token) (hrest : (rest.headD .eof).ends = true) (errors : List ParseError) :
    ∃ t, attempt fuel ⟨s.tokens ++ rest, errors⟩
          = .ok (some s) ⟨t :: rest, reported s.partings errors⟩
        ∧ (rest.headD .eof = .semicolon → ∀ next body, s.parting (next :: body) = 1)
      ∨ attempt fuel ⟨s.tokens ++ rest, errors⟩ = .ok (some s) ⟨rest, reported s.partings errors⟩
        ∧ rest.headD .eof = .semicolon ∧ ∀ next body, s.parting (next :: body) = 0 := by
  obtain ⟨f, rfl⟩ : ∃ f, fuel = f + 1 := ⟨fuel - 1, by omega⟩
  obtain ⟨t, -, heq⟩ := h f rest errors (by omega) hrest
  refine ⟨t, ?_⟩
  rcases close_cases s t rest (reported s.partings errors) with
    ⟨hclose, hparting⟩ | ⟨hclose, hparting⟩
  · rw [bind_ok hclose] at heq
    refine .inl ⟨?_, hparting⟩
    unfold attempt
    rw [heq]
    rfl
  · rw [bind_ok hclose] at heq
    refine .inr ⟨?_, hparting⟩
    unfold attempt
    rw [heq]
    rfl

/-- A semicolon that no statement takes is an error of its own, and is passed over. -/
theorem attempt_semicolon (fuel : Nat) (rest : List Token) (errors : List ParseError) :
    attempt (fuel + 5) ⟨.semicolon :: rest, errors⟩
      = .ok none ⟨.semicolon :: rest, .noExpression .semicolon :: errors⟩ := rfl

/-- A rule that attempts one statement after another. Where it may take `n` more, it has `fuel n`
for the next one. -/
structure Parser.Repeats (rule : Nat → List Stmt → Parse (List Stmt)) (fuel : Nat → Nat) :
    Prop where
  slow : ∀ n, fuel (n + 1) ≤ fuel n + 1
  next : ∀ {n t tokens errors made u rest errors'}, t ≠ .rbrace → t ≠ .eof →
    attempt (fuel n) ⟨t :: tokens, errors⟩ = .ok made ⟨u :: rest, errors'⟩ → ∀ read,
      rule (n + 1) read ⟨t :: tokens, errors⟩ = rule n (made.toList ++ read) ⟨rest, errors'⟩

/-- In a block the number of statements that may follow is the fuel itself. -/
theorem repeats_blockRest : Repeats blockRest fun n => n where
  slow _ := Nat.le_refl _
  next {n t tokens errors made u rest errors'} ht ht' h read := by
    rw [blockRest, bind_ok current_eq]
    split
    · contradiction
    · contradiction
    · rw [bind_ok h]
      cases made <;> rfl

/-- At the top of a program every statement gets the whole fuel. -/
theorem repeats_statements (fuel : Nat) : Repeats (statements fuel) fun _ => fuel where
  slow _ := Nat.le_succ _
  next {n t tokens errors made u rest errors'} _ ht' h read := by
    rw [statements, bind_ok current_eq]
    split
    · contradiction
    · rw [bind_ok h]
      cases made <;> rfl

/-- **Such a rule reads the tokens of statements back.** Behind a loop it attempts the semicolon
too, which is an error and leaves no statement. Induction on the statements, with the number of
attempts and the errors general: one statement takes one attempt, or two with the semicolon behind
it. -/
theorem Parser.Repeats.read_eq {rule : Nat → List Stmt → Parse (List Stmt)} {fuel : Nat → Nat}
    (hrule : Repeats rule fuel) {n : Nat} (h : ∀ s ∈ body, s.Parses)
    (hfuel : 8 * (Stmt.listTokens body).length + 4 ≤ fuel n)
    (hn : (Stmt.listTokens body).length ≤ n) (read : List Stmt) (rest : List Token)
    (hrest : (rest.headD .eof).ends = true) (hsemicolon : rest.headD .eof ≠ .semicolon)
    (errors : List ParseError) :
    ∃ n', n ≤ n' + (Stmt.listTokens body).length
      ∧ rule n read ⟨Stmt.listTokens body ++ rest, errors⟩
        = rule n' (body.reverse ++ read) ⟨rest, reported (Stmt.listPartings body) errors⟩ := by
  induction body generalizing n read errors with
  | nil =>
    rw [Stmt.listTokens, Stmt.listPartings]
    exact ⟨n, Nat.le_refl n, rfl⟩
  | cons s body ih =>
    have hs := h s List.mem_cons_self
    have hmore := fun s' hs' => h s' (List.mem_cons_of_mem s hs')
    obtain ⟨first, ts, htokens, hne, hne'⟩ := s.tokens_cons
    have hlength : s.tokens.length = ts.length + 1 := by rw [htokens, List.length_cons]
    have hreverse : (s :: body).reverse ++ read = body.reverse ++ ((some s).toList ++ read) := by
      rw [List.reverse_cons, List.append_assoc]
      rfl
    rw [Stmt.listTokens, List.length_append] at hfuel hn ⊢
    obtain ⟨m, rfl⟩ : ∃ m, n = m + 1 := ⟨n - 1, by omega⟩
    have hslow := hrule.slow m
    rw [hreverse, List.append_assoc, Stmt.listPartings, ← reported_reported]
    -- what stands behind the statement: the end of the list, or a semicolon and the next one
    cases body with
    | nil =>
      rw [Stmt.moreTokens, List.nil_append, Stmt.parting_nil, Stmt.listPartings]
      obtain ⟨t, ⟨hattempt, -⟩ | ⟨-, hhead, -⟩⟩ := attempt_eq hs
        (by omega : 8 * s.tokens.length + 3 ≤ fuel m) rest hrest errors
      · rw [htokens, List.cons_append] at hattempt ⊢
        rw [hrule.next hne hne' hattempt]
        exact ⟨m, by simp only [List.length_cons]; omega, rfl⟩
      · contradiction
    | cons s' body =>
      have hparted : Stmt.moreTokens (s' :: body) = .semicolon :: Stmt.listTokens (s' :: body) := by
        rw [Stmt.moreTokens, Stmt.listTokens]
      rw [hparted, List.length_cons] at hfuel hn ⊢
      rw [List.cons_append]
      obtain ⟨t, ⟨hattempt, hparting⟩ | ⟨hattempt, -, hparting⟩⟩ := attempt_eq hs
        (by omega : 8 * s.tokens.length + 3 ≤ fuel m)
        (.semicolon :: (Stmt.listTokens (s' :: body) ++ rest)) rfl errors
      · -- the semicolon is still there
        obtain ⟨k, rfl⟩ : ∃ k, m = k + 1 := ⟨m - 1, by omega⟩
        have hslow' := hrule.slow k
        obtain ⟨f, hf⟩ : ∃ f, fuel k = f + 5 := ⟨fuel k - 5, by omega⟩
        obtain ⟨n', hn', heq⟩ := ih hmore (by omega : _ ≤ fuel k) (by omega)
          ((some s).toList ++ read) (reported 1 (reported s.partings errors))
        have hskip := attempt_semicolon f (Stmt.listTokens (s' :: body) ++ rest)
          (reported s.partings errors)
        rw [← hf] at hskip
        refine ⟨n', by omega, ?_⟩
        rw [hparting rfl, ← reported_reported, ← heq]
        rw [htokens, List.cons_append] at hattempt ⊢
        rw [hrule.next hne hne' hattempt, hrule.next Token.noConfusion Token.noConfusion hskip]
        rfl
      · obtain ⟨n', hn', heq⟩ := ih hmore (by omega : _ ≤ fuel m) (by omega)
          ((some s).toList ++ read) (reported s.partings errors)
        refine ⟨n', by omega, ?_⟩
        rw [hparting, Nat.zero_add]
        rw [htokens, List.cons_append] at hattempt ⊢
        rw [hrule.next hne hne' hattempt, heq]

/-- A block between its braces. -/
theorem block_eq (h : ∀ s ∈ body, s.Parses)
    (hfuel : 8 * (Stmt.listTokens body).length + 5 ≤ fuel) (rest : List Token)
    (errors : List ParseError) :
    block fuel ⟨.lbrace :: (Stmt.listTokens body ++ .rbrace :: rest), errors⟩
      = .ok body ⟨.rbrace :: rest, reported (Stmt.listPartings body) errors⟩ := by
  obtain ⟨f, rfl⟩ : ∃ f, fuel = f + 1 := ⟨fuel - 1, by omega⟩
  obtain ⟨n, hn, hrest⟩ := repeats_blockRest.read_eq h (by omega : _ ≤ f) (by omega) []
    (.rbrace :: rest) rfl Token.noConfusion errors
  obtain ⟨m, rfl⟩ : ∃ m, n = m + 1 := ⟨n - 1, by omega⟩
  rw [block, bind_ok advance_eq, hrest, blockRest, bind_ok current_eq, List.append_nil]
  show EStateM.Result.ok body.reverse.reverse _ = _
  rw [List.reverse_reverse]

end

/-! ### Functions and conditions

Both are operands with a keyword at their start. Their lemmas come in pairs: one about the rule,
with what its parts read as hypotheses, and one that fills in the tokens of the tree. -/

section

variable {body : List Stmt} {params : List String} {test : Expr} {fuel : Nat} {t : Token}
  {tokens rest : List Token} {errors errors' : List ParseError}

/-- Induction on the names, collected in reverse. -/
theorem paramsRest_eq (hfuel : params.length < fuel) (read : List String) (t : Token)
    (rest : List Token) (errors : List ParseError) :
    paramsRest fuel read ⟨t :: (moreParamTokens params ++ .rparen :: rest), errors⟩
      = .ok (read.reverse ++ params) ⟨.rparen :: rest, errors⟩ := by
  induction params generalizing fuel read t with
  | nil =>
    obtain ⟨f, rfl⟩ : ∃ f, fuel = f + 1 := ⟨fuel - 1, by omega⟩
    rw [List.append_nil]
    rfl
  | cons name params ih =>
    obtain ⟨f, rfl⟩ : ∃ f, fuel = f + 1 := ⟨fuel - 1, by omega⟩
    have hrest := ih (Nat.lt_of_succ_lt_succ hfuel) (name :: read) (.ident name)
    rw [List.reverse_cons, List.append_assoc] at hrest
    exact hrest

/-- The parameters of a function. -/
theorem params_eq (hfuel : params.length ≤ fuel) (t : Token) (rest : List Token)
    (errors : List ParseError) :
    Parser.params fuel ⟨t :: (paramTokens params ++ .rparen :: rest), errors⟩
      = .ok params ⟨.rparen :: rest, errors⟩ := by
  cases params with
  | nil => rfl
  | cons name params => exact paramsRest_eq hfuel [name] (.ident name) rest errors

theorem length_paramTokens (params : List String) :
    params.length ≤ (paramTokens params).length := by
  have hmore : ∀ names, names.length ≤ (moreParamTokens names).length := by
    intro names
    induction names with
    | nil => exact Nat.le_refl 0
    | cons name names ih => exact Nat.succ_le_succ (Nat.le_succ_of_le ih)
  cases params with
  | nil => exact Nat.le_refl 0
  | cons name params => exact Nat.succ_le_succ (hmore params)

/-- A function from its keyword to the end of its body. -/
theorem operand_fn {names : List String} {rest' : List Token}
    (hparams : Parser.params fuel ⟨.lparen :: tokens, errors⟩
      = .ok names ⟨.rparen :: .lbrace :: rest', errors⟩)
    (hblock : block fuel ⟨.lbrace :: rest', errors⟩ = .ok body ⟨t :: rest, errors'⟩) :
    operand (fuel + 1) ⟨.function :: .lparen :: tokens, errors⟩
      = .ok (.fn names body) ⟨t :: rest, errors'⟩ := by
  rw [operand, bind_ok current_eq]
  show (expect .lparen >>= fun _ => Parser.params fuel >>= fun names => expect .lbrace >>= fun _ =>
    block fuel >>= fun body => pure (Expr.fn names body)) _ = _
  rw [bind_ok (expect_eq .lparen), bind_ok hparams, bind_ok (expect_eq .lbrace), bind_ok hblock]
  rfl

/-- The parameters of a function, and its body as a block. -/
theorem Expr.Parses.fn (h : ∀ s ∈ body, s.Parses) : (Expr.fn params body).Parses := by
  refine .of_operand fun fuel rest errors hfuel _ => ?_
  simp only [Expr.tokens, Stmt.blockTokens, List.length_cons, List.length_append,
    List.length_nil] at hfuel
  have hparams := length_paramTokens params
  obtain ⟨f, rfl⟩ : ∃ f, fuel = f + 1 := ⟨fuel - 1, by omega⟩
  have hblock := block_eq h (by omega : _ ≤ f) rest errors
  refine ⟨.rbrace, Token.noConfusion, ?_⟩
  simp only [Expr.tokens, Expr.partings, Stmt.blockTokens, List.cons_append, List.append_assoc,
    List.nil_append]
  exact operand_fn (params_eq (by omega) _ _ _) hblock

/-- A condition is read up to its first branch; the other one is there if its keyword is. -/
theorem operand_cond {yes : List Stmt} {after : List Token} {u : Token}
    {errors₁ errors₂ : List ParseError}
    (htest : expression fuel .lowest ⟨tokens, errors⟩
      = .ok test ⟨u :: .rparen :: .lbrace :: after, errors₁⟩)
    (hyes : block fuel ⟨.lbrace :: after, errors₁⟩ = .ok yes ⟨t :: rest, errors₂⟩) :
    operand (fuel + 2) ⟨.ifKw :: .lparen :: tokens, errors⟩ = (peek >>= fun got =>
      if got = .elseKw then advance >>= fun _ => expect .lbrace >>= fun _ =>
        block fuel >>= fun no => pure (.cond test yes (some no))
      else pure (.cond test yes none)) ⟨t :: rest, errors₂⟩ := by
  rw [operand, bind_ok current_eq]
  show condition (fuel + 1) _ = _
  rw [condition, bind_ok (expect_eq .lparen), bind_ok advance_eq, bind_ok htest,
    bind_ok (expect_eq .rparen), bind_ok (expect_eq .lbrace), bind_ok hyes]

/-- The test, the first branch, and the second one if there is one. If there is none, the next token
is not `else`, which is what `Expr.Parses` asks of it. -/
theorem Expr.Parses.cond {yes : List Stmt} {no : Option (List Stmt)} (htest : test.Parses)
    (hyes : ∀ s ∈ yes, s.Parses) (hno : ∀ other ∈ no, ∀ s ∈ other, s.Parses) :
    (Expr.cond test yes no).Parses := by
  refine .of_operand fun fuel rest errors hfuel helse => ?_
  simp only [Expr.tokens, Stmt.blockTokens, List.length_cons, List.length_append,
    List.length_nil] at hfuel
  obtain ⟨f, rfl⟩ : ∃ f, fuel = f + 2 := ⟨fuel - 2, by omega⟩
  simp only [Expr.tokens, Expr.partings, ← reported_reported, Stmt.blockTokens, List.cons_append,
    List.append_assoc, List.nil_append]
  obtain ⟨u, -, hfirst⟩ := htest.lowest_eq (by omega : 8 * test.tokens.length ≤ f)
    (.rparen :: .lbrace :: (Stmt.listTokens yes ++ .rbrace :: (Stmt.elseTokens no ++ rest))) rfl
    Token.noConfusion errors
  have hsecond := block_eq hyes (by omega : _ ≤ f) (Stmt.elseTokens no ++ rest)
    (reported test.partings errors)
  rw [operand_cond hfirst hsecond, bind_ok peek_eq]
  cases no with
  | none =>
    rw [Stmt.elseTokens, List.nil_append, Stmt.elsePartings]
    exact ⟨.rbrace, Token.noConfusion, congrFun (if_neg helse) _⟩
  | some other =>
    rw [Stmt.elseTokens, Stmt.blockTokens, List.length_cons, List.length_cons, List.length_append,
      List.length_singleton] at hfuel
    -- behind `else` there is a block like the first one
    have hthird := block_eq (hno other rfl) (by omega : _ ≤ f) rest
      (reported (Stmt.listPartings yes) (reported test.partings errors))
    refine ⟨.rbrace, Token.noConfusion, ?_⟩
    simp only [Stmt.elseTokens, Stmt.elsePartings, Stmt.blockTokens, List.cons_append,
      List.append_assoc, List.nil_append]
    refine (congrFun (if_pos rfl) _).trans ?_
    rw [bind_ok advance_eq, bind_ok (expect_eq .lbrace), bind_ok hthird]
    rfl

end

/-! ### Statements on their own

One lemma for each kind of statement: the keyword tells which rule reads it, and an expression at
its end is read up to the token that ends the statement. -/

section

variable {value test : Expr} {init post : Stmt} {body : List Stmt} {name : String} {fuel : Nat}
  {tokens rest : List Token} {errors : List ParseError}

/-- A statement of one token. -/
theorem Stmt.Parses.leaf {s : Stmt} {t : Token} (htokens : s.tokens = [t])
    (hpartings : s.partings = 0) (ht : t ≠ .semicolon)
    (h : ∀ fuel rest errors, statement (fuel + 1) ⟨t :: rest, errors⟩
      = (close s >>= fun _ => pure s) ⟨t :: rest, errors⟩) : s.Parses := by
  intro fuel rest errors hfuel _
  rw [htokens] at hfuel ⊢
  obtain ⟨f, rfl⟩ : ∃ f, fuel = f + 1 := ⟨fuel - 1, by omega⟩
  rw [hpartings]
  exact ⟨t, ht, h f rest errors⟩

/-- The name, the equals sign and the value. -/
theorem Stmt.Parses.bind (h : value.Parses) : (Stmt.bind name value).Parses := by
  intro fuel rest errors hfuel hrest
  simp only [Stmt.tokens, List.length_cons] at hfuel
  obtain ⟨f, rfl⟩ : ∃ f, fuel = f + 1 := ⟨fuel - 1, by omega⟩
  obtain ⟨hbound, helse⟩ := ends_bound hrest
  obtain ⟨t, ht, heq⟩ := h.lowest_eq (by omega : _ ≤ f) rest hbound helse errors
  refine ⟨t, ht, ?_⟩
  simp only [Stmt.tokens, Stmt.partings, List.cons_append]
  rw [statement, bind_ok current_eq]
  show (expectName >>= fun name => expect .assign >>= fun _ => advance >>= fun _ =>
    expression f .lowest >>= fun value => skipSemicolon >>= fun _ =>
      pure (Stmt.bind name value)) _ = _
  rw [bind_ok (expectName_eq name), bind_ok (expect_eq .assign), bind_ok advance_eq, bind_ok heq]
  rfl

/-- A name with an equals sign behind it is an assignment and not an expression. -/
theorem Stmt.Parses.assign (h : value.Parses) : (Stmt.assign name value).Parses := by
  intro fuel rest errors hfuel hrest
  simp only [Stmt.tokens, List.length_cons] at hfuel
  obtain ⟨f, rfl⟩ : ∃ f, fuel = f + 1 := ⟨fuel - 1, by omega⟩
  obtain ⟨hbound, helse⟩ := ends_bound hrest
  obtain ⟨t, ht, heq⟩ := h.lowest_eq (by omega : _ ≤ f) rest hbound helse errors
  refine ⟨t, ht, ?_⟩
  simp only [Stmt.tokens, Stmt.partings, List.cons_append]
  rw [statement, bind_ok current_eq]
  show (advance >>= fun _ => advance >>= fun _ => expression f .lowest >>= fun value =>
    skipSemicolon >>= fun _ => pure (Stmt.assign name value)) _ = _
  rw [bind_ok advance_eq, bind_ok advance_eq, bind_ok heq]
  rfl

theorem Stmt.Parses.ret (h : value.Parses) : (Stmt.ret value).Parses := by
  intro fuel rest errors hfuel hrest
  simp only [Stmt.tokens, List.length_cons] at hfuel
  obtain ⟨f, rfl⟩ : ∃ f, fuel = f + 1 := ⟨fuel - 1, by omega⟩
  obtain ⟨hbound, helse⟩ := ends_bound hrest
  obtain ⟨t, ht, heq⟩ := h.lowest_eq (by omega : _ ≤ f) rest hbound helse errors
  refine ⟨t, ht, ?_⟩
  simp only [Stmt.tokens, Stmt.partings, List.cons_append]
  rw [statement, bind_ok current_eq]
  show (advance >>= fun _ => expression f .lowest >>= fun value =>
    skipSemicolon >>= fun _ => pure (Stmt.ret value)) _ = _
  rw [bind_ok advance_eq, bind_ok heq]
  rfl

/-- The tokens of an expression are not taken for a statement of another kind: none of the keywords
of statements begins an expression, and a name at its start is not followed by an equals sign. -/
theorem statement_expr (e : Expr) (hrest : rest.headD .eof ≠ .assign) :
    statement (fuel + 1) ⟨e.tokens ++ rest, errors⟩
      = expressionStatement fuel ⟨e.tokens ++ rest, errors⟩ := by
  obtain ⟨t, ts, htokens, hbegins, hname⟩ := e.tokens_cons
  rw [htokens, List.cons_append, statement, bind_ok current_eq]
  split
  case h_6 name =>
    have hpeek : (ts ++ rest).headD .eof ≠ .assign := by
      cases ts with
      | nil => exact hrest
      | cons u ts =>
        obtain rfl : u = .lparen := hname name rfl
        exact Token.noConfusion
    rw [bind_ok peek_eq]
    exact congrFun (if_neg hpeek) _
  case h_7 => rfl
  all_goals cases hbegins

theorem Stmt.Parses.expr (h : value.Parses) : (Stmt.expr value).Parses := by
  intro fuel rest errors hfuel hrest
  rw [Stmt.tokens] at hfuel ⊢
  obtain ⟨f, rfl⟩ : ∃ f, fuel = f + 2 := ⟨fuel - 2, by omega⟩
  obtain ⟨hbound, helse⟩ := ends_bound hrest
  obtain ⟨t, ht, heq⟩ := h.lowest_eq (by omega : _ ≤ f) rest hbound helse errors
  have hassign : rest.headD .eof ≠ .assign := by
    intro hassign
    rw [hassign] at hrest
    cases hrest
  refine ⟨t, ht, ?_⟩
  rw [statement_expr value hassign, expressionStatement, bind_ok heq, Stmt.partings]
  rfl

/-- The head of a loop up to its condition, whether or not the first statement takes the semicolon
behind it. -/
theorem forStatement_init (h : init.Parses) (hfuel : 8 * init.tokens.length + 2 ≤ fuel)
    (tokens : List Token) (errors : List ParseError) :
    forStatement (fuel + 1) ⟨.forKw :: .lparen :: (init.tokens ++ .semicolon :: tokens), errors⟩
      = (expression fuel .lowest >>= fun test => expect .semicolon >>= fun _ =>
          advance >>= fun _ => statement fuel >>= fun post => expect .rparen >>= fun _ =>
          expect .lbrace >>= fun _ => block fuel >>= fun body => pure (.loop init test post body))
        ⟨tokens, reported init.partings errors⟩ := by
  obtain ⟨t, ht, heq⟩ := h fuel (.semicolon :: tokens) errors hfuel rfl
  rw [forStatement, bind_ok (expect_eq .lparen), bind_ok advance_eq]
  rcases close_cases init t (.semicolon :: tokens) (reported init.partings errors) with
    ⟨hclose, -⟩ | ⟨hclose, -⟩
  · rw [bind_ok hclose] at heq
    rw [bind_ok heq, bind_ok current_eq]
    refine (congrFun (if_pos ht) _).trans ?_
    rw [bind_ok (expect_eq .semicolon)]
    exact bind_ok advance_eq _
  · rw [bind_ok hclose] at heq
    rw [bind_ok heq, bind_ok current_eq]
    refine (congrFun (if_neg (not_not.mpr rfl)) _).trans ?_
    exact bind_ok advance_eq _

/-- **A loop is read up to the brace of its body.** Its first statement may or may not take the
semicolon in the head, as any statement does; the rule is prepared for both
(`forStatement_init`). -/
theorem Stmt.Parses.loop (hinit : init.Parses) (htest : test.Parses) (hpost : post.Parses)
    (hbody : ∀ s ∈ body, s.Parses) : (Stmt.loop init test post body).Parses := by
  intro fuel rest errors hfuel _
  simp only [Stmt.tokens, Stmt.blockTokens, List.length_cons, List.length_append,
    List.length_nil] at hfuel
  obtain ⟨f, rfl⟩ : ∃ f, fuel = f + 2 := ⟨fuel - 2, by omega⟩
  simp only [Stmt.tokens, Stmt.partings, ← reported_reported, Stmt.blockTokens, List.cons_append,
    List.append_assoc, List.nil_append]
  -- the three parts of the head and the body, each with the errors of those before it
  have hfirst := forStatement_init hinit (by omega : _ ≤ f) (test.tokens ++ .semicolon
    :: (post.tokens ++ .rparen :: .lbrace :: (Stmt.listTokens body ++ .rbrace :: rest))) errors
  obtain ⟨t, -, hsecond⟩ := htest.lowest_eq (by omega : _ ≤ f) (.semicolon ::
    (post.tokens ++ .rparen :: .lbrace :: (Stmt.listTokens body ++ .rbrace :: rest))) rfl
    Token.noConfusion (reported init.partings errors)
  obtain ⟨u, -, hthird⟩ := hpost f
    (.rparen :: .lbrace :: (Stmt.listTokens body ++ .rbrace :: rest))
    (reported test.partings (reported init.partings errors)) (by omega) rfl
  rw [bind_ok (close_of_ne post Token.noConfusion)] at hthird
  have hblock := block_eq hbody (by omega : _ ≤ f) rest
    (reported post.partings (reported test.partings (reported init.partings errors)))
  refine ⟨.rbrace, Token.noConfusion, ?_⟩
  rw [statement, bind_ok current_eq]
  show forStatement (f + 1) _ = _
  rw [hfirst, bind_ok hsecond, bind_ok (expect_eq .semicolon), bind_ok advance_eq, bind_ok hthird,
    bind_ok (expect_eq .rparen), bind_ok (expect_eq .lbrace), bind_ok hblock]
  rfl

end

/-! ## Readable trees

All constructors together. The recursion is on the tree; what makes it go through is that `Parses`
asks nothing of the place in which the tree stands besides what its tokens need. -/

mutual

/-- **The tokens of a readable expression are read as the expression.** -/
theorem Expr.Readable.parses : {e : Expr} → e.Readable → e.Parses
  | .ident name, _ => .leaf (t := .ident name) (by rw [Expr.tokens]) (by rw [Expr.partings]) nofun
    fun _ _ _ => rfl
  | .int value, h => .leaf (t := .int (toString value.toInt)) (by rw [Expr.tokens])
    (by rw [Expr.partings]) nofun fun _ _ _ => integer_eq h
  | .str value, _ => .leaf (t := .str value) (by rw [Expr.tokens]) (by rw [Expr.partings]) nofun
    fun _ _ _ => rfl
  | .bool true, _ => .leaf (t := .trueKw) (by rw [Expr.tokens]; rfl) (by rw [Expr.partings])
    nofun fun _ _ _ => rfl
  | .bool false, _ => .leaf (t := .falseKw) (by rw [Expr.tokens]; rfl) (by rw [Expr.partings])
    nofun fun _ _ _ => rfl
  | .float _, h => h.elim
  | .array _, h => .array (Expr.ReadableList.parses h)
  | .hash _, h => .hash (Expr.ReadablePairs.parses h)
  | .prefixOp _ _, ⟨hop, h⟩ => .prefixOp hop h.parses
  | .infixOp _ _ _, ⟨hleft, hop, hright⟩ => .infixOp hleft.parses hop hright.parses
  | .cond _ _ _, ⟨htest, hyes, hno⟩ =>
    .cond htest.parses (Stmt.ReadableList.parses hyes) (Stmt.ReadableOption.parses hno)
  | .fn _ _, ⟨_, hbody⟩ => .fn (Stmt.ReadableList.parses hbody)
  | .call _ _, ⟨hcallee, hargs⟩ => .call hcallee.parses (Expr.ReadableList.parses hargs)
  | .index _ _, ⟨hleft, hright⟩ => .index hleft.parses hright.parses

theorem Expr.ReadableList.parses : {es : List Expr} → Expr.ReadableList es → ∀ e ∈ es, e.Parses
  | [], _ => nofun
  | _ :: _, ⟨h, hmore⟩ => List.forall_mem_cons.mpr ⟨h.parses, Expr.ReadableList.parses hmore⟩

theorem Expr.ReadablePairs.parses : {pairs : List (Expr × Expr)} → Expr.ReadablePairs pairs →
    ∀ pair ∈ pairs, pair.1.Parses ∧ pair.2.Parses
  | [], _ => nofun
  | (_, _) :: _, ⟨hkey, hvalue, hmore⟩ =>
    List.forall_mem_cons.mpr ⟨⟨hkey.parses, hvalue.parses⟩, Expr.ReadablePairs.parses hmore⟩

/-- **The tokens of a readable statement are read as the statement.** -/
theorem Stmt.Readable.parses : {s : Stmt} → s.Readable → s.Parses
  | .bind _ _, ⟨_, h⟩ => .bind h.parses
  | .assign _ _, ⟨_, h⟩ => .assign h.parses
  | .ret _, h => .ret (Expr.Readable.parses h)
  | .expr _, h => .expr (Expr.Readable.parses h)
  | .block _, h => h.elim
  | .loop _ _ _ _, ⟨hinit, htest, hpost, hbody⟩ =>
    .loop hinit.parses htest.parses hpost.parses (Stmt.ReadableList.parses hbody)
  | .breakLoop, _ => .leaf (t := .breakKw) (by rw [Stmt.tokens]) (by rw [Stmt.partings])
    nofun fun _ _ _ => rfl
  | .continueLoop, _ => .leaf (t := .continueKw) (by rw [Stmt.tokens]) (by rw [Stmt.partings])
    nofun fun _ _ _ => rfl

theorem Stmt.ReadableList.parses : {body : List Stmt} → Stmt.ReadableList body →
    ∀ s ∈ body, s.Parses
  | [], _ => nofun
  | _ :: _, ⟨h, hmore⟩ => List.forall_mem_cons.mpr ⟨h.parses, Stmt.ReadableList.parses hmore⟩

theorem Stmt.ReadableOption.parses : {no : Option (List Stmt)} → Stmt.ReadableOption no →
    ∀ other ∈ no, ∀ s ∈ other, s.Parses
  | none, _ => nofun
  | some _, h => fun _ hother => Option.some.inj hother ▸ Stmt.ReadableList.parses h

end

end Scriptlet
