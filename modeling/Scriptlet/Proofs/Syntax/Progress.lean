import Scriptlet.Proofs.Syntax.Reading

/-!
# The parser comes to an end

The rules of the parser recurse on fuel, but what they answer does not depend on it: from any state
there is one result that they come to with all fuels that are large enough (`Settles`), and eight
times the number of tokens and some more is enough. For each token at most eight calls are nested,
because a rule that calls itself again, directly or through others, has taken a token.

An error costs a token as well. The stake of a state counts its errors and its tokens; a rule does
not raise it, and an attempt at a statement, which may add an error, is followed by a step to the
next token (`RulesSettle.attempt`). Only behind the last token there is none to take. Therefore the
last token counts until the statement that it belongs to has ended.
-/

namespace Scriptlet

namespace Parser

/-! ## What a part of the parser comes to

`Settles` is the notion that the whole module is about: a part of the parser, which may recurse on
fuel, has one result for all fuels that are large enough. The result is bounded by `After`: the
tokens that are left are a tail of those before, the stake is within a budget, and running out of
fuel is not among the new errors. The budget is a parameter and not the stake of the state itself,
so that a part can be followed through states whose stakes differ. -/

/-- **What a state has at stake**: an error counts as much as a token that is left, and the last
token counts even if it has been passed. -/
def State.stake (s : State) : Nat :=
  s.errors.length + max 1 s.tokens.length

/-- A state that a part of the parser comes to: it only moves on in the tokens, keeps within a
budget, and has not run out of fuel. -/
structure After (budget : Nat) (s s' : State) : Prop where
  tokens : s'.tokens <:+ s.tokens
  stake : s'.stake ≤ budget
  fueled : .outOfFuel ∈ s'.errors → .outOfFuel ∈ s.errors

/-- An end within a budget that does not come from a lack of fuel. -/
def Ends {α : Type} (budget : Nat) (s : State) : EStateM.Result ParseError State α → Prop
  | .ok _ s' => After budget s s'
  | .error error s' => error ≠ .outOfFuel ∧ After budget s s'

/-- **With every fuel of at least `need`, a part of the parser ends the same way**, within a
budget. -/
def Settles {α : Type} (need budget : Nat) (s : State) (x : Nat → Parse α) : Prop :=
  ∃ result, Ends budget s result ∧ ∀ fuel, need ≤ fuel → x fuel s = result

section Settles

variable {α β : Type} {need budget : Nat} {s s' s'' : State} {x y : Nat → Parse α}
  {f : Nat → α → Parse β}

theorem After.refl (h : s.stake ≤ budget) : After budget s s :=
  ⟨List.suffix_refl _, h, id⟩

theorem After.trans {budget' : Nat} (h : After budget s s') (h' : After budget' s' s'') :
    After budget' s s'' :=
  ⟨h'.tokens.trans h.tokens, h'.stake, fun hmem => h.fueled (h'.fueled hmem)⟩

theorem After.within {budget' : Nat} (h : After budget s s') (h' : s'.stake ≤ budget') :
    After budget' s s' :=
  ⟨h.tokens, h', h.fueled⟩

theorem After.length_le (h : After budget s s') : s'.tokens.length ≤ s.tokens.length :=
  h.tokens.length_le

theorem After.advance (h : s.stake ≤ budget) :
    After budget s { s with tokens := s.tokens.tail } := by
  refine ⟨List.tail_suffix _, Nat.le_trans ?_ h, id⟩
  have hlength := List.length_tail (l := s.tokens)
  simp only [State.stake]
  omega

theorem Ends.after {result : EStateM.Result ParseError State α} {budget' : Nat}
    (h : After budget' s s') (h' : Ends budget s' result) : Ends budget s result := by
  cases result with
  | ok a s'' => exact h.trans h'
  | error error s'' => exact ⟨h'.1, h.trans h'.2⟩

/-- A part that ends well is passed over, and what is shown of the rest starts from the state behind
it. -/
theorem Settles.pass {a : α} (hx : ∀ fuel, need ≤ fuel → x fuel s = .ok a s')
    (hafter : After budget s s') (h : Settles need budget s' fun fuel => f fuel a) :
    Settles need budget s fun fuel => x fuel >>= f fuel := by
  obtain ⟨result, hends, hresult⟩ := h
  exact ⟨result, hends.after hafter, fun fuel hfuel =>
    (bind_ok (hx fuel hfuel) _).trans (hresult fuel hfuel)⟩

/-- Two parts in a row. If the first one ends with an error, then so do both, and the error is
within the budget already. -/
theorem Settles.bind (h : Settles need budget s x)
    (hf : ∀ a s', After budget s s' → Settles need budget s' fun fuel => f fuel a) :
    Settles need budget s fun fuel => x fuel >>= f fuel := by
  obtain ⟨result, hends, hresult⟩ := h
  cases result with
  | ok a s' => exact .pass hresult hends (hf a s' hends)
  | error error s' =>
    refine ⟨.error error s', hends, fun fuel hfuel => ?_⟩
    show EStateM.bind (x fuel) (f fuel) s = _
    rw [EStateM.bind, hresult fuel hfuel]

/-- A rule that recurses on its fuel needs one more than its body. This is the only place where the
need grows. -/
theorem Settles.succ (h : Settles need budget s fun fuel => x (fuel + 1)) :
    Settles (need + 1) budget s x := by
  obtain ⟨result, hends, hresult⟩ := h
  refine ⟨result, hends, fun fuel hfuel => ?_⟩
  obtain ⟨fuel, rfl⟩ := Nat.exists_eq_add_one_of_ne_zero (Nat.ne_zero_of_lt hfuel)
  exact hresult fuel (Nat.le_of_succ_le_succ hfuel)

theorem Settles.ite {c : Prop} [Decidable c] (h : c → Settles need budget s x)
    (h' : ¬ c → Settles need budget s y) :
    Settles need budget s fun fuel => if c then x fuel else y fuel := by
  by_cases hc : c
  · simp only [if_pos hc]
    exact h hc
  · simp only [if_neg hc]
    exact h' hc

/-! ### Parts that need no fuel

The elementary parts in front of the rest of a rule. Each lemma hands over what the rest may rely
on: the token that has been seen, and the stake of the state behind it. Stepping to the next token
does not raise the stake. -/

/-- A part without fuel is passed over. -/
theorem settles_part {γ : Type} {part : Parse γ} {g : Nat → γ → Parse α}
    (hends : Ends budget s (part s))
    (h : ∀ c s', part s = .ok c s' → After budget s s' →
      Settles need budget s' fun fuel => g fuel c) :
    Settles need budget s fun fuel => part >>= g fuel := by
  cases hpart : part s with
  | ok c s' =>
    rw [hpart] at hends
    exact .pass (fun _ _ => hpart) hends (h c s' hpart hends)
  | error error s' =>
    rw [hpart] at hends
    refine ⟨.error error s', hends, fun fuel _ => ?_⟩
    show EStateM.bind part (g fuel) s = _
    rw [EStateM.bind, hpart]

theorem settles_pure (a : α) (h : s.stake ≤ budget) :
    Settles need budget s fun _ => (pure a : Parse α) :=
  ⟨.ok a s, .refl h, fun _ _ => rfl⟩

theorem settles_throw {error : ParseError} (herror : error ≠ .outOfFuel) (h : s.stake ≤ budget) :
    Settles need budget s fun _ => (throw error : Parse α) :=
  ⟨.error error s, ⟨herror, .refl h⟩, fun _ _ => rfl⟩

theorem settles_current {g : Nat → Token → Parse α}
    (h : Settles need budget s fun fuel => g fuel (s.tokens.headD .eof)) :
    Settles need budget s fun fuel => current >>= g fuel :=
  h

theorem settles_peek {g : Nat → Token → Parse α}
    (h : Settles need budget s fun fuel => g fuel (s.tokens.tail.headD .eof)) :
    Settles need budget s fun fuel => peek >>= g fuel :=
  h

/-- The state at the next token. -/
def State.next (s : State) : State :=
  { s with tokens := s.tokens.tail }

theorem settles_advance {g : Nat → Unit → Parse α} (hs : s.stake ≤ budget)
    (h : s.next.stake ≤ budget → Settles need budget s.next fun fuel => g fuel ()) :
    Settles need budget s fun fuel => advance >>= g fuel :=
  settles_part (After.advance hs) fun _ _ hpart hafter => by
    cases hpart
    exact h hafter.stake

theorem expect_cases (token : Token) (s : State) :
    (s.tokens.tail.headD .eof = token ∧ expect token s = .ok () s.next)
      ∨ ∃ got, expect token s = .error (.unexpected (.token token) got) s := by
  by_cases htoken : s.tokens.tail.headD .eof = token
  · exact .inl ⟨htoken, congrFun (if_pos htoken) s⟩
  · exact .inr ⟨_, congrFun (if_neg htoken) s⟩

/-- A token is demanded, or the part fails where it stands. That the token was there is known to the
rest of the rule, which is how `two_le_length` finds tokens to take. -/
theorem settles_expect {token : Token} {g : Nat → Unit → Parse α} (hs : s.stake ≤ budget)
    (h : s.tokens.tail.headD .eof = token → s.next.stake ≤ budget →
      Settles need budget s.next fun fuel => g fuel ()) :
    Settles need budget s fun fuel => expect token >>= g fuel := by
  rcases expect_cases token s with ⟨htoken, heq⟩ | ⟨got, heq⟩
  · refine settles_part (heq ▸ After.advance hs) fun _ _ hpart hafter => ?_
    cases heq.symm.trans hpart
    exact h htoken hafter.stake
  · refine settles_part (heq ▸ ⟨ParseError.noConfusion, .refl hs⟩) fun _ _ hpart _ => ?_
    cases heq.symm.trans hpart

theorem expectName_cases (s : State) :
    (∃ name, expectName s = .ok name s.next)
      ∨ ∃ got, expectName s = .error (.unexpected .name got) s := by
  have hpeek : peek s = .ok (s.tokens.tail.headD .eof) s := rfl
  unfold expectName
  rw [bind_ok hpeek]
  cases s.tokens.tail.headD .eof with
  | ident name => exact .inl ⟨name, rfl⟩
  | _ => exact .inr ⟨_, rfl⟩

theorem settles_expectName {g : Nat → String → Parse α} (hs : s.stake ≤ budget)
    (h : ∀ name, s.next.stake ≤ budget → Settles need budget s.next fun fuel => g fuel name) :
    Settles need budget s fun fuel => expectName >>= g fuel := by
  rcases expectName_cases s with ⟨name, heq⟩ | ⟨got, heq⟩
  · refine settles_part (heq ▸ After.advance hs) fun _ _ hpart hafter => ?_
    cases heq.symm.trans hpart
    exact h name hafter.stake
  · refine settles_part (heq ▸ ⟨ParseError.noConfusion, .refl hs⟩) fun _ _ hpart _ => ?_
    cases heq.symm.trans hpart

/-- A semicolon is taken if there is one. -/
theorem settles_skipSemicolon {g : Nat → Unit → Parse α} (hs : s.stake ≤ budget)
    (h : ∀ s' : State, s'.stake ≤ budget → Settles need budget s' fun fuel => g fuel ()) :
    Settles need budget s fun fuel => skipSemicolon >>= g fuel := by
  have hskip : After budget s s.next ∧ skipSemicolon s = .ok () s.next
      ∨ After budget s s ∧ skipSemicolon s = .ok () s := by
    by_cases htoken : s.tokens.tail.headD .eof = .semicolon
    · exact .inl ⟨After.advance hs, congrFun (if_pos htoken) s⟩
    · exact .inr ⟨.refl hs, congrFun (if_neg htoken) s⟩
  rcases hskip with ⟨hafter, heq⟩ | ⟨hafter, heq⟩
  all_goals exact settles_part (heq ▸ hafter) fun _ s' _ hafter' => h s' hafter'.stake

theorem settles_integer (digits : String) (hs : s.stake ≤ budget) :
    Settles need budget s fun _ => integer digits :=
  .ite (fun _ => settles_pure _ hs) fun _ => settles_throw ParseError.noConfusion hs

/-! ### Lengths

How many tokens are left where a certain token has been seen. The arithmetic of the needs is in
numbers of tokens, so it is here that a step to the next token counts. -/

@[simp] theorem length_next (s : State) : s.next.tokens.length = s.tokens.length - 1 :=
  List.length_tail

/-- Where a token comes next, it and the current one are left. -/
theorem two_le_length {token : Token} (h : s.tokens.tail.headD .eof = token)
    (htoken : token ≠ .eof) : 2 ≤ s.tokens.length := by
  obtain ⟨_ | ⟨t, _ | ⟨t', tokens⟩⟩, errors⟩ := s
  · exact absurd h.symm htoken
  · exact absurd h.symm htoken
  · exact Nat.le_add_left 2 _

/-- Where the current token is not the end of the text, there is at least one. -/
theorem one_le_length {token : Token} (h : s.tokens.headD .eof = token) (htoken : token ≠ .eof) :
    1 ≤ s.tokens.length := by
  obtain ⟨_ | ⟨t, tokens⟩, errors⟩ := s
  · exact absurd h.symm htoken
  · exact Nat.le_add_left 1 _

/-! ### Parameters

Names and commas are collected with one call for each name, so as much fuel as tokens is enough. -/

theorem settles_paramsRest {bound : Nat} (read : List String) (hs : s.stake ≤ budget)
    (hbound : s.tokens.length + 1 ≤ bound) :
    Settles bound budget s fun fuel => paramsRest fuel read := by
  induction bound generalizing s read with
  | zero => omega
  | succ bound ih =>
    refine .succ (settles_peek (.ite (fun hcomma => ?_) fun _ => ?_))
    · have htwo := two_le_length hcomma Token.noConfusion
      refine settles_advance hs fun hs => settles_expectName hs fun name hs => ih _ hs ?_
      simp only [length_next]
      omega
    · exact settles_expect hs fun _ hs => settles_pure _ hs

theorem settles_params {bound : Nat} (hs : s.stake ≤ budget) (hbound : s.tokens.length ≤ bound)
    (hone : 1 ≤ s.tokens.length) : Settles bound budget s params := by
  refine settles_peek (.ite (fun _ => ?_) fun _ => ?_)
  · exact settles_advance hs fun hs => settles_pure _ hs
  · refine settles_expectName hs fun name hs => settles_paramsRest _ hs ?_
    rw [length_next]
    omega

end Settles

/-! ## The rules

`RulesSettle bound` says of every rule how many tokens it may have to be settled by the fuel
`bound`. The constants in it order the rules along the calls that take no token: `statement` may
call `expressionStatement`, which may call `expression`, and so on, and each is one lower than its
caller. A rule that calls itself again has taken a token in between, which is worth eight. -/

/-- **What the rules come to with a fuel, from states with few enough tokens.** An attempt may raise
the stake by an error, if it makes no statement. The rest of a block starts behind a token of its
own. -/
structure RulesSettle (bound : Nat) : Prop where
  statement : ∀ {budget s}, s.stake ≤ budget → 8 * s.tokens.length + 5 ≤ bound →
    Settles bound budget s statement
  expressionStatement : ∀ {budget s}, s.stake ≤ budget → 8 * s.tokens.length + 4 ≤ bound →
    Settles bound budget s expressionStatement
  forStatement : ∀ {budget s}, s.stake ≤ budget → 8 * s.tokens.length + 1 ≤ bound →
    Settles bound budget s forStatement
  block : ∀ {budget s}, s.stake ≤ budget → 1 ≤ s.tokens.length → 8 * s.tokens.length + 1 ≤ bound →
    Settles bound budget s block
  blockRest : ∀ {budget s} read, s.errors.length + s.tokens.length + 1 ≤ budget →
    8 * s.tokens.length + 7 ≤ bound → Settles bound budget s fun fuel => blockRest fuel read
  attempt : ∀ s : State, 8 * s.tokens.length + 6 ≤ bound → ∃ (made : Option Stmt) (s' : State),
    After (s.stake + 1) s s' ∧ s'.stake + made.toList.length ≤ s.stake + 1
      ∧ ∀ fuel, bound ≤ fuel → attempt fuel s = .ok made s'
  expression : ∀ {budget s} precedence, s.stake ≤ budget → 8 * s.tokens.length + 3 ≤ bound →
    Settles bound budget s fun fuel => expression fuel precedence
  operators : ∀ {budget s} precedence left, s.stake ≤ budget → 8 * s.tokens.length + 1 ≤ bound →
    Settles bound budget s fun fuel => operators fuel precedence left
  operand : ∀ {budget s}, s.stake ≤ budget → 8 * s.tokens.length + 2 ≤ bound →
    Settles bound budget s operand
  condition : ∀ {budget s}, s.stake ≤ budget → 8 * s.tokens.length + 1 ≤ bound →
    Settles bound budget s condition
  expressionList : ∀ {budget s} close, s.stake ≤ budget → 1 ≤ s.tokens.length →
    8 * s.tokens.length + 1 ≤ bound → Settles bound budget s fun fuel => expressionList fuel close
  expressionListRest : ∀ {budget s} close read, s.stake ≤ budget →
    8 * s.tokens.length + 1 ≤ bound →
    Settles bound budget s fun fuel => expressionListRest fuel close read
  pairsRest : ∀ {budget s} read, s.stake ≤ budget → 1 ≤ s.tokens.length →
    8 * s.tokens.length + 1 ≤ bound → Settles bound budget s fun fuel => pairsRest fuel read

namespace RulesSettle

variable {bound budget : Nat} {s : State}

/-- With no fuel there are no tokens that would be few enough. -/
theorem zero : RulesSettle 0 := by
  constructor
  all_goals
    intros
    omega

/-- An expression, perhaps with a semicolon behind it, as a part of a statement. -/
theorem value {α : Type} (h : RulesSettle bound) {f : Expr → α} (hs : s.stake ≤ budget)
    (hbound : 8 * s.tokens.length + 3 ≤ bound) :
    Settles bound budget s fun fuel => do
      let value ← Parser.expression fuel .lowest
      skipSemicolon
      return f value :=
  (h.expression _ hs hbound).bind fun _ _ hafter =>
    settles_skipSemicolon hafter.stake fun _ hs => settles_pure _ hs

/-- The expression behind the current token. -/
theorem nextExpression {α : Type} (h : RulesSettle bound) {precedence : Precedence}
    {f : Nat → Expr → Parse α} (hs : s.stake ≤ budget)
    (hbound : 8 * (s.tokens.length - 1) + 3 ≤ bound)
    (hf : ∀ e s', s'.stake ≤ budget → s'.tokens.length ≤ s.tokens.length - 1 →
      Settles bound budget s' fun fuel => f fuel e) :
    Settles bound budget s fun fuel =>
      advance >>= fun _ => Parser.expression fuel precedence >>= f fuel := by
  refine settles_advance hs fun hs => ?_
  refine (h.expression precedence hs (by rwa [length_next])).bind fun e s' hafter => ?_
  exact hf e s' hafter.stake (hafter.length_le.trans_eq (length_next s))

/-- A block whose opening brace comes next. -/
theorem nextBlock {α : Type} (h : RulesSettle bound) {f : Nat → List Stmt → Parse α}
    (hs : s.stake ≤ budget) (hbound : 8 * s.tokens.length ≤ bound + 7)
    (hf : ∀ body s', s'.stake ≤ budget → s'.tokens.length ≤ s.tokens.length - 1 →
      Settles bound budget s' fun fuel => f fuel body) :
    Settles bound budget s fun fuel =>
      expect .lbrace >>= fun _ => Parser.block fuel >>= f fuel := by
  refine settles_expect hs fun hbrace hs => ?_
  have htwo := two_le_length hbrace Token.noConfusion
  refine (h.block hs (by rw [length_next]; omega) (by rw [length_next]; omega)).bind
    fun body s' hafter => ?_
  exact hf body s' hafter.stake (hafter.length_le.trans_eq (length_next s))

/-- By the current token. Every branch is followed with the lemmas above until it calls another
rule, and the sums that remain are the needs of these calls. -/
theorem statement_succ (h : RulesSettle bound) (hs : s.stake ≤ budget)
    (hbound : 8 * s.tokens.length + 5 ≤ bound + 1) :
    Settles (bound + 1) budget s Parser.statement := by
  refine .succ (settles_current ?_)
  have hexpression : Settles bound budget s Parser.expressionStatement :=
    h.expressionStatement hs (by omega)
  cases s.tokens.headD .eof with
  | letKw =>
    refine settles_expectName hs fun name hs => settles_expect hs fun _ hs =>
      settles_advance hs fun hs => h.value hs ?_
    simp only [length_next]
    omega
  | returnKw =>
    refine settles_advance hs fun hs => h.value hs ?_
    simp only [length_next]
    omega
  | forKw => exact h.forStatement hs (by omega)
  | breakKw | continueKw => exact settles_skipSemicolon hs fun _ hs => settles_pure _ hs
  | ident name =>
    refine settles_peek (.ite (fun _ => ?_) fun _ => hexpression)
    refine settles_advance hs fun hs => settles_advance hs fun hs => h.value hs ?_
    simp only [length_next]
    omega
  | _ => exact hexpression

/-- The head of a loop has three parts, each of which leaves fewer tokens than there were before
it. -/
theorem forStatement_succ (h : RulesSettle bound) (hs : s.stake ≤ budget)
    (hbound : 8 * s.tokens.length + 1 ≤ bound + 1) :
    Settles (bound + 1) budget s Parser.forStatement := by
  refine .succ (settles_expect hs fun hparen hs => settles_advance hs fun hs => ?_)
  have htwo := two_le_length hparen Token.noConfusion
  refine (h.statement hs (by simp only [length_next]; omega)).bind fun init s₁ hinit =>
    settles_current ?_
  have hlength := hinit.length_le
  simp only [length_next] at hlength
  -- the second and the third part, whether the first one has left a semicolon or not
  have hrest {s₂ : State} (hs : s₂.stake ≤ budget)
      (hle : s₂.tokens.length ≤ s₁.tokens.length) : Settles bound budget s₂ (fun fuel => do
        advance
        let test ← Parser.expression fuel .lowest
        expect .semicolon
        advance
        let post ← Parser.statement fuel
        expect .rparen
        expect .lbrace
        let body ← Parser.block fuel
        return Stmt.loop init test post body) := by
    refine h.nextExpression hs (by omega) fun test s₃ hs₃ hlength₃ =>
      settles_expect hs₃ fun _ hs => settles_advance hs fun hs => ?_
    refine (h.statement hs (by simp only [length_next]; omega)).bind fun post s₄ hpost => ?_
    have hlength₄ := hpost.length_le
    simp only [length_next] at hlength₄
    refine settles_expect hpost.stake fun _ hs => ?_
    exact h.nextBlock hs (by simp only [length_next]; omega) fun _ _ hs _ => settles_pure _ hs
  dsimp only
  refine .ite (fun _ => ?_) fun _ => hrest hinit.stake (Nat.le_refl _)
  exact settles_expect hinit.stake fun _ hs => hrest hs (by simp)

theorem block_succ (h : RulesSettle bound) (hs : s.stake ≤ budget) (hone : 1 ≤ s.tokens.length)
    (hbound : 8 * s.tokens.length + 1 ≤ bound + 1) :
    Settles (bound + 1) budget s Parser.block := by
  refine .succ (settles_advance hs fun _ => h.blockRest [] ?_ (by simp only [length_next]; omega))
  -- the token that is passed over makes room for an error behind the last one
  refine Nat.le_trans (Nat.le_of_eq ?_) hs
  simp only [State.stake, length_next]
  show s.errors.length + _ + 1 = _
  omega

/-- An attempt and the step behind it lose a token, which pays for the error, if there is one. -/
theorem attempt_part {α : Type} (h : RulesSettle bound) {f : Nat → Option Stmt → Parse α}
    (hs : s.errors.length + s.tokens.length + 1 ≤ budget) (hone : 1 ≤ s.tokens.length)
    (hbound : 8 * s.tokens.length + 6 ≤ bound)
    (hf : ∀ (made : Option Stmt) (s' : State), s'.stake ≤ budget →
      s'.next.errors.length + s'.next.tokens.length + 1 ≤ budget →
        s'.next.tokens.length < s.tokens.length → Settles bound budget s' fun fuel => f fuel made) :
    Settles bound budget s fun fuel => Parser.attempt fuel >>= f fuel := by
  obtain ⟨made, s', hafter, hmade, hattempt⟩ := h.attempt s hbound
  have hlength := hafter.length_le
  have hs' : s'.stake ≤ budget := by
    simp only [State.stake] at hmade ⊢
    omega
  refine .pass hattempt (hafter.within hs') (hf made s' hs' ?_ ?_)
  · simp only [State.stake, State.next, List.length_tail] at hs' ⊢
    omega
  · rw [length_next]
    omega

/-- The rest of a block goes on after each attempt with fewer tokens, or it stops at the brace or at
the end of the text. -/
theorem blockRest_succ (h : RulesSettle bound) (read : List Stmt)
    (hs : s.errors.length + s.tokens.length + 1 ≤ budget)
    (hbound : 8 * s.tokens.length + 7 ≤ bound + 1) :
    Settles (bound + 1) budget s fun fuel => Parser.blockRest fuel read := by
  have hstake : s.stake ≤ budget := by
    simp only [State.stake]
    omega
  refine .succ (settles_current ?_)
  cases htoken : s.tokens.headD .eof with
  | rbrace => exact settles_pure _ hstake
  | eof => exact settles_throw ParseError.noConfusion hstake
  | _ =>
    refine h.attempt_part hs (one_le_length htoken Token.noConfusion) (by omega)
      fun made s' hs' hnext hless => ?_
    have hrest (read : List Stmt) :
        Settles bound budget s' fun fuel => advance >>= fun _ => Parser.blockRest fuel read :=
      settles_advance hs' fun _ => h.blockRest read hnext (by omega)
    cases made with
    | some made => exact hrest (made :: read)
    | none => exact hrest read

/-- **An attempt always succeeds.** It adds an error only if it makes no statement, and then the
error is not one of running out of fuel: the statement that failed had enough. -/
theorem attempt_succ (h : RulesSettle bound) (s : State)
    (hbound : 8 * s.tokens.length + 6 ≤ bound + 1) :
    ∃ (made : Option Stmt) (s' : State),
      After (s.stake + 1) s s' ∧ s'.stake + made.toList.length ≤ s.stake + 1
        ∧ ∀ fuel, bound + 1 ≤ fuel → Parser.attempt fuel s = .ok made s' := by
  obtain ⟨result, hends, hresult⟩ := h.statement (Nat.le_refl s.stake) (by omega)
  cases result with
  | ok value s' =>
    refine ⟨some value, s', hends.within (Nat.le_succ_of_le hends.stake),
      Nat.succ_le_succ hends.stake, fun fuel hfuel => ?_⟩
    obtain ⟨fuel, rfl⟩ := Nat.exists_eq_add_one_of_ne_zero (Nat.ne_zero_of_lt hfuel)
    unfold Parser.attempt
    rw [hresult fuel (Nat.le_of_succ_le_succ hfuel)]
  | error error s' =>
    obtain ⟨herror, hafter⟩ := hends
    -- the error that is added now is what the attempt may cost
    have hstake : State.stake ⟨s'.tokens, error :: s'.errors⟩ ≤ s.stake + 1 := by
      have hs' := hafter.stake
      simp only [State.stake, List.length_cons] at hs' ⊢
      omega
    refine ⟨none, ⟨s'.tokens, error :: s'.errors⟩, ⟨hafter.tokens, hstake, fun hmem => ?_⟩,
      hstake, fun fuel hfuel => ?_⟩
    · rcases List.mem_cons.mp hmem with heq | hmem
      · exact absurd heq.symm herror
      · exact hafter.fueled hmem
    · obtain ⟨fuel, rfl⟩ := Nat.exists_eq_add_one_of_ne_zero (Nat.ne_zero_of_lt hfuel)
      unfold Parser.attempt
      rw [hresult fuel (Nat.le_of_succ_le_succ hfuel)]

theorem expressionStatement_succ (h : RulesSettle bound) (hs : s.stake ≤ budget)
    (hbound : 8 * s.tokens.length + 4 ≤ bound + 1) :
    Settles (bound + 1) budget s Parser.expressionStatement :=
  .succ (h.value hs (by omega))

theorem expression_succ (h : RulesSettle bound) (precedence : Precedence) (hs : s.stake ≤ budget)
    (hbound : 8 * s.tokens.length + 3 ≤ bound + 1) :
    Settles (bound + 1) budget s fun fuel => Parser.expression fuel precedence := by
  refine .succ ((h.operand hs (by omega)).bind fun left s' hafter => ?_)
  have hlength := hafter.length_le
  exact h.operators _ left hafter.stake (by omega)

/-- Behind an operator, `operators` goes on with fewer tokens: the operator is one of them. -/
theorem operators_succ (h : RulesSettle bound) (precedence : Precedence) (left : Expr)
    (hs : s.stake ≤ budget) (hbound : 8 * s.tokens.length + 1 ≤ bound + 1) :
    Settles (bound + 1) budget s fun fuel => Parser.operators fuel precedence left := by
  refine .succ (settles_peek ?_)
  generalize htoken : s.tokens.tail.headD .eof = token
  dsimp only
  refine .ite (fun htighter => ?_) fun _ => settles_pure _ hs
  have htwo := two_le_length htoken (by rintro rfl; exact Nat.not_lt_zero _ htighter)
  -- behind an operator, `operators` goes on with fewer tokens
  have hgo {s' : State} (hs : s'.stake ≤ budget)
      (hlength : s'.tokens.length ≤ s.tokens.length - 1) (left : Expr) :
      Settles bound budget s' fun fuel => Parser.operators fuel precedence left :=
    h.operators precedence left hs (by omega)
  refine settles_advance hs fun hs => ?_
  have hinfix : Settles bound budget s.next (fun fuel => do
      advance
      let right ← Parser.expression fuel (Precedence.ofToken token)
      Parser.operators fuel precedence (.infixOp left token right)) := by
    refine h.nextExpression hs (by simp only [length_next]; omega) fun right s' hs hlength => ?_
    exact hgo hs (hlength.trans (by simp only [length_next]; omega)) _
  cases token with
  | lparen =>
    refine (h.expressionList _ hs (by simp only [length_next]; omega)
      (by simp only [length_next]; omega)).bind fun args s' hafter => ?_
    exact hgo hafter.stake (hafter.length_le.trans_eq (length_next s)) _
  | lbracket =>
    refine h.nextExpression hs (by simp only [length_next]; omega) fun subscript s' hs hlength =>
      settles_expect hs fun _ hs => hgo hs ?_ _
    simp only [length_next] at hlength ⊢
    omega
  | _ => exact hinfix

/-- By the current token, as in the rule. An operand that starts with a sign or a bracket has taken
it before the next rule is called. -/
theorem operand_succ (h : RulesSettle bound) (hs : s.stake ≤ budget)
    (hbound : 8 * s.tokens.length + 2 ≤ bound + 1) :
    Settles (bound + 1) budget s Parser.operand := by
  refine .succ (settles_current ?_)
  cases htoken : s.tokens.headD .eof with
  | ident _ | float _ | str _ | trueKw | falseKw => exact settles_pure _ hs
  | int digits => exact settles_integer digits hs
  | bang | minus =>
    have hone := one_le_length htoken Token.noConfusion
    exact h.nextExpression hs (by omega) fun _ _ hs _ => settles_pure _ hs
  | lparen =>
    have hone := one_le_length htoken Token.noConfusion
    exact h.nextExpression hs (by omega) fun _ _ hs _ =>
      settles_expect hs fun _ hs => settles_pure _ hs
  | lbracket =>
    have hone := one_le_length htoken Token.noConfusion
    exact (h.expressionList _ hs hone (by omega)).bind fun _ _ hafter =>
      settles_pure _ hafter.stake
  | lbrace =>
    have hone := one_le_length htoken Token.noConfusion
    exact (h.pairsRest _ hs hone (by omega)).bind fun _ _ hafter => settles_pure _ hafter.stake
  | ifKw => exact h.condition hs (by omega)
  | function =>
    refine settles_expect hs fun hparen hs => ?_
    have htwo := two_le_length hparen Token.noConfusion
    refine (settles_params hs (by simp only [length_next]; omega)
      (by simp only [length_next]; omega)).bind fun names s' hnames => ?_
    have hlength := hnames.length_le
    rw [length_next] at hlength
    exact h.nextBlock hnames.stake (by omega) fun _ _ hs _ => settles_pure _ hs
  | _ => exact settles_throw ParseError.noConfusion hs

theorem condition_succ (h : RulesSettle bound) (hs : s.stake ≤ budget)
    (hbound : 8 * s.tokens.length + 1 ≤ bound + 1) :
    Settles (bound + 1) budget s Parser.condition := by
  refine .succ (settles_expect hs fun hparen hs => ?_)
  have htwo := two_le_length hparen Token.noConfusion
  refine h.nextExpression hs (by simp only [length_next]; omega) fun test s₁ hs₁ hlength₁ =>
    settles_expect hs₁ fun _ hs => ?_
  simp only [length_next] at hlength₁
  refine h.nextBlock hs (by simp only [length_next]; omega) fun yes s₂ hs₂ hlength₂ => ?_
  simp only [length_next] at hlength₂
  refine settles_peek (.ite (fun _ => settles_advance hs₂ fun hs => ?_) fun _ =>
    settles_pure _ hs₂)
  exact h.nextBlock hs (by simp only [length_next]; omega) fun _ _ hs _ => settles_pure _ hs

theorem expressionList_succ (h : RulesSettle bound) (close : Token) (hs : s.stake ≤ budget)
    (hone : 1 ≤ s.tokens.length) (hbound : 8 * s.tokens.length + 1 ≤ bound + 1) :
    Settles (bound + 1) budget s fun fuel => Parser.expressionList fuel close := by
  refine .succ (settles_peek (.ite (fun _ => ?_) fun _ => ?_))
  · exact settles_advance hs fun hs => settles_pure _ hs
  · exact h.nextExpression hs (by omega) fun first s' hs hlength =>
      h.expressionListRest close _ hs (by omega)

theorem expressionListRest_succ (h : RulesSettle bound) (close : Token) (read : List Expr)
    (hs : s.stake ≤ budget) (hbound : 8 * s.tokens.length + 1 ≤ bound + 1) :
    Settles (bound + 1) budget s fun fuel => Parser.expressionListRest fuel close read := by
  refine .succ (settles_peek (.ite (fun hcomma => ?_) fun _ => ?_))
  · have htwo := two_le_length hcomma Token.noConfusion
    refine settles_advance hs fun hs => h.nextExpression hs (by simp only [length_next]; omega)
      fun e s' hs hlength => h.expressionListRest close _ hs ?_
    simp only [length_next] at hlength
    omega
  · exact settles_expect hs fun _ hs => settles_pure _ hs

/-- A pair takes at least its colon, whether or not a comma follows. -/
theorem pairsRest_succ (h : RulesSettle bound) (read : List (Expr × Expr)) (hs : s.stake ≤ budget)
    (hone : 1 ≤ s.tokens.length) (hbound : 8 * s.tokens.length + 1 ≤ bound + 1) :
    Settles (bound + 1) budget s fun fuel => Parser.pairsRest fuel read := by
  refine .succ (settles_peek (.ite (fun _ => ?_) fun _ => ?_))
  · exact settles_advance hs fun hs => settles_pure _ hs
  refine h.nextExpression hs (by omega) fun key s₁ hs₁ hlength₁ =>
    settles_expect hs₁ fun hcolon hs => ?_
  have htwo₁ := two_le_length hcolon Token.noConfusion
  refine h.nextExpression hs (by simp only [length_next]; omega) fun value s₂ hs₂ hlength₂ => ?_
  simp only [length_next] at hlength₂
  -- whichever of the two tokens follows, it is left for the next pair
  refine settles_peek ?_
  dsimp only
  refine .ite (fun _ => settles_expect hs₂ fun hcomma hs => ?_) fun hbrace => ?_
  · have htwo₂ := two_le_length hcomma Token.noConfusion
    exact h.pairsRest _ hs (by simp only [length_next]; omega) (by simp only [length_next]; omega)
  · have htwo₂ := two_le_length (Decidable.not_not.mp hbrace) Token.noConfusion
    exact h.pairsRest _ hs₂ (by omega) (by omega)

theorem succ (h : RulesSettle bound) : RulesSettle (bound + 1) where
  statement := h.statement_succ
  expressionStatement := h.expressionStatement_succ
  forStatement := h.forStatement_succ
  block := h.block_succ
  blockRest := h.blockRest_succ
  attempt := h.attempt_succ
  expression := h.expression_succ
  operators := h.operators_succ
  operand := h.operand_succ
  condition := h.condition_succ
  expressionList := h.expressionList_succ
  expressionListRest := h.expressionListRest_succ
  pairsRest := h.pairsRest_succ

end RulesSettle

/-- All rules together, by induction on the bound. -/
theorem rulesSettle (bound : Nat) : RulesSettle bound := by
  induction bound with
  | zero => exact .zero
  | succ bound ih => exact ih.succ

/-! ## The whole text

The statements of a program are read one attempt after the other. Each takes a token at least, so as
many attempts as tokens are enough, and neither the fuel nor the number of attempts shows in the
result. -/

theorem statements_next {t : Token} {tokens : List Token} {errors : List ParseError} {s' : State}
    {fuel limit : Nat} {made : Option Stmt} (read : List Stmt) (ht : t ≠ .eof)
    (h : attempt fuel ⟨t :: tokens, errors⟩ = .ok made s') :
    statements fuel (limit + 1) read ⟨t :: tokens, errors⟩
      = statements fuel limit (made.toList ++ read) s'.next := by
  rw [statements, bind_ok current_eq]
  split
  · contradiction
  · rw [bind_ok h]
    cases made <;> rfl

/-- What reading statements comes to, with every fuel and every number of attempts that are large
enough: nothing is left, and each new error and each new statement has a token of its own. -/
def Finishes (read : List Stmt) (s : State) : Prop :=
  ∃ (program : Program) (s' : State), s'.tokens = []
    ∧ (.outOfFuel ∈ s'.errors → .outOfFuel ∈ s.errors)
    ∧ s'.errors.length + program.length ≤ s.errors.length + read.length + s.tokens.length
    ∧ ∀ fuel limit, 8 * s.tokens.length + 6 ≤ fuel → s.tokens.length ≤ limit →
      statements fuel limit read s = .ok program s'

/-- **Reading statements comes to an end.** Induction on the number of tokens: an attempt and the
step behind it leave fewer, and what they have added, an error or a statement, is paid for by the
difference. -/
theorem finishes (bound : Nat) (read : List Stmt) {s : State} (hbound : s.tokens.length ≤ bound)
    (heof : ∀ t ∈ s.tokens, t ≠ .eof) : Finishes read s := by
  obtain ⟨tokens, errors⟩ := s
  induction bound generalizing tokens errors read with
  | zero =>
    obtain rfl := List.length_eq_zero_iff.mp (Nat.le_zero.mp hbound)
    refine ⟨read.reverse, ⟨[], errors⟩, rfl, id, by simp, fun fuel limit _ _ => ?_⟩
    cases limit <;> rfl
  | succ bound ih =>
    cases tokens with
    | nil => exact ih read [] errors (Nat.zero_le _) heof
    | cons t tokens =>
      -- one attempt, and the step behind it onto the next token
      obtain ⟨made, s₁, hafter, hmade, hattempt⟩ := (rulesSettle _).attempt ⟨t :: tokens, errors⟩
        (Nat.le_refl _)
      have hsuffix : s₁.next.tokens <:+ t :: tokens :=
        (List.tail_suffix s₁.tokens).trans hafter.tokens
      have hlength : s₁.next.tokens.length ≤ tokens.length :=
        (length_next s₁).trans_le (Nat.sub_le_of_le_add hafter.length_le)
      obtain ⟨program, s', hdone, hfueled, hcount, hresult⟩ := ih (made.toList ++ read)
        s₁.next.tokens s₁.next.errors (Nat.le_trans hlength (Nat.le_of_succ_le_succ hbound))
        fun t ht => heof t (hsuffix.subset ht)
      refine ⟨program, s', hdone, fun hmem => hafter.fueled (hfueled hmem), ?_,
        fun fuel limit hfuel hlimit => ?_⟩
      -- the token that has gone pays for the statement or the error
      · simp only [State.stake, State.next, List.length_append, List.length_tail,
          List.length_cons] at hmade hcount ⊢
        omega
      · obtain ⟨limit, rfl⟩ := Nat.exists_eq_add_one_of_ne_zero (Nat.ne_zero_of_lt hlimit)
        rw [statements_next read (heof t List.mem_cons_self) (hattempt fuel hfuel)]
        have hless : 8 * s₁.next.tokens.length + 6 ≤ fuel := by
          rw [List.length_cons] at hfuel
          omega
        exact hresult fuel limit hless (Nat.le_trans hlength (Nat.le_of_succ_le_succ hlimit))

end Parser

/-- **The parser comes to an end of every text.** It stops behind the last token, and with any more
fuel, and any more attempts at a statement, it gives the same program and the same errors. Every
error and every statement of the program is paid for by a token of its own. -/
theorem Program.parse_finishes (source : String) :
    (∀ more extra, Parser.statements (8 * (Token.scan source).length + 16 + more)
        ((Token.scan source).length + extra) [] ⟨Token.scan source, []⟩
      = .ok (Program.parse source).1 ⟨[], (Program.parse source).2.reverse⟩)
      ∧ .outOfFuel ∉ (Program.parse source).2
      ∧ (Program.parse source).2.length + (Program.parse source).1.length
        ≤ (Token.scan source).length := by
  obtain ⟨program, ⟨tokens, errors⟩, hdone, hfueled, hcount, hresult⟩ :=
    Parser.finishes (Token.scan source).length [] (s := ⟨Token.scan source, []⟩) (Nat.le_refl _)
      fun _ ht => (Token.mem_scan ht).1
  obtain rfl : tokens = [] := hdone
  have hparse : Program.parse source = (program, errors.reverse) := by
    rw [Program.parse, Program.ofTokens,
      hresult _ _ (Nat.add_le_add_left (by decide) _) (Nat.le_refl _)]
  rw [hparse]
  refine ⟨fun more extra => ?_, fun hmem => ?_, ?_⟩
  · rw [List.reverse_reverse]
    exact hresult _ _ (by dsimp only; omega) (Nat.le_add_right _ _)
  · exact List.not_mem_nil (hfueled (List.mem_reverse.mp hmem))
  · simpa using hcount

end Scriptlet
