import Mathlib.Data.List.TakeWhile
import Scriptlet.Ast.Parser

/-!
# What the parser makes

Not every tree can be the result of reading a text. Names are runs of letters that are no keywords,
integers are not negative, operators are those that the grammar knows, and no statement is a block.
A tree of this kind, without floats, is `Readable`, and whatever the parser makes from tokens of a
text without floats is (`readable_parse`). That it had to skip statements with errors makes no
difference.

The proof has two layers. The lexer makes only plain tokens: a name in a token is never a keyword,
because `Token.ofWord` has looked. The parser makes only readable trees from plain tokens: each of
its rules is shown to make something with the property that the tree asks for in that place
(`Makes`), and the rules are proved together by induction on their fuel (`RulesMake`).
-/

namespace Scriptlet

/-! ## Trees that can stand in a text

Readability is a conjunction over the tree. The parts are the ones that a later proof uses: `IsName`
and the condition on integers say that the words of the tree are read back as the same words, the
condition on operators that an infix operator is not taken for a bracket. -/

/-- A run of letters that is not a keyword. The last field says what this is needed for: read as a
word, the name is a name. -/
structure IsName (name : String) : Prop where
  letters : ∀ c ∈ name.toList, Cursor.isLetter c = true
  nonempty : name.toList ≠ []
  word : Token.ofWord name = .ident name

mutual

/-- **An expression without floats that can stand in a text.** A float is excluded because its
shortest decimal literal would have to be read back as the same float, which is a statement about
floating point and not about the grammar. -/
def Expr.Readable : Expr → Prop
  | .ident name => IsName name
  | .int value => 0 ≤ value.toInt
  | .float _ => False
  | .str _ | .bool _ => True
  | .array elements => Expr.ReadableList elements
  | .hash pairs => Expr.ReadablePairs pairs
  | .prefixOp op operand => (op = .bang ∨ op = .minus) ∧ operand.Readable
  | .infixOp left op right => left.Readable ∧ Parser.isOperator op = true ∧ right.Readable
  | .cond test yes no => test.Readable ∧ Stmt.ReadableList yes ∧ Stmt.ReadableOption no
  | .fn params body => (∀ param ∈ params, IsName param) ∧ Stmt.ReadableList body
  | .call callee args => callee.Readable ∧ Expr.ReadableList args
  | .index left subscript => left.Readable ∧ subscript.Readable

/-- Expressions that can stand in a text. -/
def Expr.ReadableList : List Expr → Prop
  | [] => True
  | e :: rest => e.Readable ∧ Expr.ReadableList rest

/-- Pairs of a hash that can stand in a text. -/
def Expr.ReadablePairs : List (Expr × Expr) → Prop
  | [] => True
  | (key, value) :: rest => key.Readable ∧ value.Readable ∧ Expr.ReadablePairs rest

/-- A statement without floats that can stand in a text. A block is not among them: the grammar has
blocks only as parts of other statements. -/
def Stmt.Readable : Stmt → Prop
  | .bind name value | .assign name value => IsName name ∧ value.Readable
  | .ret value | .expr value => value.Readable
  | .block _ => False
  | .loop init test post body =>
    init.Readable ∧ test.Readable ∧ post.Readable ∧ Stmt.ReadableList body
  | .breakLoop | .continueLoop => True

/-- Statements that can stand in a text. -/
def Stmt.ReadableList : List Stmt → Prop
  | [] => True
  | s :: rest => s.Readable ∧ Stmt.ReadableList rest

/-- A branch that can stand in a text, if there is one. -/
def Stmt.ReadableOption : Option (List Stmt) → Prop
  | none => True
  | some body => Stmt.ReadableList body

end

/-- The three recursions on lists say that all members are readable; in this form, lists that are
built in reverse can be handled. -/
theorem Expr.readableList_iff {es : List Expr} : ReadableList es ↔ ∀ e ∈ es, e.Readable := by
  induction es with
  | nil => simp [ReadableList]
  | cons e es ih => simp [ReadableList, ih]

theorem Expr.readablePairs_iff {pairs : List (Expr × Expr)} :
    ReadablePairs pairs ↔ ∀ pair ∈ pairs, pair.1.Readable ∧ pair.2.Readable := by
  induction pairs with
  | nil => simp [ReadablePairs]
  | cons pair pairs ih => simp [ReadablePairs, ih, and_assoc]

theorem Stmt.readableList_iff {body : List Stmt} : ReadableList body ↔ ∀ s ∈ body, s.Readable := by
  induction body with
  | nil => simp [ReadableList]
  | cons s body ih => simp [ReadableList, ih]

/-! ## Tokens of a text

A token is plain if it can come from a text without floats. The lexer is gone through once, by the
first character of the rest: that decides which of its branches is taken. -/

/-- A token of a text without floats. -/
def Token.Plain : Token → Prop
  | .ident name => IsName name
  | .float _ => False
  | _ => True

/-- A run of letters is a name unless it is a keyword. -/
theorem Token.plain_ofWord {word : String} (hletters : ∀ c ∈ word.toList, Cursor.isLetter c = true)
    (hword : word.toList ≠ []) : (Token.ofWord word).Plain := by
  have hname : Token.ofWord word = .ident word → (Token.ofWord word).Plain := by
    intro h
    rw [h]
    exact ⟨hletters, hword, h⟩
  unfold Token.ofWord at hname ⊢
  split at hname
  all_goals first | trivial | exact hname rfl

namespace Cursor

/-- A run of digits is an integer, or a float if a point and more digits follow. -/
theorem number_cases (cs : List Char) :
    (∃ digits, (number cs).1 = .int digits) ∨ ∃ digits, (number cs).1 = .float digits := by
  unfold number
  split
  · split
    · exact .inr ⟨_, rfl⟩
    · exact .inl ⟨_, rfl⟩
  · exact .inl ⟨_, rfl⟩

/-- A token is plain unless it is a float. Only the branch for words has something to show, for a
word may be a keyword. -/
theorem plain_tokenAt (c : Char) (rest : List Char) :
    (tokenAt c rest).1.Plain ∨ ∃ digits, (tokenAt c rest).1 = .float digits := by
  unfold tokenAt
  split
  case h_6 =>
    split
    -- a character that is a token by itself
    · rename_i hsingle
      unfold single? at hsingle
      split at hsingle
      all_goals
        cases hsingle
        try exact .inl trivial
    · split
      · rename_i hletter
        -- a word, which is a keyword or an identifier
        refine .inl (Token.plain_ofWord (fun d hd => ?_) ?_)
        · rw [String.toList_ofList] at hd
          exact List.mem_takeWhile_imp hd
        · rw [String.toList_ofList, List.takeWhile_cons_of_pos hletter]
          exact List.cons_ne_nil _ _
      · split
        -- a number, the one kind of token that may be a float
        · rcases number_cases (c :: rest) with ⟨digits, h⟩ | ⟨digits, h⟩
          · refine .inl ?_
            show (number (c :: rest)).1.Plain
            rw [h]
            trivial
          · exact .inr ⟨digits, h⟩
        · split
          all_goals exact .inl trivial
  all_goals exact .inl trivial

theorem plain_next (cursor : Cursor) :
    cursor.next.1.Plain ∨ ∃ digits, cursor.next.1 = .float digits := by
  unfold next
  split
  · exact .inl trivial
  · split
    · exact .inl trivial
    · exact plain_tokenAt _ _

/-- The tokens are read one after the other: the equation by which `tokensFrom` is unfolded once,
since its recursion is on the bytes that are left. -/
theorem tokensFrom_eq (cursor : Cursor) (acc : Array Token) :
    tokensFrom cursor acc = if cursor.next.1 = .eof then acc
      else tokensFrom cursor.next.2 (acc.push cursor.next.1) := by
  rw [tokensFrom]
  rfl

/-- Each token is read by some call, and is not the end of the text. Induction on the calls, as
`tokensFrom` makes them. -/
theorem mem_tokensFrom {t : Token} (cursor : Cursor) (acc : Array Token) :
    t ∈ tokensFrom cursor acc → t ∈ acc ∨ t ≠ .eof ∧ ∃ cursor' : Cursor, t = cursor'.next.1 := by
  induction cursor, acc using tokensFrom.induct with
  | case1 cursor acc after hnext =>
    intro ht
    rw [tokensFrom_eq, hnext, if_pos rfl] at ht
    exact .inl ht
  | case2 cursor acc token after hnext hmore ih =>
    intro ht
    rw [tokensFrom_eq, hnext, if_neg hmore] at ht
    rcases ih ht with hpushed | hread
    · rcases Array.mem_push.mp hpushed with hacc | rfl
      · exact .inl hacc
      · exact .inr ⟨hmore, cursor, (congrArg Prod.fst hnext).symm⟩
    · exact .inr hread

/-- There are no more tokens than bytes, since each call that does not find the end takes at least
one. -/
theorem size_tokensFrom_le (cursor : Cursor) (acc : Array Token) :
    (tokensFrom cursor acc).size ≤ acc.size + cursor.remaining := by
  induction cursor, acc using tokensFrom.induct with
  | case1 cursor acc after hnext =>
    rw [tokensFrom_eq, hnext, if_pos rfl]
    exact Nat.le_add_right _ _
  | case2 cursor acc token after hnext hmore ih =>
    have hlt : after.remaining < cursor.remaining := by
      have hread := cursor.remaining_next_lt (by rw [hnext]; exact hmore)
      rwa [hnext] at hread
    rw [tokensFrom_eq, hnext, if_neg hmore]
    rw [Array.size_push] at ih
    show (tokensFrom after (acc.push token)).size ≤ _
    omega

end Cursor

theorem Token.mem_scan {t : Token} {source : String} (ht : t ∈ Token.scan source) :
    t ≠ .eof ∧ ∃ cursor : Cursor, t = cursor.next.1 :=
  (Cursor.mem_tokensFrom (.ofString source) #[] (Array.mem_toList_iff.mp ht)).resolve_left
    (Array.not_mem_empty t)

/-- All tokens of a text without floats are plain. -/
theorem Token.plain_scan {source : String} (h : ∀ digits, Token.float digits ∉ Token.scan source) :
    ∀ t ∈ Token.scan source, t.Plain := by
  intro t ht
  obtain ⟨-, cursor, rfl⟩ := Token.mem_scan ht
  rcases cursor.plain_next with hplain | ⟨digits, hfloat⟩
  · exact hplain
  · exact absurd (hfloat ▸ ht) (h digits)

namespace Parser

/-! ## Parts of the parser

`Makes post x` follows a part of the parser through its state and its errors: from plain tokens it
comes to something with the property `post`, and whatever tokens are left are plain again. An error
leaves plain tokens too, so the recovery from one is covered by the same statement. -/

section Makes

variable {α β : Type} {post : α → Prop} {post' : β → Prop}

/-- **A part of the parser that makes something with the property `post`** from plain tokens.
Nothing is said about which error there is, or whether there is one. -/
def Makes (post : α → Prop) (x : Parse α) : Prop :=
  ∀ s : State, (∀ t ∈ s.tokens, t.Plain) →
    match x s with
    | .ok a s' => post a ∧ ∀ t ∈ s'.tokens, t.Plain
    | .error _ s' => ∀ t ∈ s'.tokens, t.Plain

/-- Two parts in a row: what the first has made is what the second starts with. -/
theorem Makes.bind {x : Parse α} {f : α → Parse β} (h : Makes post x)
    (hf : ∀ a, post a → Makes post' (f a)) : Makes post' (x >>= f) := by
  intro s hs
  have hx := h s hs
  show match EStateM.bind x f s with
    | .ok a s' => post' a ∧ ∀ t ∈ s'.tokens, t.Plain
    | .error _ s' => ∀ t ∈ s'.tokens, t.Plain
  unfold EStateM.bind
  cases hresult : x s with
  | ok a s' =>
    rw [hresult] at hx
    exact hf a hx.1 s' hx.2
  | error e s' =>
    rw [hresult] at hx
    exact hx

theorem makes_pure {a : α} (h : post a) : Makes post (pure a) :=
  fun _ hs => ⟨h, hs⟩

theorem makes_throw (e : ParseError) : Makes post (throw e) :=
  fun _ hs => hs

theorem plain_headD {tokens : List Token} (h : ∀ t ∈ tokens, t.Plain) :
    (tokens.headD .eof).Plain := by
  cases tokens with
  | nil => trivial
  | cons t rest => exact h t List.mem_cons_self

theorem makes_current : Makes Token.Plain current :=
  fun _ hs => ⟨plain_headD hs, hs⟩

theorem makes_peek : Makes Token.Plain peek :=
  fun _ hs => ⟨plain_headD fun t ht => hs t (List.mem_of_mem_tail ht), hs⟩

theorem makes_advance : Makes (fun _ => True) advance :=
  fun _ hs => ⟨trivial, fun t ht => hs t (List.mem_of_mem_tail ht)⟩

theorem makes_expect (token : Token) : Makes (fun _ => True) (expect token) := by
  refine makes_peek.bind fun got _ => ?_
  split
  · exact makes_advance
  · exact makes_throw _

/-- A name that is demanded comes from a plain token, so it is a name. -/
theorem makes_expectName : Makes IsName expectName := by
  refine makes_peek.bind fun got hgot => ?_
  split
  · exact makes_advance.bind fun _ _ => makes_pure hgot
  · exact makes_throw _

theorem makes_skipSemicolon : Makes (fun _ => True) skipSemicolon := by
  refine makes_peek.bind fun got _ => ?_
  split
  · exact makes_advance
  · exact makes_pure trivial

/-- Digits stand for an integer that is not negative, or they are too large and an error. -/
theorem makes_integer (digits : String) : Makes Expr.Readable (integer digits) := by
  -- the digits are added up as a natural number, and only those below `2 ^ 63` are accepted
  unfold integer
  dsimp only
  split
  · rename_i hlt
    refine makes_pure ?_
    show 0 ≤ (Int64.ofNat _).toInt
    rw [Int64.toInt_ofNat_of_lt hlt]
    exact Int.natCast_nonneg _
  · exact makes_throw _

/-- Parameters are collected in reverse, each of them a name. -/
theorem makes_paramsRest (fuel : Nat) (read : List String) (hread : ∀ name ∈ read, IsName name) :
    Makes (fun names => ∀ name ∈ names, IsName name) (paramsRest fuel read) := by
  induction fuel generalizing read with
  | zero => exact makes_throw _
  | succ fuel ih =>
    refine makes_peek.bind fun got _ => ?_
    split
    · refine makes_advance.bind fun _ _ => makes_expectName.bind fun name hname => ih _ ?_
      exact List.forall_mem_cons.mpr ⟨hname, hread⟩
    · refine (makes_expect _).bind fun _ _ => makes_pure fun name hname => ?_
      exact hread name (List.mem_reverse.mp hname)

theorem makes_params (fuel : Nat) :
    Makes (fun names => ∀ name ∈ names, IsName name) (params fuel) := by
  refine makes_peek.bind fun got _ => ?_
  split
  · exact makes_advance.bind fun _ _ => makes_pure fun name hname =>
      absurd hname List.not_mem_nil
  · exact makes_expectName.bind fun name hname => makes_paramsRest fuel [name] fun other hother =>
      List.mem_singleton.mp hother ▸ hname

end Makes

/-! ## The rules

The rules call each other, so they are shown together: `RulesMake fuel` says of every rule what it
makes with that fuel. With no fuel a rule fails, which makes nothing. With one more, the body of
each rule is a sequence of parts; `Makes.bind` goes along it, and every call in it has less fuel. -/

/-- **What the rules make with some fuel.** Rules that collect something get what they have
collected so far as an argument, and ask that it is readable already. -/
structure RulesMake (fuel : Nat) : Prop where
  statement : Makes Stmt.Readable (statement fuel)
  expressionStatement : Makes Stmt.Readable (expressionStatement fuel)
  forStatement : Makes Stmt.Readable (forStatement fuel)
  block : Makes Stmt.ReadableList (block fuel)
  blockRest : ∀ read, Stmt.ReadableList read → Makes Stmt.ReadableList (blockRest fuel read)
  attempt : Makes (fun made => ∀ s ∈ made, Stmt.Readable s) (attempt fuel)
  expression : ∀ precedence, Makes Expr.Readable (expression fuel precedence)
  operators : ∀ precedence left, left.Readable →
    Makes Expr.Readable (operators fuel precedence left)
  operand : Makes Expr.Readable (operand fuel)
  condition : Makes Expr.Readable (condition fuel)
  expressionList : ∀ close, Makes Expr.ReadableList (expressionList fuel close)
  expressionListRest : ∀ close read, Expr.ReadableList read →
    Makes Expr.ReadableList (expressionListRest fuel close read)
  pairsRest : ∀ read, Expr.ReadablePairs read → Makes Expr.ReadablePairs (pairsRest fuel read)

namespace RulesMake

theorem zero : RulesMake 0 where
  statement := makes_throw _
  expressionStatement := makes_throw _
  forStatement := makes_throw _
  block := makes_throw _
  blockRest _ _ := makes_throw _
  attempt := makes_throw _
  expression _ := makes_throw _
  operators _ _ _ := makes_throw _
  operand := makes_throw _
  condition := makes_throw _
  expressionList _ := makes_throw _
  expressionListRest _ _ _ := makes_throw _
  pairsRest _ _ := makes_throw _

variable {fuel : Nat}

/-- An expression, perhaps with a semicolon behind it, as a part of a statement. -/
theorem value {α : Type} {post : α → Prop} (h : RulesMake fuel) {f : Expr → α}
    (hf : ∀ e, e.Readable → post (f e)) :
    Makes post (do
      let value ← Parser.expression fuel .lowest
      skipSemicolon
      return f value) :=
  (h.expression _).bind fun e he => makes_skipSemicolon.bind fun _ _ => makes_pure (hf e he)

/-- One branch for each keyword that can start a statement. A statement that starts with a name is
an assignment if an equals sign follows. -/
theorem statement_succ (h : RulesMake fuel) :
    Makes Stmt.Readable (Parser.statement (fuel + 1)) := by
  refine makes_current.bind fun first hfirst => ?_
  split
  · refine makes_expectName.bind fun name hname => (makes_expect _).bind fun _ _ =>
      makes_advance.bind fun _ _ => h.value fun e he => ?_
    exact ⟨hname, he⟩
  · exact makes_advance.bind fun _ _ => h.value fun e he => he
  · exact h.forStatement
  · exact makes_skipSemicolon.bind fun _ _ => makes_pure trivial
  · exact makes_skipSemicolon.bind fun _ _ => makes_pure trivial
  · refine makes_peek.bind fun got _ => ?_
    split
    · refine makes_advance.bind fun _ _ => makes_advance.bind fun _ _ => h.value fun e he => ?_
      exact ⟨hfirst, he⟩
    · exact h.expressionStatement
  · exact h.expressionStatement

theorem forStatement_succ (h : RulesMake fuel) :
    Makes Stmt.Readable (Parser.forStatement (fuel + 1)) := by
  refine (makes_expect _).bind fun _ _ => makes_advance.bind fun _ _ =>
    h.statement.bind fun init hinit => makes_current.bind fun got _ => ?_
  have hrest : Makes Stmt.Readable (do
      advance
      let test ← Parser.expression fuel .lowest
      expect .semicolon
      advance
      let post ← Parser.statement fuel
      expect .rparen
      expect .lbrace
      let body ← Parser.block fuel
      return .loop init test post body) := by
    refine makes_advance.bind fun _ _ => (h.expression _).bind fun test htest =>
      (makes_expect _).bind fun _ _ => makes_advance.bind fun _ _ =>
      h.statement.bind fun post hpost => (makes_expect _).bind fun _ _ =>
      (makes_expect _).bind fun _ _ => h.block.bind fun body hbody => makes_pure ?_
    exact ⟨hinit, htest, hpost, hbody⟩
  dsimp only
  split
  · exact (makes_expect _).bind fun _ _ => hrest
  · exact hrest

theorem blockRest_succ (h : RulesMake fuel) (read : List Stmt) (hread : Stmt.ReadableList read) :
    Makes Stmt.ReadableList (Parser.blockRest (fuel + 1) read) := by
  refine makes_current.bind fun first _ => ?_
  split
  · refine makes_pure (Stmt.readableList_iff.mpr fun s hs => ?_)
    exact Stmt.readableList_iff.mp hread s (List.mem_reverse.mp hs)
  · exact makes_throw _
  · refine h.attempt.bind fun made hmade => ?_
    split
    · exact makes_advance.bind fun _ _ => h.blockRest _ ⟨hmade _ rfl, hread⟩
    · exact makes_advance.bind fun _ _ => h.blockRest _ hread

theorem attempt_succ (h : RulesMake fuel) :
    Makes (fun made => ∀ s ∈ made, Stmt.Readable s) (Parser.attempt (fuel + 1)) := by
  intro s hs
  have hstatement := h.statement s hs
  unfold Parser.attempt
  cases hresult : Parser.statement fuel s with
  | ok made s' =>
    rw [hresult] at hstatement
    exact ⟨fun other hother => Option.some.inj hother ▸ hstatement.1, hstatement.2⟩
  | error e s' =>
    rw [hresult] at hstatement
    exact ⟨fun other hother => absurd hother (by simp), hstatement⟩

/-- Whatever binds more tightly than nothing is an operator of the grammar or one of the two
brackets. -/
theorem operators_succ (h : RulesMake fuel) (precedence : Precedence) (left : Expr)
    (hleft : left.Readable) :
    Makes Expr.Readable (Parser.operators (fuel + 1) precedence left) := by
  refine makes_peek.bind fun token _ => ?_
  dsimp only
  split
  · rename_i htighter
    refine makes_advance.bind fun _ _ => ?_
    split
    · exact (h.expressionList _).bind fun args hargs => h.operators _ _ ⟨hleft, hargs⟩
    · exact makes_advance.bind fun _ _ => (h.expression _).bind fun subscript hsubscript =>
        (makes_expect _).bind fun _ _ => h.operators _ _ ⟨hleft, hsubscript⟩
    · rename_i hparen hbracket
      refine makes_advance.bind fun _ _ => (h.expression _).bind fun right hright =>
        h.operators _ _ ⟨hleft, ?_, hright⟩
      -- only operators bind more tightly than nothing
      revert htighter
      cases token <;> simp_all [Precedence.ofToken, Precedence.rank, isOperator]
  · exact makes_pure hleft

/-- The branches in the order in which the parser looks for an operand. A float is excluded by the
token being plain. -/
theorem operand_succ (h : RulesMake fuel) : Makes Expr.Readable (Parser.operand (fuel + 1)) := by
  refine makes_current.bind fun first hfirst => ?_
  split
  · exact makes_pure hfirst
  · exact makes_integer _
  · exact absurd hfirst id
  · exact makes_pure trivial
  · exact makes_pure trivial
  · exact makes_pure trivial
  · exact makes_advance.bind fun _ _ => (h.expression _).bind fun right hright =>
      makes_pure ⟨.inl rfl, hright⟩
  · exact makes_advance.bind fun _ _ => (h.expression _).bind fun right hright =>
      makes_pure ⟨.inr rfl, hright⟩
  · exact makes_advance.bind fun _ _ => (h.expression _).bind fun inner hinner =>
      (makes_expect _).bind fun _ _ => makes_pure hinner
  · exact (h.expressionList _).bind fun elements helements => makes_pure helements
  · exact (h.pairsRest [] trivial).bind fun pairs hpairs => makes_pure hpairs
  · exact h.condition
  · exact (makes_expect _).bind fun _ _ => (makes_params _).bind fun names hnames =>
      (makes_expect _).bind fun _ _ => h.block.bind fun body hbody => makes_pure ⟨hnames, hbody⟩
  · exact makes_throw _

theorem condition_succ (h : RulesMake fuel) :
    Makes Expr.Readable (Parser.condition (fuel + 1)) := by
  refine (makes_expect _).bind fun _ _ => makes_advance.bind fun _ _ =>
    (h.expression _).bind fun test htest => (makes_expect _).bind fun _ _ =>
    (makes_expect _).bind fun _ _ => h.block.bind fun yes hyes => makes_peek.bind fun got _ => ?_
  split
  · exact makes_advance.bind fun _ _ => (makes_expect _).bind fun _ _ => h.block.bind
      fun no hno => makes_pure ⟨htest, hyes, hno⟩
  · exact makes_pure ⟨htest, hyes, trivial⟩

theorem expressionList_succ (h : RulesMake fuel) (close : Token) :
    Makes Expr.ReadableList (Parser.expressionList (fuel + 1) close) := by
  refine makes_peek.bind fun got _ => ?_
  split
  · exact makes_advance.bind fun _ _ => makes_pure trivial
  · exact makes_advance.bind fun _ _ => (h.expression _).bind fun first hfirst =>
      h.expressionListRest _ _ ⟨hfirst, trivial⟩

theorem expressionListRest_succ (h : RulesMake fuel) (close : Token) (read : List Expr)
    (hread : Expr.ReadableList read) :
    Makes Expr.ReadableList (Parser.expressionListRest (fuel + 1) close read) := by
  refine makes_peek.bind fun got _ => ?_
  split
  · exact makes_advance.bind fun _ _ => makes_advance.bind fun _ _ => (h.expression _).bind
      fun e he => h.expressionListRest _ _ ⟨he, hread⟩
  · refine (makes_expect _).bind fun _ _ => makes_pure (Expr.readableList_iff.mpr fun e he => ?_)
    exact Expr.readableList_iff.mp hread e (List.mem_reverse.mp he)

theorem pairsRest_succ (h : RulesMake fuel) (read : List (Expr × Expr))
    (hread : Expr.ReadablePairs read) :
    Makes Expr.ReadablePairs (Parser.pairsRest (fuel + 1) read) := by
  refine makes_peek.bind fun got _ => ?_
  split
  · refine makes_advance.bind fun _ _ => makes_pure (Expr.readablePairs_iff.mpr fun pair hp => ?_)
    exact Expr.readablePairs_iff.mp hread pair (List.mem_reverse.mp hp)
  · refine makes_advance.bind fun _ _ => (h.expression _).bind fun key hkey =>
      (makes_expect _).bind fun _ _ => makes_advance.bind fun _ _ =>
      (h.expression _).bind fun value hvalue => makes_peek.bind fun behind _ => ?_
    have hmore := h.pairsRest ((key, value) :: read) ⟨hkey, hvalue, hread⟩
    dsimp only
    split
    · exact (makes_expect _).bind fun _ _ => hmore
    · exact hmore

theorem succ (h : RulesMake fuel) : RulesMake (fuel + 1) where
  statement := h.statement_succ
  expressionStatement := h.value fun _ he => he
  forStatement := h.forStatement_succ
  block := makes_advance.bind fun _ _ => h.blockRest [] trivial
  blockRest := h.blockRest_succ
  attempt := h.attempt_succ
  expression _ := h.operand.bind fun left hleft => h.operators _ left hleft
  operators := h.operators_succ
  operand := h.operand_succ
  condition := h.condition_succ
  expressionList := h.expressionList_succ
  expressionListRest := h.expressionListRest_succ
  pairsRest := h.pairsRest_succ

end RulesMake

theorem rulesMake : (fuel : Nat) → RulesMake fuel
  | 0 => .zero
  | fuel + 1 => (rulesMake fuel).succ

/-- The outermost loop, by induction on the number of attempts at a statement that are left. An
attempt that fails adds nothing. -/
theorem makes_statements (fuel tokens : Nat) (read : List Stmt) (hread : Stmt.ReadableList read) :
    Makes Stmt.ReadableList (statements fuel tokens read) := by
  have hreverse : Stmt.ReadableList read.reverse := Stmt.readableList_iff.mpr fun s hs =>
    Stmt.readableList_iff.mp hread s (List.mem_reverse.mp hs)
  induction tokens generalizing read with
  | zero => exact makes_pure hreverse
  | succ tokens ih =>
    have hnext : ∀ read, Stmt.ReadableList read →
        Makes Stmt.ReadableList (statements fuel tokens read) := fun read hread =>
      ih read hread (Stmt.readableList_iff.mpr fun s hs =>
        Stmt.readableList_iff.mp hread s (List.mem_reverse.mp hs))
    refine makes_current.bind fun first _ => ?_
    split
    · exact makes_pure hreverse
    · refine (rulesMake fuel).attempt.bind fun made hmade => ?_
      split
      · exact makes_advance.bind fun _ _ => hnext _ ⟨hmade _ rfl, hread⟩
      · exact makes_advance.bind fun _ _ => hnext _ hread

end Parser

/-- **The parser makes readable programs from texts without floats.** Nothing is asked of the text
besides: it may be full of errors. -/
theorem Program.readable_parse {source : String}
    (h : ∀ digits, Token.float digits ∉ Token.scan source) :
    Stmt.ReadableList (Program.parse source).1 := by
  have hmade := Parser.makes_statements (8 * (Token.scan source).length + 16)
    (Token.scan source).length [] trivial ⟨Token.scan source, []⟩ (Token.plain_scan h)
  unfold Program.parse Program.ofTokens
  split
  · rename_i hresult
    rw [hresult] at hmade
    exact hmade.1
  · trivial

end Scriptlet
