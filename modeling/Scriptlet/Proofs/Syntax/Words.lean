import Scriptlet.Ast.Printer
import Scriptlet.Proofs.Syntax.Readable

/-!
# The words of a rendered program

`Expr.tokens` and `Stmt.tokens` list the words that a tree is rendered with, and reading the text of
a readable tree gives them back (`Program.scan_text`). A text is put together from pieces, each of
which spells some tokens (`Spells`) as long as what follows does not run into its last word.

The printer concatenates strings without regard to words, so whether two neighbouring pieces stay
apart has to be shown at every seam. `Spells` carries what a piece asks of the text behind it:
nothing at all for punctuation and strings, a character that parts words for names, keywords and
numbers, and no equals sign for an exclamation mark. At a seam the next piece is looked at, and its
first character settles the question.
-/

namespace Scriptlet

/-! ## The tokens of a tree

The same recursion as that of the printer, with tokens in place of text. Commas and semicolons stand
between the members of a list, so each list has a companion that starts with one. -/

/-- A comma and each name. -/
def moreParamTokens : List String → List Token
  | [] => []
  | name :: rest => .comma :: .ident name :: moreParamTokens rest

/-- The tokens of names with commas between them. -/
def paramTokens : List String → List Token
  | [] => []
  | name :: rest => .ident name :: moreParamTokens rest

mutual

/-- **The tokens of the text of an expression.** Infix and prefix operators and subscripts are
rendered in parentheses, calls are not. -/
def Expr.tokens : Expr → List Token
  | .ident name => [.ident name]
  | .int value => [.int (toString value.toInt)]
  | .float value => [.float (Decimal.literal value)]
  | .str value => [.str value]
  | .bool value => [if value then .trueKw else .falseKw]
  | .array elements => .lbracket :: (Expr.listTokens elements ++ [.rbracket])
  | .hash pairs => .lbrace :: (Expr.pairsTokens pairs ++ [.rbrace])
  | .prefixOp op operand => .lparen :: op :: (operand.tokens ++ [.rparen])
  | .infixOp left op right => .lparen :: (left.tokens ++ op :: (right.tokens ++ [.rparen]))
  | .cond test yes no =>
    .ifKw :: .lparen :: (test.tokens ++ .rparen :: (Stmt.blockTokens yes ++ Stmt.elseTokens no))
  | .fn params body =>
    .function :: .lparen :: (paramTokens params ++ .rparen :: Stmt.blockTokens body)
  | .call callee args => callee.tokens ++ .lparen :: (Expr.listTokens args ++ [.rparen])
  | .index left subscript =>
    .lparen :: (left.tokens ++ .lbracket :: (subscript.tokens ++ [.rbracket, .rparen]))

/-- The tokens of expressions with commas between them. -/
def Expr.listTokens : List Expr → List Token
  | [] => []
  | e :: rest => e.tokens ++ Expr.moreTokens rest

/-- A comma and the tokens of each expression. -/
def Expr.moreTokens : List Expr → List Token
  | [] => []
  | e :: rest => .comma :: (e.tokens ++ Expr.moreTokens rest)

/-- The tokens of the pairs of a hash with commas between them. -/
def Expr.pairsTokens : List (Expr × Expr) → List Token
  | [] => []
  | (key, value) :: rest => key.tokens ++ .colon :: (value.tokens ++ Expr.morePairsTokens rest)

/-- A comma and the tokens of each pair. -/
def Expr.morePairsTokens : List (Expr × Expr) → List Token
  | [] => []
  | (key, value) :: rest =>
    .comma :: (key.tokens ++ .colon :: (value.tokens ++ Expr.morePairsTokens rest))

/-- The tokens of the text of a statement. -/
def Stmt.tokens : Stmt → List Token
  | .bind name value => .letKw :: .ident name :: .assign :: value.tokens
  | .assign name value => .ident name :: .assign :: value.tokens
  | .ret value => .returnKw :: value.tokens
  | .expr value => value.tokens
  | .block body => Stmt.blockTokens body
  | .loop init test post body =>
    .forKw :: .lparen :: (init.tokens ++ .semicolon :: (test.tokens ++ .semicolon ::
      (post.tokens ++ .rparen :: Stmt.blockTokens body)))
  | .breakLoop => [.breakKw]
  | .continueLoop => [.continueKw]

/-- The tokens of statements with semicolons between them. -/
def Stmt.listTokens : List Stmt → List Token
  | [] => []
  | s :: rest => s.tokens ++ Stmt.moreTokens rest

/-- A semicolon and the tokens of each statement. -/
def Stmt.moreTokens : List Stmt → List Token
  | [] => []
  | s :: rest => .semicolon :: (s.tokens ++ Stmt.moreTokens rest)

/-- The tokens of a block. -/
def Stmt.blockTokens (body : List Stmt) : List Token :=
  .lbrace :: (Stmt.listTokens body ++ [.rbrace])

/-- The tokens of the second branch of a condition. -/
def Stmt.elseTokens : Option (List Stmt) → List Token
  | none => []
  | some body => .elseKw :: Stmt.blockTokens body

end

/-! ## Reading tokens

What the lexer does with the first characters of a text, one lemma for each kind of token. They are
stated with the rest of the text behind them, so that they can be used anywhere. -/

namespace Cursor

/-- **Reading the tokens `ts` takes a cursor from `cs` to `rest`.** The accumulator of `tokensFrom`
is general, so that two such steps compose. -/
def Lexes (cs : List Char) (ts : List Token) (rest : List Char) : Prop :=
  ∀ acc, tokensFrom ⟨[], cs⟩ acc = tokensFrom ⟨[], rest⟩ (acc ++ ts)

theorem Lexes.refl (cs : List Char) : Lexes cs [] cs := by
  intro acc
  rw [Array.appendList_nil]

theorem Lexes.trans {cs cs' rest : List Char} {ts ts' : List Token} (h : Lexes cs ts cs')
    (h' : Lexes cs' ts' rest) : Lexes cs (ts ++ ts') rest := by
  intro acc
  rw [h, h']
  congr 1
  apply Array.ext'
  simp only [Array.toList_appendList, List.append_assoc]

/-- One token is read, by one call of `next`. -/
theorem Lexes.token {cs cs' rest : List Char} {t : Token} {ts : List Token}
    (hnext : next ⟨[], cs⟩ = (t, ⟨[], cs'⟩)) (ht : t ≠ .eof) (h : Lexes cs' ts rest) :
    Lexes cs (t :: ts) rest := by
  intro acc
  rw [tokensFrom_eq, hnext, if_neg ht, h, Array.appendList_cons]

/-- A blank is passed over. -/
theorem lexes_blank (cs : List Char) : Lexes (' ' :: cs) [] cs := by
  intro acc
  have hnext : next ⟨[], ' ' :: cs⟩ = next ⟨[], cs⟩ := rfl
  rw [Array.appendList_nil, tokensFrom_eq, hnext, ← tokensFrom_eq]

/-- A character that no word and no number goes on with. -/
def parts (c : Char) : Bool :=
  !isLetter c && !c.isDigit && c != '.'

/-- What may follow a word: the end of the text, or a character that parts it from the next. -/
def Parted (cs : List Char) : Prop :=
  ∀ c ∈ cs.head?, parts c = true

/-- A run of characters ends where what follows does not go on with it. This is how the lexer cuts
words and numbers, and blanks. -/
theorem span_append {p : Char → Bool} {word rest : List Char} (hall : ∀ c ∈ word, p c = true)
    (hrest : ∀ c ∈ rest.head?, p c = false) :
    (word ++ rest).takeWhile p = word ∧ (word ++ rest).dropWhile p = rest := by
  rw [List.takeWhile_append_of_pos hall, List.dropWhile_append_of_pos hall]
  cases rest with
  | nil => exact ⟨List.append_nil word, rfl⟩
  | cons c rest =>
    have hc : ¬ p c = true := by rw [hrest c rfl]; decide
    rw [List.takeWhile_cons_of_neg hc, List.dropWhile_cons_of_neg hc, List.append_nil]
    exact ⟨rfl, rfl⟩

theorem Parted.head {rest : List Char} (h : Parted rest) :
    ∀ c ∈ rest.head?, isLetter c = false ∧ c.isDigit = false ∧ c ≠ '.' := by
  intro c hc
  have hparts := h c hc
  rw [parts, Bool.and_eq_true, Bool.and_eq_true, Bool.not_eq_true', Bool.not_eq_true',
    bne_iff_ne] at hparts
  exact ⟨hparts.1.1, hparts.1.2, hparts.2⟩

/-- A text that does not start with a blank starts with its first token. -/
theorem next_cons {c : Char} (rest : List Char) (hblank : isBlank c = false) :
    next ⟨[], c :: rest⟩ = tokenAt c rest := by
  unfold next
  dsimp only
  rw [List.dropWhile_cons_of_neg (by rw [hblank]; decide)]

/-- A character of a class without blanks is no blank. -/
theorem not_blank {p : Char → Bool} {c : Char} (hc : p c = true)
    (hp : p ' ' = false ∧ p '\t' = false ∧ p '\n' = false ∧ p '\r' = false) :
    isBlank c = false := by
  by_contra hblank
  rw [Bool.not_eq_false, isBlank] at hblank
  simp only [Bool.or_eq_true, beq_iff_eq] at hblank
  rcases hblank with ((rfl | rfl) | rfl) | rfl
  all_goals simp_all

/-- A letter starts a word; no letter is a token by itself. -/
theorem tokenAt_letter {c : Char} (rest : List Char) (hc : isLetter c = true) :
    tokenAt c rest = (.ofWord (String.ofList ((c :: rest).takeWhile isLetter)),
      ⟨[], (c :: rest).dropWhile isLetter⟩) := by
  unfold tokenAt
  split
  case h_6 =>
    split
    · -- no letter is a token by itself
      rename_i hsingle
      unfold single? at hsingle
      split at hsingle
      all_goals first | exact absurd hc (by decide) | cases hsingle
    · rw [if_pos hc]
  all_goals exact absurd hc (by decide)

theorem tokenAt_bang {rest : List Char} (h : rest.head? ≠ some '=') :
    tokenAt '!' rest = (.bang, ⟨[], rest⟩) := by
  unfold tokenAt
  split
  case h_3 => exact absurd rfl h
  case h_4 => rfl
  case h_6 hbang _ _ _ => exact absurd rfl hbang
  all_goals exact absurd ‹ '!' = _› (by decide)

theorem tokenAt_assign {rest : List Char} (h : rest.head? ≠ some '=') :
    tokenAt '=' rest = (.assign, ⟨[], rest⟩) := by
  unfold tokenAt
  split
  case h_1 => exact absurd rfl h
  case h_2 => rfl
  case h_6 hassign _ _ _ _ => exact absurd rfl hassign
  all_goals exact absurd ‹ '=' = _› (by decide)

theorem isLetter_of_isDigit {c : Char} (hc : c.isDigit = true) : isLetter c = false := by
  obtain ⟨hlo, hhi⟩ := Char.isDigit_iff_toNat.mp hc
  have hcode : c.val.toNat = c.toNat := rfl
  have hunderscore : c ≠ '_' := by
    rintro rfl
    exact absurd hc (by decide)
  unfold isLetter Char.isAlpha Char.isUpper Char.isLower
  simp only [Bool.or_eq_false_iff, Bool.and_eq_false_iff, decide_eq_false_iff_not,
    beq_eq_false_iff_ne, ge_iff_le, UInt32.le_iff_toNat_le, hcode]
  simp at hlo hhi ⊢
  exact ⟨⟨by omega, by omega⟩, hunderscore⟩

/-- A digit starts a number. -/
theorem tokenAt_digit {c : Char} (rest : List Char) (hc : c.isDigit = true) :
    tokenAt c rest = ((number (c :: rest)).1, ⟨[], (number (c :: rest)).2⟩) := by
  unfold tokenAt
  split
  case h_6 =>
    split
    · -- no digit is a token by itself
      rename_i hsingle
      unfold single? at hsingle
      split at hsingle
      all_goals first | exact absurd hc (by decide) | cases hsingle
    · rw [if_neg (by rw [isLetter_of_isDigit hc]; decide), if_pos hc]
  all_goals exact absurd hc (by decide)

/-- A word of letters is read as a whole, up to a character that parts it from the next. -/
theorem next_word {word rest : List Char} (hword : word ≠ [])
    (hletters : ∀ c ∈ word, isLetter c = true) (hrest : Parted rest) :
    next ⟨[], word ++ rest⟩ = (.ofWord (String.ofList word), ⟨[], rest⟩) := by
  obtain ⟨htake, hdrop⟩ := span_append hletters fun c hc => (hrest.head c hc).1
  obtain ⟨c, tail, rfl⟩ := List.exists_cons_of_ne_nil hword
  have hc := hletters c List.mem_cons_self
  rw [List.cons_append, next_cons _ (not_blank hc (by decide)), tokenAt_letter _ hc,
    ← List.cons_append, htake, hdrop]

/-- Digits are read as a whole. They are an integer, since what parts them from the next word is no
point. -/
theorem next_digits {digits rest : List Char} (hdigits : digits ≠ [])
    (hall : ∀ c ∈ digits, c.isDigit = true) (hrest : Parted rest) :
    next ⟨[], digits ++ rest⟩ = (.int (String.ofList digits), ⟨[], rest⟩) := by
  obtain ⟨htake, hdrop⟩ := span_append hall fun c hc => (hrest.head c hc).2.1
  have hnumber : number (digits ++ rest) = (.int (String.ofList digits), rest) := by
    unfold number
    rw [htake, hdrop]
    split
    · rename_i d more
      exact absurd rfl (hrest.head '.' rfl).2.2
    · rfl
  obtain ⟨c, tail, rfl⟩ := List.exists_cons_of_ne_nil hdigits
  have hc := hall c List.mem_cons_self
  rw [List.cons_append] at hnumber ⊢
  rw [next_cons _ (not_blank hc (by decide)), tokenAt_digit _ hc, hnumber]

/-! ### Strings

Inside of a string the printer writes a backslash in front of a quote, a backslash and the like.
Reading goes by what it finds: one character, or a backslash and one more. -/

/-- A character that is no quote and no backslash is read as itself. -/
theorem stringBody_cons (acc : List Char) {c : Char} (rest : List Char) (hquote : c ≠ '"')
    (hbackslash : c ≠ '\\') : stringBody acc (c :: rest) = stringBody (c :: acc) rest := by
  rw [stringBody.eq_def]
  split
  case h_1 heq => cases heq
  case h_2 heq => exact absurd (List.cons.inj heq).1 hquote
  case h_3 heq => exact absurd (List.cons.inj heq).1 hbackslash
  case h_4 heq => exact absurd (List.cons.inj heq).1 hbackslash
  case h_5 heq =>
    cases heq
    rfl

/-- What stands for a character inside a string is read as that character, whether it has been
escaped or not. -/
theorem stringBody_escape (acc : List Char) (c : Char) (rest : List Char) :
    stringBody acc ((quoted.escape c).toList ++ rest) = stringBody (c :: acc) rest := by
  unfold quoted.escape
  split
  case h_6 hquote hbackslash _ _ _ =>
    have hself : c.toString.toList = [c] := String.toList_singleton c
    rw [hself]
    exact stringBody_cons acc rest hquote hbackslash
  all_goals rfl

/-- All characters of a string, by induction on them; the closing quote ends the string. -/
theorem stringBody_escapes (acc cs rest : List Char) :
    stringBody acc (cs.flatMap (fun c => (quoted.escape c).toList) ++ '"' :: rest)
      = (cs.reverse ++ acc, rest) := by
  induction cs generalizing acc with
  | nil => rfl
  | cons c cs ih =>
    rw [List.flatMap_cons, List.append_assoc, stringBody_escape, ih, List.reverse_cons,
      List.append_assoc]
    rfl

/-- The characters of a literal. The printer folds over the string, so the equation is proved for a
fold that has begun. -/
theorem toList_quoted (s : String) :
    (quoted s).toList = '"' :: (s.toList.flatMap fun c => (quoted.escape c).toList) ++ ['"'] := by
  have hfold : ∀ (cs : List Char) (text : String),
      (cs.foldl (fun text c => text ++ quoted.escape c) text).toList
        = text.toList ++ cs.flatMap fun c => (quoted.escape c).toList := by
    intro cs
    induction cs with
    | nil => intro text; simp
    | cons c cs ih =>
      intro text
      rw [List.foldl_cons, ih, String.toList_append, List.append_assoc, List.flatMap_cons]
  rw [quoted, String.toList_append, String.foldl_eq_foldl_toList, hfold]
  rfl

/-- A string literal is read as its contents. -/
theorem next_quoted (s : String) (rest : List Char) :
    next ⟨[], (quoted s).toList ++ rest⟩ = (.str s, ⟨[], rest⟩) := by
  rw [toList_quoted, List.cons_append, List.cons_append, List.append_assoc,
    next_cons _ (by decide)]
  have hbody := stringBody_escapes [] s.toList rest
  show ((Token.str (String.ofList (stringBody [] _).1.reverse)),
    (⟨[], (stringBody [] _).2⟩ : Cursor)) = _
  rw [List.singleton_append, hbody, List.append_nil, List.reverse_reverse, String.ofList_toList]

end Cursor

/-! ## Texts and what they spell

`Spells follow text ts` is the statement about a piece of text that the lemmas below put together.
The combinators differ in how the seam is dealt with: `then` asks nothing of it, `mark` looks at the
first character of the second piece, and `append` leaves the question to the caller. -/

open Cursor

/-- **The text is read as the tokens `ts`, whatever follows, if it has the property `follow`.** -/
def Spells (follow : List Char → Prop) (text : String) (ts : List Token) : Prop :=
  ∀ rest, follow rest → Lexes (text.toList ++ rest) ts rest

/-- Nothing is asked of what follows. -/
def Anything (_ : List Char) : Prop := True

section Spells

variable {follow follow' : List Char → Prop} {text text' : String} {ts ts' : List Token}

/-- Two pieces in a row, if the second one, with all that may follow it, is what the first one asks
for. -/
theorem Spells.append (h : Spells follow text ts) (h' : Spells follow' text' ts')
    (hfollow : ∀ rest, follow' rest → follow (text'.toList ++ rest)) :
    Spells follow' (text ++ text') (ts ++ ts') := by
  intro rest hrest
  rw [String.toList_append, List.append_assoc]
  exact (h _ (hfollow rest hrest)).trans (h' rest hrest)

/-- Punctuation ends by itself. -/
theorem Spells.then (h : Spells Anything text ts) (h' : Spells follow text' ts') :
    Spells follow (text ++ text') (ts ++ ts') :=
  h.append h' fun _ _ => trivial

/-- A word is followed by punctuation that parts it from the next. -/
theorem Spells.mark (h : Spells Parted text ts) (h' : Spells Anything text' ts')
    (hparts : text'.toList.head?.any parts = true) :
    Spells Anything (text ++ text') (ts ++ ts') := by
  refine h.append h' fun rest _ c hc => ?_
  obtain ⟨d, hd, hparts⟩ := (Option.any_eq_true _ _).mp hparts
  rw [List.head?_append, hd, Option.some_or] at hc
  exact Option.some.inj hc ▸ hparts

theorem Spells.parted (h : Spells Anything text ts) : Spells Parted text ts :=
  fun rest _ => h rest trivial

theorem spells_empty : Spells follow "" [] :=
  fun rest _ => .refl rest

/-- A word that is a keyword or a name. -/
theorem spells_word {word : String} (hword : word.toList ≠ [])
    (hletters : word.toList.all isLetter = true) (ht : Token.ofWord word ≠ .eof) :
    Spells Parted word [Token.ofWord word] := by
  intro rest hrest
  have hnext := next_word hword (List.all_eq_true.mp hletters) hrest
  rw [String.ofList_toList] at hnext
  exact .token hnext ht (.refl rest)

theorem IsName.spells {name : String} (h : IsName name) : Spells Parted name [.ident name] := by
  have hspells := spells_word h.nonempty (List.all_eq_true.mpr h.letters)
    (by rw [h.word]; exact Token.noConfusion)
  rwa [h.word] at hspells

/-- The decimal digits of a number. -/
theorem spells_nat (n : Nat) : Spells Parted (toString n) [.int (toString n)] := by
  intro rest hrest
  have hlist : (toString n).toList = Nat.toDigits 10 n := by
    rw [Nat.toString_eq_ofList_toDigits, String.toList_ofList]
  have hdigits : ∀ c ∈ (toString n).toList, c.isDigit = true :=
    fun c hc => Nat.isDigit_of_mem_toDigits (by decide) (by decide) (hlist ▸ hc)
  have hnext := next_digits (by rw [hlist]; exact Nat.toDigits_ne_nil) hdigits hrest
  rw [String.ofList_toList] at hnext
  exact .token hnext Token.noConfusion (.refl rest)

/-- A literal ends by its own quote. -/
theorem spells_quoted (s : String) : Spells Anything (quoted s) [.str s] :=
  fun rest _ => .token (next_quoted s rest) Token.noConfusion (.refl rest)

/-- The tokens of a piece of text without words, in which blanks are passed over. -/
def markTokens (text : String) : List Token :=
  text.toList.filterMap single?

/-- Brackets, commas and the like are tokens by themselves, and blanks between them are passed over.
Induction on the characters. -/
theorem spells_marks {text : String}
    (h : text.toList.all (fun c => c == ' ' || (single? c).isSome)) :
    Spells Anything text (markTokens text) := by
  intro rest _
  have hmark : ∀ c ∈ text.toList, c = ' ' ∨ (single? c).isSome = true := fun c hc => by
    simpa using List.all_eq_true.mp h c hc
  unfold markTokens
  generalize text.toList = cs at hmark
  induction cs with
  | nil => exact .refl rest
  | cons c cs ih =>
    have hrest := ih fun d hd => hmark d (List.mem_cons_of_mem c hd)
    rcases hmark c List.mem_cons_self with rfl | hc
    · exact (lexes_blank _).trans hrest
    · obtain ⟨t, ht⟩ := Option.isSome_iff_exists.mp hc
      rw [List.filterMap_cons_some ht]
      unfold single? at ht
      split at ht
      all_goals first | cases ht; exact .token rfl Token.noConfusion hrest | cases ht

/-- An infix operator between blanks: a fixed text for each. -/
theorem spells_operator {op : Token} (h : Parser.isOperator op = true) :
    Spells Anything op.text [op] := by
  cases op <;> first
    | exact fun rest _ => .token rfl Token.noConfusion (.refl rest)
    | cases h

/-- An exclamation mark, unless an equals sign makes it another operator. -/
theorem spells_bang : Spells (fun rest => rest.head? ≠ some '=') Token.bang.text [.bang] :=
  fun rest hrest => .token (tokenAt_bang hrest) Token.noConfusion (.refl rest)

/-- Pieces in a row, with their tokens listed. -/
theorem Spells.cast (h : Spells follow text ts) (hts : ts = ts') : Spells follow text ts' :=
  hts ▸ h

end Spells

/-! ## Expressions and statements

The pieces of the printer in the order in which it writes them. Each piece is spelled on its own,
and the seams are settled by the punctuation around it. -/

/-- The text of an integer that is not negative. -/
theorem toString_of_nonneg {value : Int} (h : 0 ≤ value) :
    toString value = toString value.toNat := by
  conv => lhs; rw [← Int.toNat_of_nonneg h]
  rfl

/-- **No expression starts with an equals sign.** This is the seam behind an exclamation mark: `!`
with an expression behind it is not read as `!=`. -/
theorem Expr.head_text : (e : Expr) → e.Readable →
    ∀ rest, (e.text.toList ++ rest).head? ≠ some '='
  | .ident name, h, rest => by
    obtain ⟨c, cs, hname⟩ := List.exists_cons_of_ne_nil h.nonempty
    rw [Expr.text, hname]
    rintro ⟨⟩
    exact absurd (h.letters '=' (by rw [hname]; exact List.mem_cons_self)) (by decide)
  | .int value, h, rest => by
    obtain ⟨c, cs, hdigits⟩ := List.exists_cons_of_ne_nil (Nat.toDigits_ne_nil (b := 10)
      (n := value.toInt.toNat))
    rw [Expr.text, toString_of_nonneg h, Nat.toString_eq_ofList_toDigits, String.toList_ofList,
      hdigits]
    rintro ⟨⟩
    -- the first character is a digit
    have hmem : '=' ∈ Nat.toDigits 10 value.toInt.toNat := by
      rw [hdigits]
      exact List.mem_cons_self
    exact absurd (Nat.isDigit_of_mem_toDigits (by decide) (by decide) hmem) (by decide)
  | .float _, h, _ => absurd h id
  | .str value, _, _ => by
    rw [Expr.text, toList_quoted]
    simp
  | .bool true, _, _ | .bool false, _, _ => by simp [Expr.text]
  | .array _, _, _ | .hash _, _, _ | .prefixOp _ _, _, _ | .infixOp _ _ _, _, _
  | .cond _ _ _, _, _ | .fn _ _, _, _ | .index _ _, _, _ => by simp [Expr.text]
  | .call callee _, h, rest => by
    rw [Expr.text, String.append_assoc, String.append_assoc, String.toList_append,
      List.append_assoc]
    exact callee.head_text h.1 _

/-- Names with commas between them. The printer uses `intercalate`, whose recursion on the list is
followed here. -/
theorem spells_params {params : List String} (h : ∀ param ∈ params, IsName param) :
    Spells Parted (",".intercalate params) (paramTokens params) := by
  induction params with
  | nil =>
    rw [String.intercalate_nil]
    exact spells_empty
  | cons name rest ih =>
    have hname := (h name List.mem_cons_self).spells
    cases rest with
    | nil =>
      rw [String.intercalate_singleton]
      exact hname
    | cons next rest =>
      have hcomma : Spells Anything "," [.comma] := spells_marks rfl
      have hrest := ih fun param hparam => h param (List.mem_cons_of_mem name hparam)
      rw [String.intercalate_cons_cons]
      exact (hname.mark hcomma rfl).then hrest

mutual

/-- **The text of an expression is read as its tokens.** One case for each constructor, with the
pieces named in the order of the text. -/
theorem Expr.spells : (e : Expr) → e.Readable → Spells Parted e.text e.tokens
  | .ident _, h => by
    rw [Expr.text, Expr.tokens]
    exact h.spells
  | .int value, h => by
    rw [Expr.text, Expr.tokens, toString_of_nonneg h]
    exact spells_nat _
  | .float _, h => absurd h id
  | .str value, _ => by
    rw [Expr.text, Expr.tokens]
    exact (spells_quoted value).parted
  | .bool true, _ => by
    -- the text is a word, which the lexer looks up among the keywords
    have htrue : Spells Parted "true" [.trueKw] :=
      spells_word (by decide) (by decide) (by decide)
    rwa [Expr.text, Expr.tokens]
  | .bool false, _ => by
    have hfalse : Spells Parted "false" [.falseKw] :=
      spells_word (by decide) (by decide) (by decide)
    rwa [Expr.text, Expr.tokens]
  | .array elements, h => by
    have hopen : Spells Anything "[" [.lbracket] := spells_marks rfl
    have hclose : Spells Anything "]" [.rbracket] := spells_marks rfl
    rw [Expr.text, Expr.tokens]
    exact ((hopen.then (Expr.spells_list elements h)).mark hclose rfl).parted.cast (by simp)
  | .hash pairs, h => by
    have hopen : Spells Anything "\x7b" [.lbrace] := spells_marks rfl
    have hclose : Spells Anything "\x7d" [.rbrace] := spells_marks rfl
    rw [Expr.text, Expr.tokens]
    exact ((hopen.then (Expr.spells_pairs pairs h)).mark hclose rfl).parted.cast (by simp)
  -- a `!` is one token or the start of `!=`, so it depends on what comes next
  | .prefixOp op operand, h => by
    obtain ⟨hop, hoperand⟩ := h
    have hopen : Spells Anything "(" [.lparen] := spells_marks rfl
    have hclose : Spells Anything ")" [.rparen] := spells_marks rfl
    have hinside : Spells Parted ("(" ++ op.text ++ operand.text)
        ([.lparen] ++ [op] ++ operand.tokens) := by
      rcases hop with rfl | rfl
      · exact (hopen.then spells_bang).append (Expr.spells operand hoperand) fun rest _ =>
          operand.head_text hoperand rest
      · exact (hopen.then (spells_operator rfl)).then (Expr.spells operand hoperand)
    rw [Expr.text, Expr.tokens]
    exact (hinside.mark hclose rfl).parted.cast (by simp)
  | .infixOp left op right, h => by
    obtain ⟨hleft, hop, hright⟩ := h
    have hopen : Spells Anything "(" [.lparen] := spells_marks rfl
    have hblank : Spells Anything " " [] := spells_marks rfl
    have hclose : Spells Anything ")" [.rparen] := spells_marks rfl
    have hfirst := (hopen.then (Expr.spells left hleft)).mark hblank rfl
    have hsecond := (hfirst.then (spells_operator hop)).then hblank
    rw [Expr.text, Expr.tokens]
    exact ((hsecond.then (Expr.spells right hright)).mark hclose rfl).parted.cast (by simp)
  | .cond test yes no, h => by
    obtain ⟨htest, hyes, hno⟩ := h
    have hif : Spells Anything "if (" [.ifKw, .lparen] := fun rest _ =>
      .token rfl Token.noConfusion (.token rfl Token.noConfusion (.refl rest))
    have hclose : Spells Anything ") " [.rparen] := spells_marks rfl
    have hhead := (hif.then (Expr.spells test htest)).mark hclose rfl
    rw [Expr.text, Expr.tokens]
    exact ((hhead.then (Stmt.spells_block yes hyes)).then (Stmt.spells_else no hno)).cast (by simp)
  | .fn params body, h => by
    obtain ⟨hparams, hbody⟩ := h
    have hfn : Spells Anything "fn(" [.function, .lparen] := fun rest _ =>
      .token rfl Token.noConfusion (.token rfl Token.noConfusion (.refl rest))
    have hclose : Spells Anything ") " [.rparen] := spells_marks rfl
    have hhead := (hfn.then (spells_params hparams)).mark hclose rfl
    rw [Expr.text, Expr.tokens]
    exact (hhead.then (Stmt.spells_block body hbody)).parted.cast (by simp)
  | .call callee args, h => by
    obtain ⟨hcallee, hargs⟩ := h
    have hopen : Spells Anything "(" [.lparen] := spells_marks rfl
    have hclose : Spells Anything ")" [.rparen] := spells_marks rfl
    have hhead := (Expr.spells callee hcallee).mark hopen rfl
    rw [Expr.text, Expr.tokens]
    exact ((hhead.then (Expr.spells_list args hargs)).mark hclose rfl).parted.cast (by simp)
  | .index left subscript, h => by
    obtain ⟨hleft, hsubscript⟩ := h
    have hopen : Spells Anything "(" [.lparen] := spells_marks rfl
    have hbracket : Spells Anything "[" [.lbracket] := spells_marks rfl
    have hclose : Spells Anything "])" [.rbracket, .rparen] := spells_marks rfl
    have hhead := (hopen.then (Expr.spells left hleft)).mark hbracket rfl
    rw [Expr.text, Expr.tokens]
    exact ((hhead.then (Expr.spells subscript hsubscript)).mark hclose rfl).parted.cast (by simp)

theorem Expr.spells_list : (es : List Expr) → Expr.ReadableList es →
    Spells Parted (Expr.listText es) (Expr.listTokens es)
  | [], _ => by
    rw [Expr.listText, Expr.listTokens]
    exact spells_empty
  | e :: rest, h => by
    rw [Expr.listText, Expr.listTokens]
    exact Expr.spells_more rest h.2 (Expr.spells e h.1)

/-- Each further expression stands behind a comma. -/
theorem Expr.spells_more {text : String} {ts : List Token} : (es : List Expr) →
    Expr.ReadableList es → Spells Parted text ts →
      Spells Parted (Expr.moreText text es) (ts ++ Expr.moreTokens es)
  | [], _, htext => by
    rw [Expr.moreText, Expr.moreTokens]
    exact htext.cast (List.append_nil ts).symm
  | e :: rest, h, htext => by
    have hcomma : Spells Anything ", " [.comma] := spells_marks rfl
    have hnext := (htext.mark hcomma rfl).then (Expr.spells e h.1)
    rw [Expr.moreText, Expr.moreTokens]
    exact (Expr.spells_more rest h.2 hnext).cast (by simp)

theorem Expr.spells_pairs : (pairs : List (Expr × Expr)) → Expr.ReadablePairs pairs →
    Spells Parted (Expr.pairsText pairs) (Expr.pairsTokens pairs)
  | [], _ => by
    rw [Expr.pairsText, Expr.pairsTokens]
    exact spells_empty
  | (key, value) :: rest, h => by
    have hcolon : Spells Anything ": " [.colon] := spells_marks rfl
    have hpair := ((Expr.spells key h.1).mark hcolon rfl).then (Expr.spells value h.2.1)
    rw [Expr.pairsText, Expr.pairsTokens]
    exact (Expr.spells_morePairs rest h.2.2 hpair).cast (by simp)

/-- Each further pair stands behind a comma. -/
theorem Expr.spells_morePairs {text : String} {ts : List Token} : (pairs : List (Expr × Expr)) →
    Expr.ReadablePairs pairs → Spells Parted text ts →
      Spells Parted (Expr.morePairsText text pairs) (ts ++ Expr.morePairsTokens pairs)
  | [], _, htext => by
    rw [Expr.morePairsText, Expr.morePairsTokens]
    exact htext.cast (List.append_nil ts).symm
  | (key, value) :: rest, h, htext => by
    have hcomma : Spells Anything ", " [.comma] := spells_marks rfl
    have hcolon : Spells Anything ": " [.colon] := spells_marks rfl
    have hpair := ((Expr.spells key h.1).mark hcolon rfl).then (Expr.spells value h.2.1)
    have hnext := (htext.mark hcomma rfl).then hpair
    rw [Expr.morePairsText, Expr.morePairsTokens]
    exact (Expr.spells_morePairs rest h.2.2 hnext).cast (by simp)

/-- The text of a statement is read as its tokens. -/
theorem Stmt.spells : (s : Stmt) → s.Readable → Spells Parted s.text s.tokens
  | .bind name value, h => by
    have hlet : Spells Anything "let " [.letKw] := fun rest _ =>
      .token rfl Token.noConfusion (lexes_blank rest)
    have hassign : Spells Anything " = " [.assign] := fun rest _ =>
      .token rfl Token.noConfusion (lexes_blank rest)
    rw [Stmt.text, Stmt.tokens]
    exact (((hlet.then h.1.spells).mark hassign rfl).then (Expr.spells value h.2)).cast (by simp)
  | .assign name value, h => by
    have hassign : Spells Anything " = " [.assign] := fun rest _ =>
      .token rfl Token.noConfusion (lexes_blank rest)
    rw [Stmt.text, Stmt.tokens]
    exact ((h.1.spells.mark hassign rfl).then (Expr.spells value h.2)).cast (by simp)
  | .ret value, h => by
    have hreturn : Spells Anything "return " [.returnKw] := fun rest _ =>
      .token rfl Token.noConfusion (lexes_blank rest)
    rw [Stmt.text, Stmt.tokens]
    exact (hreturn.then (Expr.spells value h)).cast (by simp)
  | .expr value, h => by
    rw [Stmt.text, Stmt.tokens]
    exact Expr.spells value h
  | .block _, h => absurd h id
  | .loop init test post body, h => by
    obtain ⟨hinit, htest, hpost, hbody⟩ := h
    have hfor : Spells Anything "for (" [.forKw, .lparen] := fun rest _ =>
      .token rfl Token.noConfusion (.token rfl Token.noConfusion (.refl rest))
    have hsemicolon : Spells Anything "; " [.semicolon] := spells_marks rfl
    have hclose : Spells Anything ") " [.rparen] := spells_marks rfl
    have hfirst := (hfor.then (Stmt.spells init hinit)).mark hsemicolon rfl
    have hsecond := (hfirst.then (Expr.spells test htest)).mark hsemicolon rfl
    have hhead := (hsecond.then (Stmt.spells post hpost)).mark hclose rfl
    rw [Stmt.text, Stmt.tokens]
    exact (hhead.then (Stmt.spells_block body hbody)).parted.cast (by simp)
  | .breakLoop, _ => by
    have hbreak : Spells Parted "break" [.breakKw] :=
      spells_word (by decide) (by decide) (by decide)
    rwa [Stmt.text, Stmt.tokens]
  | .continueLoop, _ => by
    have hcontinue : Spells Parted "continue" [.continueKw] :=
      spells_word (by decide) (by decide) (by decide)
    rwa [Stmt.text, Stmt.tokens]

/-- Each further statement stands behind a semicolon. -/
theorem Stmt.spells_more {text : String} {ts : List Token} : (body : List Stmt) →
    Stmt.ReadableList body → Spells Parted text ts →
      Spells Parted (Stmt.moreText text body) (ts ++ Stmt.moreTokens body)
  | [], _, htext => by
    rw [Stmt.moreText, Stmt.moreTokens]
    exact htext.cast (List.append_nil ts).symm
  | s :: rest, h, htext => by
    have hsemicolon : Spells Anything "; " [.semicolon] := spells_marks rfl
    have hnext := (htext.mark hsemicolon rfl).then (Stmt.spells s h.1)
    rw [Stmt.moreText, Stmt.moreTokens]
    exact (Stmt.spells_more rest h.2 hnext).cast (by simp)

/-- A block ends by itself. -/
theorem Stmt.spells_block : (body : List Stmt) → Stmt.ReadableList body →
    Spells Anything (Stmt.blockText body) (Stmt.blockTokens body)
  | [], _ => by
    have hempty : Spells Anything "\x7b \x7d" [.lbrace, .rbrace] := spells_marks rfl
    rwa [Stmt.blockText, Stmt.blockTokens, Stmt.listTokens]
  | s :: rest, h => by
    have hopen : Spells Anything "\x7b " [.lbrace] := spells_marks rfl
    have hclose : Spells Anything " \x7d" [.rbrace] := spells_marks rfl
    have hbody := Stmt.spells_more rest h.2 (Stmt.spells s h.1)
    rw [Stmt.blockText, Stmt.blockTokens, Stmt.listTokens]
    exact ((hopen.then hbody).mark hclose rfl).cast (by simp)

theorem Stmt.spells_else : (no : Option (List Stmt)) → Stmt.ReadableOption no →
    Spells Parted (Stmt.elseText no) (Stmt.elseTokens no)
  | none, _ => by
    rw [Stmt.elseText, Stmt.elseTokens]
    exact spells_empty
  | some body, h => by
    have helse : Spells Anything " else " [.elseKw] := fun rest _ =>
      .token rfl Token.noConfusion (lexes_blank rest)
    rw [Stmt.elseText, Stmt.elseTokens]
    exact (helse.then (Stmt.spells_block body h)).parted.cast (by simp)

end

/-- What is read up to the end of a text is all of its tokens. -/
theorem Token.scan_of_lexes {text : String} {ts : List Token} (h : Lexes text.toList ts []) :
    Token.scan text = ts := by
  have hlexes := h #[]
  have hend : ∀ acc, tokensFrom ⟨[], []⟩ acc = acc := fun acc => by
    rw [tokensFrom_eq]
    rfl
  rw [hend] at hlexes
  rw [Token.scan, Cursor.ofString, hlexes]
  simp

/-- A whole text is read as the tokens that it spells. -/
theorem Spells.scan {text : String} {ts : List Token} (h : Spells Parted text ts) :
    Token.scan text = ts := by
  have hlexes := h [] (fun c hc => by cases hc)
  rw [List.append_nil] at hlexes
  exact Token.scan_of_lexes hlexes

/-- **The text of a readable program is read as the tokens of its statements.** -/
theorem Program.scan_text {program : Program} (h : Stmt.ReadableList program) :
    Token.scan program.text = Stmt.listTokens program := by
  apply Spells.scan
  cases program with
  | nil =>
    rw [Program.text, Stmt.listText, Stmt.listTokens]
    exact spells_empty
  | cons s rest =>
    rw [Program.text, Stmt.listText, Stmt.listTokens]
    exact Stmt.spells_more rest h.2 (Stmt.spells s h.1)

end Scriptlet
