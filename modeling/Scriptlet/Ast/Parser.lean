import Scriptlet.Ast
import Scriptlet.Decimal.Shortest
import Scriptlet.Token.Lexer

/-!
# Reading programs

A parser of precedence climbing over a list of tokens. Inside a statement the first error wins; it
is recorded, the statement is dropped, and reading goes on at the token after the one where the
error arose, in the program or in the block that the statement stands in. `Program.parse` therefore
answers with a program and a list of errors.

The rules recurse on a fuel that every call lowers. Any eight nested calls take a token, so eight
times the number of tokens, and some more for the end of the text, is more than the rules can use.
-/

namespace Scriptlet

/-- How tightly an operator binds. -/
inductive Precedence where
  | lowest
  | equals
  | lessGreater
  | sum
  | product
  | unary
  | call
  | index
deriving DecidableEq, Repr

namespace Precedence

/-- The precedences in ascending order. -/
def rank : Precedence → Nat
  | lowest => 0
  | equals => 1
  | lessGreater => 2
  | sum => 3
  | product => 4
  | unary => 5
  | call => 6
  | index => 7

/-- The precedence of a token that stands behind an expression. -/
def ofToken : Token → Precedence
  | .eq | .notEq => equals
  | .lt | .gt => lessGreater
  | .plus | .minus => sum
  | .asterisk | .slash => product
  | .lparen => call
  | .lbracket => index
  | _ => lowest

end Precedence

/-- What the grammar demands next: some name or a particular token. -/
inductive Expected where
  | name
  | token (token : Token)
deriving DecidableEq, Repr

/-- Why a statement could not be read. -/
inductive ParseError where
  | unexpected (wanted : Expected) (got : Token)
  /-- A token that starts no expression. -/
  | noExpression (got : Token)
  /-- An integer literal beyond 64 bits. -/
  | integerRange (digits : String)
  /-- The rules ran out of fuel, which `Program.parse` gives in excess. -/
  | outOfFuel
deriving DecidableEq, Repr

namespace ParseError

/-- The name of a demand in a message. -/
def wantedText : Expected → String
  | .name => "IDENT"
  | .token token => token.text

/-- The wording of an error. -/
def message : ParseError → String
  | unexpected wanted got =>
    "expected next token to be " ++ wantedText wanted ++ ", got " ++ got.text ++ " instead"
  | noExpression got => "no prefix parse function for " ++ got.text ++ " found"
  | integerRange digits => "could not parse \"" ++ digits ++ "\" as integer"
  | outOfFuel => "program too large"

end ParseError

namespace Parser

/-- The tokens that are left, the current one first, and the errors so far, the latest first. -/
structure State where
  tokens : List Token
  errors : List ParseError

/-- A step of the parser keeps its position when it fails. -/
abbrev Parse := EStateM ParseError State

/-- The current token; behind the last one the text ends. -/
def current : Parse Token := do
  return (← get).tokens.headD .eof

/-- The token after the current one. -/
def peek : Parse Token := do
  return (← get).tokens.tail.headD .eof

/-- Moves on to the next token. -/
def advance : Parse Unit :=
  modify fun s => { s with tokens := s.tokens.tail }

/-- Records an error and goes on. -/
def report (error : ParseError) : Parse Unit :=
  modify fun s => { s with errors := error :: s.errors }

/-- Moves on to the next token if it is `token`, and fails without moving otherwise. -/
def expect (token : Token) : Parse Unit := do
  let got ← peek
  if got = token then advance else throw (.unexpected (.token token) got)

/-- Moves on to the next token if it is a name, which is returned, and fails without moving
otherwise. -/
def expectName : Parse String := do
  match ← peek with
  | .ident name => do
    advance
    return name
  | got => throw (.unexpected .name got)

/-- Moves on to the next token if it is a semicolon. -/
def skipSemicolon : Parse Unit := do
  if (← peek) = .semicolon then advance

/-- The integer of a literal, if it fits into 64 bits. -/
def integer (digits : String) : Parse Expr :=
  let value := digits.toList.foldl (fun n c => 10 * n + (c.toNat - '0'.toNat)) 0
  if value < 9223372036854775808 then return .int (Int64.ofNat value)
  else throw (.integerRange digits)

/-- Further parameters of a function up to the closing parenthesis, behind those in `read`, which
are listed in reverse. -/
def paramsRest : (fuel : Nat) → (read : List String) → Parse (List String)
  | 0, _ => throw .outOfFuel
  | fuel + 1, read => do
    if (← peek) = .comma then
      advance
      let name ← expectName
      paramsRest fuel (name :: read)
    else
      expect .rparen
      return read.reverse

/-- The parameters of a function, behind the opening parenthesis. -/
def params (fuel : Nat) : Parse (List String) := do
  if (← peek) = .rparen then
    advance
    return []
  else
    let name ← expectName
    paramsRest fuel [name]

/-- Whether a token can stand between two operands. -/
def isOperator : Token → Bool
  | .plus | .minus | .asterisk | .slash | .lt | .gt | .eq | .notEq => true
  | _ => false

mutual

/-- Reads the statement that starts at the current token, and stops at its last token. -/
def statement : (fuel : Nat) → Parse Stmt
  | 0 => throw .outOfFuel
  | fuel + 1 => do
    match ← current with
    | .letKw => do
      let name ← expectName
      expect .assign
      advance
      let value ← expression fuel .lowest
      skipSemicolon
      return .bind name value
    | .returnKw => do
      advance
      let value ← expression fuel .lowest
      skipSemicolon
      return .ret value
    | .forKw => forStatement fuel
    | .breakKw => do
      skipSemicolon
      return .breakLoop
    | .continueKw => do
      skipSemicolon
      return .continueLoop
    | .ident name => do
      if (← peek) = .assign then
        advance
        advance
        let value ← expression fuel .lowest
        skipSemicolon
        return .assign name value
      else
        expressionStatement fuel
    | _ => expressionStatement fuel

/-- Reads an expression used as a statement. -/
def expressionStatement : (fuel : Nat) → Parse Stmt
  | 0 => throw .outOfFuel
  | fuel + 1 => do
    let value ← expression fuel .lowest
    skipSemicolon
    return .expr value

/-- Reads a loop, from the keyword to the end of its body. The semicolon behind the first statement
of its head may have been taken by that statement. -/
def forStatement : (fuel : Nat) → Parse Stmt
  | 0 => throw .outOfFuel
  | fuel + 1 => do
    expect .lparen
    advance
    let init ← statement fuel
    -- if it has, the current token is the semicolon
    if (← current) ≠ .semicolon then expect .semicolon
    advance
    let test ← expression fuel .lowest
    expect .semicolon
    advance
    let post ← statement fuel
    expect .rparen
    expect .lbrace
    let body ← block fuel
    return .loop init test post body

/-- Reads the statements between the current opening brace and the closing one. -/
def block : (fuel : Nat) → Parse (List Stmt)
  | 0 => throw .outOfFuel
  | fuel + 1 => do
    advance
    blockRest fuel []

/-- Reads further statements up to a closing brace, behind those in `read`, which are listed in
reverse. -/
def blockRest : (fuel : Nat) → (read : List Stmt) → Parse (List Stmt)
  | 0, _ => throw .outOfFuel
  | fuel + 1, read => do
    match ← current with
    | .rbrace => return read.reverse
    | .eof => throw (.unexpected (.token .rbrace) .eof)
    | _ =>
      match ← attempt fuel with
      | some s => do
        advance
        blockRest fuel (s :: read)
      -- the rest of a statement that could not be read is read as statements of its own
      | none => do
        advance
        blockRest fuel read

/-- Reads a statement, or records the error that it fails with. -/
def attempt : (fuel : Nat) → Parse (Option Stmt)
  | 0 => throw .outOfFuel
  | fuel + 1 => fun s =>
    match statement fuel s with
    | .ok value s => .ok (some value) s
    | .error error s => .ok none { s with errors := error :: s.errors }

/-- Reads the expression that starts at the current token, as far as operators bind more tightly
than `precedence`, and stops at its last token. -/
def expression : (fuel : Nat) → (precedence : Precedence) → Parse Expr
  | 0, _ => throw .outOfFuel
  | fuel + 1, precedence => do
    let left ← operand fuel
    operators fuel precedence left

/-- Extends the expression `left`, which ends at the current token, by the operators behind it. -/
def operators : (fuel : Nat) → (precedence : Precedence) → (left : Expr) → Parse Expr
  | 0, _, _ => throw .outOfFuel
  | fuel + 1, precedence, left => do
    let token ← peek
    let tighter := (Precedence.ofToken token).rank
    -- an operator of the same rank is left to the caller, so operators group to the left
    if precedence.rank < tighter then
      advance
      match token with
      | .lparen => do
        let args ← expressionList fuel .rparen
        operators fuel precedence (.call left args)
      | .lbracket => do
        advance
        let subscript ← expression fuel .lowest
        expect .rbracket
        operators fuel precedence (.index left subscript)
      | _ => do
        advance
        -- the right operand ends before the next operator of this rank
        let right ← expression fuel (Precedence.ofToken token)
        operators fuel precedence (.infixOp left token right)
    else
      return left

/-- Reads an expression without operators behind it. -/
def operand : (fuel : Nat) → Parse Expr
  | 0 => throw .outOfFuel
  | fuel + 1 => do
    match ← current with
    | .ident name => return .ident name
    | .int digits => integer digits
    | .float digits => return .float (Decimal.read digits)
    | .str text => return .str text
    | .trueKw => return .bool true
    | .falseKw => return .bool false
    | .bang => do
      advance
      let right ← expression fuel .unary
      return .prefixOp .bang right
    | .minus => do
      advance
      let right ← expression fuel .unary
      return .prefixOp .minus right
    | .lparen => do
      advance
      let inner ← expression fuel .lowest
      expect .rparen
      return inner
    | .lbracket => do
      let elements ← expressionList fuel .rbracket
      return .array elements
    | .lbrace => do
      let pairs ← pairsRest fuel []
      return .hash pairs
    | .ifKw => condition fuel
    | .function => do
      expect .lparen
      let names ← params fuel
      expect .lbrace
      let body ← block fuel
      return .fn names body
    | got => throw (.noExpression got)

/-- Reads a condition from its keyword to the end of its last branch. -/
def condition : (fuel : Nat) → Parse Expr
  | 0 => throw .outOfFuel
  | fuel + 1 => do
    expect .lparen
    advance
    let test ← expression fuel .lowest
    expect .rparen
    expect .lbrace
    let yes ← block fuel
    if (← peek) = .elseKw then
      advance
      expect .lbrace
      let no ← block fuel
      return .cond test yes (some no)
    else
      return .cond test yes none

/-- Reads expressions with commas between them, behind the current token and up to `close`. -/
def expressionList : (fuel : Nat) → (close : Token) → Parse (List Expr)
  | 0, _ => throw .outOfFuel
  | fuel + 1, close => do
    if (← peek) = close then
      advance
      return []
    else
      advance
      let first ← expression fuel .lowest
      expressionListRest fuel close [first]

/-- Reads further expressions, behind those in `read`, which are listed in reverse. -/
def expressionListRest : (fuel : Nat) → (close : Token) → (read : List Expr) → Parse (List Expr)
  | 0, _, _ => throw .outOfFuel
  | fuel + 1, close, read => do
    if (← peek) = .comma then
      advance
      advance
      let e ← expression fuel .lowest
      expressionListRest fuel close (e :: read)
    else
      -- a comma before `close` is not allowed here, unlike in a hash
      expect close
      return read.reverse

/-- Reads further pairs of a hash literal up to the closing brace, behind those in `read`, which are
listed in reverse. A comma may stand before the closing brace. -/
def pairsRest : (fuel : Nat) → (read : List (Expr × Expr)) → Parse (List (Expr × Expr))
  | 0, _ => throw .outOfFuel
  | fuel + 1, read => do
    if (← peek) = .rbrace then
      advance
      return read.reverse
    else
      advance
      let key ← expression fuel .lowest
      expect .colon
      advance
      let value ← expression fuel .lowest
      if (← peek) ≠ .rbrace then expect .comma
      pairsRest fuel ((key, value) :: read)

end

/-- Reads statements up to the end of the text, behind those in `read`, which are listed in reverse;
`fuel` is for one statement. -/
def statements (fuel : Nat) : (tokens : Nat) → (read : List Stmt) → Parse (List Stmt)
  | 0, read => return read.reverse
  | tokens + 1, read => do
    match ← current with
    | .eof => return read.reverse
    | _ =>
      match ← attempt fuel with
      | some s => do
        advance
        statements fuel tokens (s :: read)
      | none => do
        advance
        statements fuel tokens read

end Parser

/-- Reads a list of tokens: the statements that could be read, and the errors in the order in which
they arose. -/
def Program.ofTokens (tokens : List Token) : Program × List ParseError :=
  match Parser.statements (8 * tokens.length + 16) tokens.length [] ⟨tokens, []⟩ with
  | .ok program state => (program, state.errors.reverse)
  | .error error state => ([], (error :: state.errors).reverse)

/-- Reads a source text. -/
def Program.parse (source : String) : Program × List ParseError :=
  Program.ofTokens (Token.scan source)

end Scriptlet
