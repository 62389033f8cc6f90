import Scriptlet.Ast
import Scriptlet.Decimal.Shortest

/-!
# Programs as text

`Expr.text` and `Stmt.text` write a tree with parentheses around every operator and every index, so
that the text needs no rules of precedence. Statements are joined by `"; "`. `Expr.literal` and
`Stmt.literal` give the spelling of the token that a tree is named for.
-/

namespace Scriptlet

/-- A string literal: quotes around the contents, with a backslash before the characters that need
one. -/
def quoted (s : String) : String :=
  s.foldl (fun text c => text ++ escape c) "\"" ++ "\""
where
  /-- The spelling of one character inside a string literal. -/
  escape (c : Char) : String :=
    match c with
    | '"' => "\\\""
    | '\\' => "\\\\"
    | '\n' => "\\n"
    | '\t' => "\\t"
    | '\r' => "\\r"
    | c => c.toString

mutual

/-- The text of an expression. -/
def Expr.text : Expr → String
  | .ident name => name
  | .int value => toString value.toInt
  | .float value => Decimal.literal value
  | .str value => quoted value
  | .bool value => if value then "true" else "false"
  | .array elements => "[" ++ Expr.listText elements ++ "]"
  | .hash pairs => "\x7b" ++ Expr.pairsText pairs ++ "\x7d"
  | .prefixOp op operand => "(" ++ op.text ++ operand.text ++ ")"
  | .infixOp left op right => "(" ++ left.text ++ " " ++ op.text ++ " " ++ right.text ++ ")"
  | .cond test yes no => "if (" ++ test.text ++ ") " ++ Stmt.blockText yes ++ Stmt.elseText no
  | .fn params body => "fn(" ++ ",".intercalate params ++ ") " ++ Stmt.blockText body
  | .call callee args => callee.text ++ "(" ++ Expr.listText args ++ ")"
  | .index left subscript => "(" ++ left.text ++ "[" ++ subscript.text ++ "])"

/-- The texts of expressions with commas between them. -/
def Expr.listText : List Expr → String
  | [] => ""
  | e :: rest => Expr.moreText e.text rest

/-- Appends a comma and the text of each expression. -/
def Expr.moreText (text : String) : List Expr → String
  | [] => text
  | e :: rest => Expr.moreText (text ++ ", " ++ e.text) rest

/-- The texts of the pairs of a hash with commas between them. -/
def Expr.pairsText : List (Expr × Expr) → String
  | [] => ""
  | (key, value) :: rest => Expr.morePairsText (key.text ++ ": " ++ value.text) rest

/-- Appends a comma and the text of each pair. -/
def Expr.morePairsText (text : String) : List (Expr × Expr) → String
  | [] => text
  | (key, value) :: rest =>
    Expr.morePairsText (text ++ ", " ++ (key.text ++ ": " ++ value.text)) rest

/-- The text of a statement. -/
def Stmt.text : Stmt → String
  | .bind name value => "let " ++ name ++ " = " ++ value.text
  | .assign name value => name ++ " = " ++ value.text
  | .ret value => "return " ++ value.text
  | .expr value => value.text
  | .block body => Stmt.blockText body
  | .loop init test post body =>
    "for (" ++ init.text ++ "; " ++ test.text ++ "; " ++ post.text ++ ") " ++ Stmt.blockText body
  | .breakLoop => "break"
  | .continueLoop => "continue"

/-- The texts of statements with semicolons between them. -/
def Stmt.listText : List Stmt → String
  | [] => ""
  | s :: rest => Stmt.moreText s.text rest

/-- Appends a semicolon and the text of each statement. -/
def Stmt.moreText (text : String) : List Stmt → String
  | [] => text
  | s :: rest => Stmt.moreText (text ++ "; " ++ s.text) rest

/-- The text of a block: its statements between braces. -/
def Stmt.blockText : List Stmt → String
  | [] => "\x7b \x7d"
  | s :: rest => "\x7b " ++ Stmt.moreText s.text rest ++ " \x7d"

/-- The text of the second branch of a condition, nothing if there is none. -/
def Stmt.elseText : Option (List Stmt) → String
  | none => ""
  | some body => " else " ++ Stmt.blockText body

end

/-- The text of a program. -/
def Program.text (program : Program) : String :=
  Stmt.listText program

/-- The spelling of the token that an expression is named for: its own for a leaf, the operator, the
opening bracket or the keyword otherwise. -/
def Expr.literal : Expr → String
  | .ident name => name
  | .int value => toString value.toInt
  | .float value => Decimal.literal value
  | .str value => value
  | .bool value => if value then "true" else "false"
  | .array _ | .index _ _ => "["
  | .hash _ => "\x7b"
  | .prefixOp op _ | .infixOp _ op _ => op.literal
  | .cond _ _ _ => "if"
  | .fn _ _ => "fn"
  | .call _ _ => "("

/-- The spelling of the token that a statement is named for. -/
def Stmt.literal : Stmt → String
  | .bind _ _ => "let"
  | .assign _ _ => "="
  | .ret _ => "return"
  | .expr value => value.literal
  | .block _ => "\x7b"
  | .loop _ _ _ _ => "for"
  | .breakLoop => "break"
  | .continueLoop => "continue"

/-- The spelling of the token that a program is named for, that of its first statement. -/
def Program.literal : Program → String
  | [] => ""
  | s :: _ => s.literal

end Scriptlet
