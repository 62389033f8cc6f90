/-!
# Tokens

The words of the language: operators, delimiters, keywords, names and literals. `Token.text` is the
spelling used in messages, `Token.literal` the payload of the token, and `Token.ofWord` decides
whether a run of letters is a keyword or a name.
-/

namespace Scriptlet

/-- One word of a source text. `eof` marks the end of the text and is never followed by another
token. -/
inductive Token where
  | illegal (c : Char)
  | eof
  | ident (name : String)
  | int (digits : String)
  | float (digits : String)
  | str (text : String)
  | assign
  | plus
  | minus
  | bang
  | asterisk
  | slash
  | lt
  | gt
  | eq
  | notEq
  | comma
  | semicolon
  | colon
  | lparen
  | rparen
  | lbrace
  | rbrace
  | lbracket
  | rbracket
  | function
  | letKw
  | trueKw
  | falseKw
  | ifKw
  | elseKw
  | returnKw
  | forKw
  | breakKw
  | continueKw
deriving DecidableEq, Repr, Inhabited

namespace Token

/-- The spelling of a token in messages and in rendered programs; a string keeps its quotes, and
the end of the text is called `EOF`. -/
def text : Token → String
  | illegal c => c.toString
  | eof => "EOF"
  | ident name => name
  | int digits => digits
  | float digits => digits
  | str text => "\"" ++ text ++ "\""
  | assign => "="
  | plus => "+"
  | minus => "-"
  | bang => "!"
  | asterisk => "*"
  | slash => "/"
  | lt => "<"
  | gt => ">"
  | eq => "=="
  | notEq => "!="
  | comma => ","
  | semicolon => ";"
  | colon => ":"
  | lparen => "("
  | rparen => ")"
  | lbrace => "\x7b"
  | rbrace => "\x7d"
  | lbracket => "["
  | rbracket => "]"
  | function => "fn"
  | letKw => "let"
  | trueKw => "true"
  | falseKw => "false"
  | ifKw => "if"
  | elseKw => "else"
  | returnKw => "return"
  | forKw => "for"
  | breakKw => "break"
  | continueKw => "continue"

/-- The text a token stands for: the contents of a string, nothing at the end of the text, and the
spelling otherwise. -/
def literal : Token → String
  | str text => text
  | eof => ""
  | other => other.text

/-- The token of a run of letters: a keyword if it is one, a name otherwise. -/
def ofWord (word : String) : Token :=
  match word with
  | "let" => letKw
  | "fn" => function
  | "true" => trueKw
  | "false" => falseKw
  | "if" => ifKw
  | "else" => elseKw
  | "return" => returnKw
  | "for" => forKw
  | "break" => breakKw
  | "continue" => continueKw
  | _ => ident word

end Token

end Scriptlet
