import Scriptlet.Proofs.Syntax.Reading

/-!
# Rendering a program and reading it back

The text of a program that has been read is read as the same program. It is not always read without
an error: the text has a semicolon behind every statement of a list but the last one, and a loop
does not take it. `Program.errors_rendered` says that there is one error for each such loop, and no
other.
-/

namespace Scriptlet

open Scriptlet.Parser

/-- The tokens of a readable program are read as the program, and every stray semicolon in them is
an error. -/
theorem Program.ofTokens_eq {program : Program} (h : Stmt.ReadableList program) :
    Program.ofTokens (Stmt.listTokens program)
      = (program, List.replicate (Stmt.listPartings program) (.noExpression .semicolon)) := by
  obtain ⟨n, -, hread⟩ := (repeats_statements
    (8 * (Stmt.listTokens program).length + 16)).read_eq (Stmt.ReadableList.parses h)
    (by omega) (Nat.le_refl _) [] [] rfl Token.noConfusion []
  generalize herrors : reported (Stmt.listPartings program) [] = errors at hread
  have hend : statements (8 * (Stmt.listTokens program).length + 16) n (program.reverse ++ [])
      ⟨[], errors⟩ = .ok program ⟨[], errors⟩ := by
    have hreverse : (program.reverse ++ []).reverse = program := by
      rw [List.append_nil, List.reverse_reverse]
    cases n with
    | zero => exact congrArg (EStateM.Result.ok · _) hreverse
    | succ n => exact congrArg (EStateM.Result.ok · _) hreverse
  rw [hend, List.append_nil] at hread
  rw [Program.ofTokens, hread, ← herrors, reported, List.append_nil]
  exact congrArg (Prod.mk program) List.reverse_replicate

/-- The tokens of a readable program are read as the program. -/
theorem Program.ofTokens_listTokens {program : Program} (h : Stmt.ReadableList program) :
    (Program.ofTokens (Stmt.listTokens program)).1 = program := by
  rw [ofTokens_eq h]

/-- A program that has been read from a text without floats is rendered as a text that reads as the
same program, whatever errors there were in the first text. -/
theorem Program.parse_rendered (source : String)
    (h : ∀ digits, Token.float digits ∉ Token.scan source) :
    (Program.parse (Program.parse source).1.text).1 = (Program.parse source).1 := by
  have hreadable : Stmt.ReadableList (Program.parse source).1 := readable_parse h
  show (Program.ofTokens (Token.scan _)).1 = _
  rw [scan_text hreadable, ofTokens_listTokens hreadable]

/-- The semicolon behind the loop is an error, in the source and in the text of the program. -/
theorem Program.parse_rendered_loop :
    (∀ digits, Token.float digits ∉ Token.scan "for (1; a; -a) { a = f(2) }; a")
      ∧ (Program.parse (Program.parse "for (1; a; -a) { a = f(2) }; a").1.text).1
        = (Program.parse "for (1; a; -a) { a = f(2) }; a").1 := by
  have htokens : Token.scan "for (1; a; -a) { a = f(2) }; a"
      = [.forKw, .lparen, .int "1", .semicolon, .ident "a", .semicolon, .minus, .ident "a", .rparen,
        .lbrace, .ident "a", .assign, .ident "f", .lparen, .int "2", .rparen, .rbrace, .semicolon,
        .ident "a"] := by
    decide +kernel
  have hplain : ∀ digits, Token.float digits ∉ Token.scan "for (1; a; -a) { a = f(2) }; a" := by
    intro digits
    rw [htokens]
    simp
  exact ⟨hplain, parse_rendered _ hplain⟩

/-- **The text of a program is read with an error for each loop in front of another statement**, and
with no other: behind such a loop stands the semicolon that parts the two, which no statement starts
with. Again this holds whatever errors there were in the first text. -/
theorem Program.errors_rendered (source : String)
    (h : ∀ digits, Token.float digits ∉ Token.scan source) :
    (Program.parse (Program.parse source).1.text).2
      = List.replicate (Stmt.listPartings (Program.parse source).1)
        (.noExpression .semicolon) := by
  have hreadable : Stmt.ReadableList (Program.parse source).1 := readable_parse h
  show (Program.ofTokens (Token.scan _)).2 = _
  rw [scan_text hreadable, ofTokens_eq hreadable]

/-- A loop in front of another one and a loop in front of a name, and a third one at the end of the
body of a function. -/
theorem Program.errors_rendered_loops :
    (∀ digits, Token.float digits ∉
        Token.scan "fn() { for (1; 2; 3) { } for (a; b; c) { } x; for (1; 2; 3) { } }")
      ∧ (Program.parse (Program.parse
          "fn() { for (1; 2; 3) { } for (a; b; c) { } x; for (1; 2; 3) { } }").1.text).2
        = [.noExpression .semicolon, .noExpression .semicolon] := by
  have hplain : ∀ digits, Token.float digits ∉
      Token.scan "fn() { for (1; 2; 3) { } for (a; b; c) { } x; for (1; 2; 3) { } }" := by
    have hall : (Token.scan "fn() { for (1; 2; 3) { } for (a; b; c) { } x; for (1; 2; 3) { } }").all
        (fun t => !(t matches .float _)) = true := by
      decide +kernel
    intro digits hmem
    have := List.all_eq_true.mp hall _ hmem
    cases this
  refine ⟨hplain, (errors_rendered _ hplain).trans ?_⟩
  decide +kernel

/-- A text that is read without an error may be rendered as one that is not. -/
theorem Program.rendered_stray_semicolon :
    (∀ digits, Token.float digits ∉ Token.scan "fn() { for (1; 2; 3) { } x }")
      ∧ (Program.parse "fn() { for (1; 2; 3) { } x }").2 = []
      ∧ (Program.parse (Program.parse "fn() { for (1; 2; 3) { } x }").1.text).2
        = [.noExpression .semicolon] := by
  refine ⟨fun digits hmem => ?_, by decide +kernel, by decide +kernel⟩
  have hall : (Token.scan "fn() { for (1; 2; 3) { } x }").all
      (fun t => !(t matches .float _)) = true := by
    decide +kernel
  have := List.all_eq_true.mp hall _ hmem
  cases this

end Scriptlet
