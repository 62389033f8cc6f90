import Scriptlet.Symbols
import Scriptlet.Ast

/-!
# Occurrences of names

The places of a text at which a variable is read or written, in the order in which the compiler
comes to them (`Expr.occurrences`). A function counts as one occurrence of its own: what stands in
its body belongs to other code. Whether a call of `quote` is one is only known from the symbols, so
it stays a call here.

`Expr.rebinds` asks for all functions inside as well: whether a name is bound, assigned or taken as
a parameter anywhere in a text.

The list has the order of the code and not that of the text: the operands of `<` are exchanged, and
the last part of the head of a loop comes behind its body. What reads and writes in the code can
therefore be put beside it, one after the other (`Proofs/Names/Labels.lean`).
-/

namespace Scriptlet

/-- **What a text does to a variable at one place**, or a function that is made there. -/
inductive Occurrence where
  | read (name : String)
  | write (name : String)
  | function (params : List String) (body : List Stmt)
  /-- A call of `quote`: its argument is data, unless the name is bound to something else. -/
  | quote (args : List Expr)

/-- Whether an expression is the name `quote`. -/
def Expr.isQuoteName : Expr → Bool
  | .ident name => name == "quote"
  | _ => false

mutual

/-- The occurrences in an expression. The operands of `<` are compiled in reverse. -/
def Expr.occurrences : Expr → List Occurrence
  | .ident name => [.read name]
  | .int _ | .float _ | .str _ | .bool _ => []
  | .array elements => Expr.occurrencesAll elements
  | .hash pairs => Expr.occurrencesPairs pairs
  | .prefixOp _ operand => operand.occurrences
  | .infixOp left op right =>
    if op = .lt then right.occurrences ++ left.occurrences
    else left.occurrences ++ right.occurrences
  | .cond test yes no =>
    test.occurrences ++ (Stmt.occurrencesAll yes ++ Stmt.occurrencesOption no)
  | .fn params body => [.function params body]
  | .call callee args =>
    if callee.isQuoteName then [.quote args]
    else callee.occurrences ++ Expr.occurrencesAll args
  | .index left subscript => left.occurrences ++ subscript.occurrences

/-- The occurrences in some expressions. -/
def Expr.occurrencesAll : List Expr → List Occurrence
  | [] => []
  | e :: rest => e.occurrences ++ Expr.occurrencesAll rest

/-- The occurrences in some pairs. -/
def Expr.occurrencesPairs : List (Expr × Expr) → List Occurrence
  | [] => []
  | (key, value) :: rest =>
    key.occurrences ++ (value.occurrences ++ Expr.occurrencesPairs rest)

/-- The occurrences in a statement. -/
def Stmt.occurrences : Stmt → List Occurrence
  | .bind name value | .assign name value => value.occurrences ++ [.write name]
  | .ret value | .expr value => value.occurrences
  | .block body => Stmt.occurrencesAll body
  | .loop init test post body =>
    init.occurrences ++ (test.occurrences ++ (Stmt.occurrencesAll body ++ post.occurrences))
  | .breakLoop | .continueLoop => []

/-- The occurrences in some statements. -/
def Stmt.occurrencesAll : List Stmt → List Occurrence
  | [] => []
  | s :: rest => s.occurrences ++ Stmt.occurrencesAll rest

/-- The occurrences in a branch that may be missing. -/
def Stmt.occurrencesOption : Option (List Stmt) → List Occurrence
  | none => []
  | some body => Stmt.occurrencesAll body

end

/-- **A function is made at one of the occurrences**, perhaps in the argument of a call of
`quote`. -/
inductive MakesFunction (params : List String) (body : List Stmt) : List Occurrence → Prop
  | here {rest : List Occurrence} : MakesFunction params body (.function params body :: rest)
  | later {occurrence : Occurrence} {rest : List Occurrence} :
    MakesFunction params body rest → MakesFunction params body (occurrence :: rest)
  | argument {args : List Expr} {rest : List Occurrence} :
    MakesFunction params body (Expr.occurrencesAll args) →
    MakesFunction params body (.quote args :: rest)

theorem MakesFunction.append_cases {params : List String} {body : List Stmt}
    {front rest : List Occurrence} (h : MakesFunction params body (front ++ rest)) :
    MakesFunction params body front ∨ MakesFunction params body rest := by
  induction front with
  | nil => exact .inr h
  | cons occurrence front ih =>
    cases h with
    | here => exact .inl .here
    | later h => exact (ih h).imp_left .later
    | argument h => exact .inl (.argument h)

mutual

/-- Whether a name is bound, assigned or taken as a parameter in an expression. -/
def Expr.rebinds (name : String) : Expr → Bool
  | .ident _ | .int _ | .float _ | .str _ | .bool _ => false
  | .array elements => Expr.rebindsAny name elements
  | .hash pairs => Expr.rebindsPairs name pairs
  | .prefixOp _ operand => operand.rebinds name
  | .infixOp left _ right => left.rebinds name || right.rebinds name
  | .cond test yes no => test.rebinds name || Stmt.rebindsAny name yes || Stmt.rebindsOption name no
  | .fn params body => params.contains name || Stmt.rebindsAny name body
  | .call callee args => callee.rebinds name || Expr.rebindsAny name args
  | .index left subscript => left.rebinds name || subscript.rebinds name

/-- Whether a name is bound in one of the expressions. -/
def Expr.rebindsAny (name : String) : List Expr → Bool
  | [] => false
  | e :: rest => e.rebinds name || Expr.rebindsAny name rest

/-- Whether a name is bound in one of the pairs. -/
def Expr.rebindsPairs (name : String) : List (Expr × Expr) → Bool
  | [] => false
  | (key, value) :: rest => key.rebinds name || value.rebinds name || Expr.rebindsPairs name rest

/-- Whether a name is bound in a statement. -/
def Stmt.rebinds (name : String) : Stmt → Bool
  | .bind other value | .assign other value => other == name || value.rebinds name
  | .ret value | .expr value => value.rebinds name
  | .block body => Stmt.rebindsAny name body
  | .loop init test post body =>
    init.rebinds name || test.rebinds name || post.rebinds name || Stmt.rebindsAny name body
  | .breakLoop | .continueLoop => false

/-- Whether a name is bound in one of the statements. -/
def Stmt.rebindsAny (name : String) : List Stmt → Bool
  | [] => false
  | s :: rest => s.rebinds name || Stmt.rebindsAny name rest

/-- Whether a name is bound in a branch that may be missing. -/
def Stmt.rebindsOption (name : String) : Option (List Stmt) → Bool
  | none => false
  | some body => Stmt.rebindsAny name body

end

/-- Whether a name is bound, assigned or taken as a parameter anywhere in a program. -/
def Program.rebinds (name : String) (program : Program) : Bool :=
  Stmt.rebindsAny name program

/-- Whether an occurrence gives a name another value or meaning. -/
def Occurrence.rebinds (name : String) : Occurrence → Bool
  | .read _ => false
  | .write other => other == name
  | .function params body => params.contains name || Stmt.rebindsAny name body
  | .quote args => Expr.rebindsAny name args

/-- No occurrence in a list rebinds a name. -/
def NoneRebinds (name : String) (occurrences : List Occurrence) : Prop :=
  ∀ occurrence ∈ occurrences, occurrence.rebinds name = false

section NoneRebinds

variable {name : String} {front rest : List Occurrence}

theorem noneRebinds_nil : NoneRebinds name [] :=
  fun _ h => absurd h List.not_mem_nil

theorem NoneRebinds.append (h : NoneRebinds name front) (h' : NoneRebinds name rest) :
    NoneRebinds name (front ++ rest) :=
  fun occurrence hmem => (List.mem_append.mp hmem).elim (h occurrence) (h' occurrence)

theorem noneRebinds_single {occurrence : Occurrence} (h : occurrence.rebinds name = false) :
    NoneRebinds name [occurrence] :=
  fun other hother => by rwa [List.mem_singleton.mp hother]

end NoneRebinds

mutual

/-- Where nothing rebinds a name, no occurrence does. -/
theorem Expr.noneRebinds (name : String) : (e : Expr) → e.rebinds name = false →
    NoneRebinds name e.occurrences
  | .ident _, _ => noneRebinds_single rfl
  | .int _, _ | .float _, _ | .str _, _ | .bool _, _ => noneRebinds_nil
  | .array elements, h => Expr.noneRebinds_all name elements h
  | .hash pairs, h => Expr.noneRebinds_pairs name pairs h
  | .prefixOp _ operand, h => Expr.noneRebinds name operand h
  | .infixOp left op right, h => by
    obtain ⟨hleft, hright⟩ := Bool.or_eq_false_iff.mp h
    rw [Expr.occurrences]
    split
    · exact (Expr.noneRebinds name right hright).append (Expr.noneRebinds name left hleft)
    · exact (Expr.noneRebinds name left hleft).append (Expr.noneRebinds name right hright)
  | .cond test yes no, h => by
    obtain ⟨h, hno⟩ := Bool.or_eq_false_iff.mp h
    obtain ⟨htest, hyes⟩ := Bool.or_eq_false_iff.mp h
    exact (Expr.noneRebinds name test htest).append
      ((Stmt.noneRebinds_all name yes hyes).append (Stmt.noneRebinds_option name no hno))
  | .fn params body, h => noneRebinds_single h
  | .call callee args, h => by
    obtain ⟨hcallee, hargs⟩ := Bool.or_eq_false_iff.mp h
    rw [Expr.occurrences]
    split
    · exact noneRebinds_single hargs
    · exact (Expr.noneRebinds name callee hcallee).append (Expr.noneRebinds_all name args hargs)
  | .index left subscript, h => by
    obtain ⟨hleft, hsubscript⟩ := Bool.or_eq_false_iff.mp h
    exact (Expr.noneRebinds name left hleft).append (Expr.noneRebinds name subscript hsubscript)

theorem Expr.noneRebinds_all (name : String) : (es : List Expr) → Expr.rebindsAny name es = false →
    NoneRebinds name (Expr.occurrencesAll es)
  | [], _ => noneRebinds_nil
  | e :: rest, h => by
    obtain ⟨he, hrest⟩ := Bool.or_eq_false_iff.mp h
    exact (Expr.noneRebinds name e he).append (Expr.noneRebinds_all name rest hrest)

theorem Expr.noneRebinds_pairs (name : String) : (pairs : List (Expr × Expr)) →
    Expr.rebindsPairs name pairs = false → NoneRebinds name (Expr.occurrencesPairs pairs)
  | [], _ => noneRebinds_nil
  | (key, value) :: rest, h => by
    obtain ⟨h, hrest⟩ := Bool.or_eq_false_iff.mp h
    obtain ⟨hkey, hvalue⟩ := Bool.or_eq_false_iff.mp h
    exact (Expr.noneRebinds name key hkey).append
      ((Expr.noneRebinds name value hvalue).append (Expr.noneRebinds_pairs name rest hrest))

theorem Stmt.noneRebinds (name : String) : (s : Stmt) → s.rebinds name = false →
    NoneRebinds name s.occurrences
  | .bind other value, h | .assign other value, h => by
    obtain ⟨hother, hvalue⟩ := Bool.or_eq_false_iff.mp h
    exact (Expr.noneRebinds name value hvalue).append (noneRebinds_single hother)
  | .ret value, h | .expr value, h => Expr.noneRebinds name value h
  | .block body, h => Stmt.noneRebinds_all name body h
  | .loop init test post body, h => by
    obtain ⟨h, hbody⟩ := Bool.or_eq_false_iff.mp h
    obtain ⟨h, hpost⟩ := Bool.or_eq_false_iff.mp h
    obtain ⟨hinit, htest⟩ := Bool.or_eq_false_iff.mp h
    exact (Stmt.noneRebinds name init hinit).append ((Expr.noneRebinds name test htest).append
      ((Stmt.noneRebinds_all name body hbody).append (Stmt.noneRebinds name post hpost)))
  | .breakLoop, _ | .continueLoop, _ => noneRebinds_nil

theorem Stmt.noneRebinds_all (name : String) : (body : List Stmt) →
    Stmt.rebindsAny name body = false → NoneRebinds name (Stmt.occurrencesAll body)
  | [], _ => noneRebinds_nil
  | s :: rest, h => by
    obtain ⟨hs, hrest⟩ := Bool.or_eq_false_iff.mp h
    exact (Stmt.noneRebinds name s hs).append (Stmt.noneRebinds_all name rest hrest)

theorem Stmt.noneRebinds_option (name : String) : (no : Option (List Stmt)) →
    Stmt.rebindsOption name no = false → NoneRebinds name (Stmt.occurrencesOption no)
  | none, _ => noneRebinds_nil
  | some body, h => Stmt.noneRebinds_all name body h

end

end Scriptlet
