import Scriptlet.Proofs.Symbols.Bounds

/-!
# Lexical scopes

What names mean, said without symbols: every function is a stack of blocks above its own level, a
name is bound in one of them, and a use means the innermost binding around it. `LexicalScopes` knows
nothing of free symbols, and looking a name up changes nothing; that the tables of the compiler
agree with it is shown in `Scriptlet.Proofs.Symbols.Scoping`.

The operations are those of `Symbols`. `ScopeStep` lists them, so that one sequence of steps can be
run on both.

Two things that the tables do are visible here, and are part of what a name means: a name that is
defined again in its block keeps its place, and a name that is not known anywhere when it is
assigned becomes a global.
-/

namespace Scriptlet

/-! ## Bindings -/

/-- The place that a name stands for. It belongs to one function, from which the functions inside
it capture it. -/
structure Binding where
  /-- The number of functions around the function that owns the place: none for the top level. -/
  owner : Nat
  kind : SymbolKind
  index : Nat
deriving DecidableEq, Repr

/-- What the names of one block stand for. -/
abbrev LexicalScope := String → Option Binding

/-- The names of one function. -/
structure FunctionScopes where
  /-- The blocks that are open inside the function, innermost first. -/
  blocks : List LexicalScope
  /-- The names of the function outside of all blocks. -/
  level : LexicalScope
  /-- The number of places that the function owns. -/
  taken : Nat

/-- The functions that are open, innermost first; the last one is the top level. -/
abbrev LexicalScopes := List FunctionScopes

namespace LexicalScope

/-- The block without names. -/
def empty : LexicalScope := fun _ => none

/-- Binds a name, whatever it stood for before. -/
def bind (scope : LexicalScope) (name : String) (binding : Binding) : LexicalScope :=
  fun other => if other = name then some binding else scope other

@[simp] theorem bind_self (scope : LexicalScope) (name : String) (binding : Binding) :
    scope.bind name binding name = some binding :=
  if_pos rfl

theorem bind_other (scope : LexicalScope) {name other : String} (binding : Binding)
    (h : other ≠ name) : scope.bind name binding other = scope other :=
  if_neg h

end LexicalScope

namespace FunctionScopes

/-- A function without names. -/
def empty : FunctionScopes :=
  ⟨[], .empty, 0⟩

/-- The binding of a name in the innermost block that has one. -/
def lookup? (function : FunctionScopes) (name : String) : Option Binding :=
  (function.blocks.findSome? fun block => block name).or (function.level name)

/-- The binding of a name in the innermost block itself. -/
def innermost? (function : FunctionScopes) (name : String) : Option Binding :=
  match function.blocks with
  | [] => function.level name
  | block :: _ => block name

/-- Binds a name in the innermost block to the next place of the function. -/
def bindNew (name : String) (owner : Nat) : FunctionScopes → FunctionScopes
  | ⟨blocks, level, taken⟩ =>
    let binding : Binding := ⟨owner, if owner = 0 then .global else .slot, taken⟩
    match blocks with
    | [] => ⟨[], level.bind name binding, taken + 1⟩
    | block :: blocks => ⟨block.bind name binding :: blocks, level, taken + 1⟩

/-- Binds a name in the innermost block, unless the block has bound it already. A built-in function
is covered by a place of its own. -/
def define (name : String) (owner : Nat) (function : FunctionScopes) : FunctionScopes :=
  match function.innermost? name with
  | some ⟨_, .builtin, _⟩ | none => function.bindNew name owner
  | some _ => function

/-- Binds a name outside of all blocks to the next place of the top level. -/
def defineGlobal (name : String) : FunctionScopes → FunctionScopes
  | ⟨blocks, level, taken⟩ => ⟨blocks, level.bind name ⟨0, .global, taken⟩, taken + 1⟩

/-- The function as it is seen outside of its innermost blocks. -/
def dropBlocks (count : Nat) : FunctionScopes → FunctionScopes
  | ⟨blocks, level, taken⟩ => ⟨blocks.drop count, level, taken⟩

end FunctionScopes

namespace LexicalScopes

/-- The binding of a name: in the innermost block that has one, from the innermost function
outward. -/
def lookup? (name : String) (scopes : LexicalScopes) : Option Binding :=
  scopes.findSome? fun function => function.lookup? name

@[simp] theorem lookup?_nil (name : String) : lookup? name [] = none := rfl

theorem lookup?_cons (name : String) (function : FunctionScopes) (around : LexicalScopes) :
    lookup? name (function :: around) = (function.lookup? name).or (lookup? name around) := by
  unfold lookup?
  rw [List.findSome?_cons]
  cases function.lookup? name <;> rfl

/-- The scopes as they are seen from a block: that of the function with so many others inside it,
and in it the one with so many blocks inside. -/
def seenFrom (scopes : LexicalScopes) (functions blocks : Nat) : LexicalScopes :=
  match scopes.drop functions with
  | [] => []
  | function :: around => function.dropBlocks blocks :: around

/-- Binds a name in the top level, whatever function or block is open. -/
def defineGlobal (name : String) : LexicalScopes → LexicalScopes
  | [] => []
  | [top] => [top.defineGlobal name]
  | function :: next :: around => function :: defineGlobal name (next :: around)

/-- The scopes of an empty program that sees a table of built-in functions. -/
def ofBuiltins (names : List String) : LexicalScopes :=
  [⟨[], names.zipIdx.foldl (fun scope pair => scope.bind pair.1 ⟨0, .builtin, pair.2⟩) .empty, 0⟩]

end LexicalScopes

/-! ## Steps

The same steps on both sides. A step that has no meaning where it is taken, such as leaving a block
outside of all blocks, does nothing on either. -/

/-- **What the compiler does with names.** Every operation of `Symbols` that the compiler uses after
its tables have been set up is one of these. -/
inductive ScopeStep where
  | define (name : String)
  | defineGlobal (name : String)
  | resolve (name : String)
  | enterBlock
  | leaveBlock
  | enterFunction
  | leaveFunction
deriving DecidableEq, Repr

/-- The scopes after a step. Where no block or no function is open, none is left. -/
def LexicalScopes.step : ScopeStep → LexicalScopes → LexicalScopes
  | .define name, function :: around => function.define name around.length :: around
  | .defineGlobal name, scopes => scopes.defineGlobal name
  | .enterBlock, ⟨blocks, level, taken⟩ :: around => ⟨.empty :: blocks, level, taken⟩ :: around
  | .leaveBlock, ⟨blocks, level, taken⟩ :: around => ⟨blocks.tail, level, taken⟩ :: around
  | .enterFunction, scopes => .empty :: scopes
  | .leaveFunction, _ :: next :: around => next :: around
  | _, scopes => scopes

/-- The symbols after a step. -/
def Symbols.step : ScopeStep → Symbols → Symbols
  | .define name, symbols => (symbols.define name).2
  | .defineGlobal name, symbols => (symbols.defineGlobal name).2
  | .resolve name, symbols => (symbols.resolve name).2
  | .enterBlock, symbols => symbols.enterBlock
  | .leaveBlock, symbols => symbols.leaveBlock
  | .enterFunction, symbols => symbols.enterFunction
  | .leaveFunction, symbols => symbols.leaveFunction?.getD symbols

/-- The scopes after a sequence of steps, from those of an empty program. -/
def LexicalScopes.after (builtins : List String) (steps : List ScopeStep) : LexicalScopes :=
  steps.foldl (fun scopes step => scopes.step step) (.ofBuiltins builtins)

/-- The symbols after a sequence of steps, from those of an empty program. -/
def Symbols.after (builtins : List String) (steps : List ScopeStep) : Symbols :=
  steps.foldl (fun symbols step => symbols.step step) (.ofBuiltins builtins)

end Scriptlet
