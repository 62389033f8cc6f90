import Std.Data.TreeMap

/-!
# Symbols

What the compiler knows about names. The table of a function holds the names of the function itself
and, above them, those of the blocks that are open inside it; behind it stand the tables of the
functions around, the top level last. Leaving a block forgets its names, but slots are never used
twice. A name of an enclosing function is captured by every function between its own and the one
that uses it: it becomes a free symbol of each, which remembers the symbol it stands for one level
further out.
-/

namespace Scriptlet

/-- Where the value of a name is kept. -/
inductive SymbolKind where
  | global
  | slot
  | builtin
  | free
deriving DecidableEq, Repr

/-- A name with the place of its value. -/
structure Symbol where
  name : String
  kind : SymbolKind
  index : Nat
deriving DecidableEq, Repr

/-- The names of one block. -/
abbrev Block := Std.TreeMap String Symbol

/-- The names of one function, or of the top level. -/
structure FunctionTable where
  /-- The blocks that are open inside the function, innermost first. -/
  blocks : List Block
  /-- The names of the function outside of all blocks. -/
  level : Block
  /-- The number of slots in use. -/
  slots : Nat
  /-- The symbols of the function around that are captured, in the order of their indices. -/
  captured : Array Symbol

namespace FunctionTable

/-- The table of a function without names. -/
def empty : FunctionTable :=
  ⟨[], ∅, 0, #[]⟩

/-- The symbol of a name in the innermost block that has it. -/
def lookup? (table : FunctionTable) (name : String) : Option Symbol :=
  (table.blocks.findSome? fun block => block[name]?).or table.level[name]?

/-- The symbol that the innermost block itself has for a name. -/
def innermost? (table : FunctionTable) (name : String) : Option Symbol :=
  match table.blocks with
  | [] => table.level[name]?
  | block :: _ => block[name]?

/-- Enters a symbol into the innermost block. -/
def insert (symbol : Symbol) : FunctionTable → FunctionTable
  | ⟨[], level, slots, captured⟩ => ⟨[], level.insert symbol.name symbol, slots, captured⟩
  | ⟨block :: blocks, level, slots, captured⟩ =>
    ⟨block.insert symbol.name symbol :: blocks, level, slots, captured⟩

/-- Enters a symbol outside of all blocks. -/
def insertLevel (symbol : Symbol) : FunctionTable → FunctionTable
  | ⟨blocks, level, slots, captured⟩ =>
    ⟨blocks, level.insert symbol.name symbol, slots, captured⟩

/-- Takes the next slot. -/
def takeSlot : FunctionTable → FunctionTable
  | ⟨blocks, level, slots, captured⟩ => ⟨blocks, level, slots + 1, captured⟩

/-- Captures a symbol of the function around: it becomes the next free symbol. -/
def capture (around : Symbol) : FunctionTable → Symbol × FunctionTable
  | ⟨blocks, level, slots, captured⟩ =>
    let symbol : Symbol := ⟨around.name, .free, captured.size⟩
    (symbol, ⟨blocks, level.insert symbol.name symbol, slots, captured.push around⟩)

end FunctionTable

/-- The tables of the function being compiled and of those around it. -/
structure Symbols where
  /-- The table of the innermost function. -/
  table : FunctionTable
  /-- The tables of the functions around, innermost first; the last is that of the top level. -/
  outer : List FunctionTable
  /-- The names that the global slots were taken for, in the order of the slots. -/
  globals : Array String

namespace Symbols

/-- The symbols of an empty program. -/
def empty : Symbols :=
  ⟨.empty, [], #[]⟩

/-- Makes a built-in function known at the level of the innermost function. -/
def defineBuiltin (index : Nat) (name : String) : Symbols → Symbol × Symbols
  | ⟨table, outer, globals⟩ =>
    let symbol : Symbol := ⟨name, .builtin, index⟩
    (symbol, ⟨table.insertLevel symbol, outer, globals⟩)

/-- The symbols of an empty program that sees a table of built-in functions. -/
def ofBuiltins (names : List String) : Symbols :=
  names.zipIdx.foldl (fun symbols (name, index) => (symbols.defineBuiltin index name).2) empty

/-- Whether no function is open. -/
def atTopLevel (symbols : Symbols) : Bool :=
  symbols.outer.isEmpty

/-- The number of slots in use in the innermost function. -/
def slots (symbols : Symbols) : Nat :=
  symbols.table.slots

/-- The symbols that the innermost function captures. -/
def captured (symbols : Symbols) : List Symbol :=
  symbols.table.captured.toList

/-- The names of the global slots as far as the innermost function owns them: all of them at the top
level, none inside of a function. -/
def ownGlobals (symbols : Symbols) : List String :=
  if symbols.atTopLevel then symbols.globals.toList else []

/-- Opens a block. -/
def enterBlock : Symbols → Symbols
  | ⟨⟨blocks, level, slots, captured⟩, outer, globals⟩ =>
    ⟨⟨∅ :: blocks, level, slots, captured⟩, outer, globals⟩

/-- Closes the innermost block, if one is open. -/
def leaveBlock : Symbols → Symbols
  | ⟨⟨blocks, level, slots, captured⟩, outer, globals⟩ =>
    ⟨⟨blocks.tail, level, slots, captured⟩, outer, globals⟩

/-- Opens a function. -/
def enterFunction : Symbols → Symbols
  | ⟨table, outer, globals⟩ => ⟨.empty, table :: outer, globals⟩

/-- Closes the innermost function, if one is open. -/
def leaveFunction? : Symbols → Option Symbols
  | ⟨_, [], _⟩ => none
  | ⟨_, table :: outer, globals⟩ => some ⟨table, outer, globals⟩

/-- Defines a name in the innermost block. A name that the block defines already keeps its slot, so
that functions which have captured it see the new value. -/
def define (name : String) : Symbols → Symbol × Symbols
  | ⟨table, outer, globals⟩ =>
    let kind : SymbolKind := if outer.isEmpty then .global else .slot
    -- a built-in function or a captured name is no definition of the block itself
    match (table.innermost? name).filter fun symbol => symbol.kind = kind with
    | some symbol => (symbol, ⟨table, outer, globals⟩)
    | none =>
      let symbol : Symbol := ⟨name, kind, table.slots⟩
      let globals := if outer.isEmpty then globals.push name else globals
      (symbol, ⟨table.takeSlot.insert symbol, outer, globals⟩)

/-- Takes the next slot of the last of the given tables for a name. -/
def defineLast (name : String) :
    FunctionTable → List FunctionTable → Symbol × FunctionTable × List FunctionTable
  | table, [] =>
    let symbol : Symbol := ⟨name, .global, table.slots⟩
    (symbol, table.takeSlot.insertLevel symbol, [])
  | table, next :: outer =>
    let (symbol, next, outer) := defineLast name next outer
    (symbol, table, next :: outer)

/-- Defines a name as a global, whatever function or block is open. -/
def defineGlobal (name : String) : Symbols → Symbol × Symbols
  | ⟨table, outer, globals⟩ =>
    let (symbol, table, outer) := defineLast name table outer
    (symbol, ⟨table, outer, globals.push name⟩)

/-- Finds a name in the first of the given tables or in those behind it, capturing it on the way if
its value is kept in a function. -/
def resolveIn (name : String) :
    FunctionTable → List FunctionTable → Option (Symbol × FunctionTable × List FunctionTable)
  | table, outer =>
    match table.lookup? name with
    | some symbol => some (symbol, table, outer)
    | none =>
      match outer with
      | [] => none
      | next :: outer =>
        match resolveIn name next outer with
        | none => none
        | some (symbol, next, outer) =>
          match symbol.kind with
          -- the same in all functions
          | .global | .builtin => some (symbol, table, next :: outer)
          | .slot | .free =>
            -- each function on the way captures what the one around it has found
            let (symbol, table) := table.capture symbol
            some (symbol, table, next :: outer)

/-- Finds a name: in the innermost block that has it, from the innermost function outward. -/
def resolve (name : String) : Symbols → Option Symbol × Symbols
  | ⟨table, outer, globals⟩ =>
    match resolveIn name table outer with
    | none => (none, ⟨table, outer, globals⟩)
    | some (symbol, table, outer) => (some symbol, ⟨table, outer, globals⟩)

end Symbols

end Scriptlet
