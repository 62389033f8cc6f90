import Mathlib.Data.List.Forall2
import Scriptlet.Proofs.Symbols.Scopes

/-!
# Names resolve lexically

`Lexical tables scopes`: the tables of the compiler hold exactly the bindings of the scopes, and
whatever free symbols they hold besides are shortcuts to bindings further out, in functions that
have no binding of the name in between. Every step keeps this up (`Lexical.step`), so after any
sequence of steps a name resolves to the binding that a plain lookup in the scopes finds, and
resolving it, which leaves free symbols behind in the functions it passes, changes the meaning of no
name anywhere.

The difficulty is that a shortcut is not a binding. It sits at the level of a function, under the
name of something further out, and must not get in the way: a definition at that level has to cover
it, one in a block has to hide it, and one further out must not change what it stands for. The first
two are how tables work. The third holds because a captured name is a slot of a function around, and
a name can only be added further out at the top level, which no slot is hidden by
(`Lexical.lookup?_defineGlobal`).
-/

namespace Scriptlet

/-! ## What a symbol stands for

Bindings are read off the tables here, so that the two sides can be compared at all. -/

/-- **The place that a symbol of a function stands for.** A free symbol stands for whatever the
symbol it has captured stands for, one function further out. -/
def Symbol.binding? : Symbol → FunctionTable → List FunctionTable → Option Binding
  | ⟨_, .global, index⟩, _, _ => some ⟨0, .global, index⟩
  | ⟨_, .builtin, index⟩, _, _ => some ⟨0, .builtin, index⟩
  | ⟨_, .slot, index⟩, _, outer => some ⟨outer.length, .slot, index⟩
  | ⟨_, .free, _⟩, _, [] => none
  | ⟨_, .free, index⟩, table, next :: outer =>
    match table.captured[index]? with
    | some around => around.binding? next outer
    | none => none

/-- What a name stands for in the first of some tables, read off the tables as they are. Nothing is
captured, so this is how a name can be asked for without changing anything. -/
def Symbols.denoted? (name : String) : List FunctionTable → Option Binding
  | [] => none
  | table :: outer =>
    match table.lookup? name with
    | some symbol => symbol.binding? table outer
    | none => denoted? name outer

/-- A table as it is seen outside of its innermost blocks. -/
def FunctionTable.dropBlocks (count : Nat) : FunctionTable → FunctionTable
  | ⟨blocks, level, slots, captured⟩ => ⟨blocks.drop count, level, slots, captured⟩

/-- The tables as they are seen from a block: that of the function with so many others inside it,
and in it the one with so many blocks inside. -/
def Symbols.tablesAt (symbols : Symbols) (functions blocks : Nat) : List FunctionTable :=
  match symbols.tables.drop functions with
  | [] => []
  | table :: outer => table.dropBlocks blocks :: outer

section Binding

variable {symbol : Symbol} {table table' : FunctionTable} {outer outer' : List FunctionTable}

/-- **What a symbol stands for rests on the captured symbols only**, and these are never given
up. -/
theorem Symbol.binding?_extends {binding : Binding} (h : symbol.binding? table outer = some binding)
    (hext : table.Extends table') (houter : ExtendsAll outer outer') :
    symbol.binding? table' outer' = some binding := by
  induction houter generalizing symbol table table' with
  | nil =>
    obtain ⟨name, kind, index⟩ := symbol
    cases kind <;> exact h
  | @cons next next' rest rest' hnext hrest ih =>
    obtain ⟨name, kind, index⟩ := symbol
    cases kind with
    | global => exact h
    | builtin => exact h
    | slot =>
      rw [Symbol.binding?] at h ⊢
      rwa [List.length_cons, hrest.length_eq]
    | free =>
      rw [Symbol.binding?] at h ⊢
      cases hcaptured : table.captured[index]? with
      | none =>
        rw [hcaptured] at h
        cases h
      | some around =>
        rw [hcaptured] at h
        rw [hext.getElem?_captured hcaptured]
        exact ih h hnext

end Binding

/-! ## Tables that hold the scopes

The invariant, from the inside out: a symbol and its binding, a block and a scope, the table of a
function and its scopes, and all of them. -/

/-- The symbol of a function for one of its own names. -/
def Symbol.Owns (owner : Nat) (name : String) (symbol : Symbol) (binding : Binding) : Prop :=
  symbol = ⟨name, binding.kind, binding.index⟩ ∧ binding.owner = owner
    ∧ if owner = 0 then binding.kind = .global ∨ binding.kind = .builtin else binding.kind = .slot

/-- A block holds a symbol for each name of a scope, and no others. -/
def Block.Binds (owner : Nat) (block : Block) (scope : LexicalScope) : Prop :=
  ∀ name : String, Option.Rel (Symbol.Owns owner name) block[name]? (scope name)

/-- **A free symbol is a shortcut**: it stands for what its name means in the functions around,
where that is a slot. -/
def Symbol.Captures (name : String) (symbol : Symbol) (table : FunctionTable)
    (outer : List FunctionTable) (around : LexicalScopes) : Prop :=
  symbol.name = name ∧ symbol.kind = .free ∧ ∃ binding : Binding, binding.kind = .slot
    ∧ symbol.binding? table outer = some binding ∧ LexicalScopes.lookup? name around = some binding

/-- **The table of a function holds the scopes of the function.** Free symbols stand at its level
only, and only for names that the level does not have. -/
structure FunctionTable.Binds (table : FunctionTable) (outer : List FunctionTable)
    (function : FunctionScopes) (around : LexicalScopes) : Prop where
  taken : function.taken = table.slots
  blocks : List.Forall₂ (Block.Binds outer.length) table.blocks function.blocks
  level : ∀ name : String,
    Option.Rel (Symbol.Owns outer.length name) table.level[name]? (function.level name)
      ∨ function.level name = none ∧ ∃ symbol : Symbol,
        table.level[name]? = some symbol ∧ symbol.Captures name table outer around

/-- **The tables of some functions hold their scopes.** What a function has captured is compared
with the scopes around it. -/
inductive Lexical : List FunctionTable → LexicalScopes → Prop
  | nil : Lexical [] []
  | cons {table : FunctionTable} {outer : List FunctionTable} {function : FunctionScopes}
    {around : LexicalScopes} : table.Binds outer function around → Lexical outer around →
      Lexical (table :: outer) (function :: around)

section Binds

variable {table table' : FunctionTable} {outer outer' : List FunctionTable}
  {function : FunctionScopes} {around : LexicalScopes} {name : String}

theorem Lexical.length_eq {tables : List FunctionTable} {scopes : LexicalScopes}
    (h : Lexical tables scopes) : scopes.length = tables.length := by
  induction h with
  | nil => rfl
  | cons _ _ ih => rw [List.length_cons, List.length_cons, ih]

theorem Symbol.Owns.kind_ne_free {owner : Nat} {symbol : Symbol} {binding : Binding}
    (h : symbol.Owns owner name binding) : symbol.kind ≠ .free := by
  obtain ⟨rfl, -, hkind⟩ := h
  intro hfree
  have hfree : binding.kind = .free := hfree
  rw [hfree] at hkind
  split at hkind
  · revert hkind
    decide
  · cases hkind

theorem Symbol.Captures.extends {symbol : Symbol} (h : symbol.Captures name table outer around)
    (hext : table.Extends table') : symbol.Captures name table' outer around := by
  obtain ⟨hname, hfree, binding, hkind, hbinding, hlookup⟩ := h
  exact ⟨hname, hfree, binding, hkind, Symbol.binding?_extends hbinding hext (.refl outer), hlookup⟩

theorem Symbol.Owns.binding? {symbol : Symbol} {binding : Binding}
    (h : symbol.Owns outer.length name binding) :
    symbol.binding? table outer = some binding := by
  obtain ⟨rfl, howner, hkind⟩ := h
  obtain ⟨owner, kind, index⟩ := binding
  dsimp only at howner hkind
  subst howner
  split at hkind
  · rename_i hzero
    rcases hkind with rfl | rfl <;> rw [Symbol.binding?, hzero]
  · subst hkind
    rw [Symbol.binding?]

/-- The blocks of a function hold a symbol for a name exactly where they bind it. -/
theorem rel_findSome? {owner : Nat} {blocks : List Block} {scopes : List LexicalScope}
    (h : List.Forall₂ (Block.Binds owner) blocks scopes) (name : String) :
    Option.Rel (Symbol.Owns owner name) (blocks.findSome? fun block => block[name]?)
      (scopes.findSome? fun scope => scope name) := by
  induction h with
  | nil => exact .none
  | @cons block scope _ _ hblock _ ih =>
    have hname := hblock name
    rw [List.findSome?_cons, List.findSome?_cons]
    generalize block[name]? = found at hname ⊢
    generalize scope name = bound at hname ⊢
    cases hname with
    | some howns => exact .some howns
    | none => exact ih

/-- **What the table of a function knows of a name**: that the function binds it, that it has
captured it, or nothing. -/
theorem FunctionTable.Binds.lookup? (h : table.Binds outer function around) (name : String) :
    Option.Rel (Symbol.Owns outer.length name) (table.lookup? name) (function.lookup? name)
      ∨ function.lookup? name = none ∧ ∃ symbol : Symbol,
        table.lookup? name = some symbol ∧ symbol.Captures name table outer around := by
  have hblocks := rel_findSome? h.blocks name
  unfold FunctionTable.lookup? FunctionScopes.lookup?
  generalize table.blocks.findSome? (fun block => block[name]?) = found at hblocks ⊢
  generalize function.blocks.findSome? (fun scope => scope name) = bound at hblocks ⊢
  cases hblocks with
  | some howns => exact .inl (.some howns)
  | none => exact h.level name

/-- **Tables that hold the scopes say the same of every name.** A name that a function does not have
means what it means around the function, and a shortcut says just that. -/
theorem Lexical.denoted? {tables : List FunctionTable} {scopes : LexicalScopes}
    (h : Lexical tables scopes) (name : String) :
    Symbols.denoted? name tables = scopes.lookup? name := by
  induction h with
  | nil => rfl
  | @cons table outer function around hbinds _ ih =>
    rw [Symbols.denoted?, LexicalScopes.lookup?_cons]
    rcases hbinds.lookup? name with hrel | ⟨hnone, symbol, hfound, hcaptures⟩
    · generalize table.lookup? name = found at hrel ⊢
      generalize function.lookup? name = bound at hrel ⊢
      cases hrel with
      | some howns => exact howns.binding?
      | none => exact ih
    · obtain ⟨-, -, binding, -, hbinding, hlookup⟩ := hcaptures
      rw [hfound, hnone, Option.none_or, hlookup]
      exact hbinding

/-- The functions around may grow, as long as captured names keep their meaning. -/
theorem FunctionTable.Binds.widen {around' : LexicalScopes} (h : table.Binds outer function around)
    (houter : ExtendsAll outer outer')
    (haround : ∀ name binding, LexicalScopes.lookup? name around = some binding →
      binding.kind = .slot → LexicalScopes.lookup? name around' = some binding) :
    table.Binds outer' function around' := by
  refine ⟨h.taken, ?_, fun name => ?_⟩
  · rw [houter.length_eq]
    exact h.blocks
  · rw [houter.length_eq]
    apply (h.level name).imp_right
    rintro ⟨hnone, symbol, hfound, hname, hfree, binding, hkind, hbinding, hlookup⟩
    exact ⟨hnone, symbol, hfound, hname, hfree, binding, hkind,
      Symbol.binding?_extends hbinding (.refl table) houter, haround name binding hlookup hkind⟩

/-! ## Defining names

A definition binds a name in a block or at a level. Whatever it covers it also covers in the scopes,
and a shortcut is covered without a trace. -/

theorem getElem?_insert_other {block : Block} {other : String} (symbol : Symbol)
    (h : other ≠ name) : (block.insert name symbol)[other]? = block[other]? := by
  rw [Std.TreeMap.getElem?_insert, if_neg]
  intro hcompare
  exact h (Std.compare_eq_iff_eq.mp hcompare).symm

theorem Block.Binds.insert {owner : Nat} {block : Block} {scope : LexicalScope} {symbol : Symbol}
    {binding : Binding} (h : Block.Binds owner block scope)
    (howns : symbol.Owns owner name binding) :
    Block.Binds owner (block.insert name symbol) (scope.bind name binding) := by
  intro other
  by_cases hother : other = name
  · subst hother
    rw [Std.TreeMap.getElem?_insert_self, LexicalScope.bind_self]
    exact .some howns
  · rw [getElem?_insert_other symbol hother, LexicalScope.bind_other scope binding hother]
    exact h other

/-- **A name bound at the level of a function covers what has been captured for it**, and nothing
else. -/
theorem FunctionTable.Binds.insertLevel {symbol : Symbol} {binding : Binding}
    (h : table.Binds outer function around) (hext : table.Extends table')
    (hlevel : table'.level = table.level.insert name symbol)
    (howns : symbol.Owns outer.length name binding) (other : String) :
    Option.Rel (Symbol.Owns outer.length other) table'.level[other]?
        (function.level.bind name binding other)
      ∨ function.level.bind name binding other = none ∧ ∃ symbol : Symbol,
        table'.level[other]? = some symbol ∧ symbol.Captures other table' outer around := by
  by_cases hother : other = name
  · subst hother
    left
    rw [hlevel, Std.TreeMap.getElem?_insert_self, LexicalScope.bind_self]
    exact .some howns
  · rw [hlevel, getElem?_insert_other symbol hother, LexicalScope.bind_other _ binding hother]
    apply (h.level other).imp_right
    rintro ⟨hnone, free, hfound, hcaptures⟩
    exact ⟨hnone, free, hfound, hcaptures.extends hext⟩

/-- The next place of a function, with the symbol that the compiler makes for it. -/
theorem owns_next (outer : List FunctionTable) (name : String) (index : Nat) :
    Symbol.Owns outer.length name ⟨name, if outer.isEmpty then .global else .slot, index⟩
      ⟨outer.length, if outer.length = 0 then .global else .slot, index⟩ := by
  cases outer with
  | nil => exact ⟨rfl, rfl, .inl rfl⟩
  | cons next rest => exact ⟨rfl, rfl, rfl⟩

theorem FunctionTable.Binds.bindNew (h : table.Binds outer function around) (name : String) :
    (table.takeSlot.insert
        ⟨name, if outer.isEmpty then .global else .slot, table.slots⟩).Binds outer
      (function.bindNew name outer.length) around := by
  obtain ⟨hext, -, -⟩ := Symbols.extends_takeSlot_insert table
    ⟨name, if outer.isEmpty then .global else .slot, table.slots⟩
  have howns := owns_next outer name table.slots
  rw [← h.taken] at howns hext ⊢
  obtain ⟨blocks, level, slots, captured⟩ := table
  obtain ⟨scopes, own, taken⟩ := function
  obtain ⟨htaken, hblocks, hlevel⟩ := h
  cases hblocks with
  | nil =>
    refine ⟨congrArg Nat.succ htaken, .nil, fun other => ?_⟩
    exact FunctionTable.Binds.insertLevel ⟨htaken, .nil, hlevel⟩ hext rfl howns other
  | @cons block scope blocks scopes hblock hrest =>
    refine ⟨congrArg Nat.succ htaken, .cons (hblock.insert howns) hrest, fun other => ?_⟩
    apply (hlevel other).imp_right
    rintro ⟨hnone, free, hfound, hcaptures⟩
    exact ⟨hnone, free, hfound, hcaptures.extends hext⟩

/-- What the innermost block of a function itself has for a name. -/
theorem FunctionTable.Binds.innermost? (h : table.Binds outer function around) (name : String) :
    Option.Rel (Symbol.Owns outer.length name) (table.innermost? name) (function.innermost? name)
      ∨ function.innermost? name = none ∧ ∃ symbol : Symbol,
        table.innermost? name = some symbol ∧ symbol.Captures name table outer around := by
  obtain ⟨blocks, level, slots, captured⟩ := table
  obtain ⟨scopes, own, taken⟩ := function
  obtain ⟨-, hblocks, hlevel⟩ := h
  cases hblocks with
  | nil => exact hlevel name
  | cons hblock _ => exact .inl (hblock name)

/-- A captured name has been found in a function, so one is open around. -/
theorem Symbol.Captures.isEmpty {symbol : Symbol} (h : symbol.Captures name table outer around) :
    outer.isEmpty = false := by
  obtain ⟨symbolName, kind, index⟩ := symbol
  obtain ⟨-, rfl, binding, -, hbinding, -⟩ := h
  cases outer with
  | nil => cases hbinding
  | cons next rest => rfl

theorem Lexical.define {symbols : Symbols} (h : Lexical symbols.tables (function :: around))
    (name : String) : Lexical (symbols.define name).2.tables
      (function.define name around.length :: around) := by
  obtain ⟨table, outer, globals⟩ := symbols
  cases h with
  | cons hbinds hrest =>
    rw [hrest.length_eq]
    have hnew := hbinds.bindNew name
    unfold Symbols.define FunctionScopes.define
    dsimp only
    rcases hbinds.innermost? name with hrel | ⟨hnone, symbol, hfound, hcaptures⟩
    · generalize table.innermost? name = found at hrel ⊢
      generalize function.innermost? name = bound at hrel ⊢
      cases hrel with
      | none => exact .cons hnew hrest
      | @some symbol binding howns =>
        obtain ⟨rfl, -, hkind⟩ := howns
        obtain ⟨owner, kind, index⟩ := binding
        cases outer with
        | nil =>
          rcases hkind with hkind | hkind <;> obtain rfl : kind = _ := hkind
          · exact .cons hbinds hrest
          · exact .cons hnew hrest
        | cons next rest =>
          obtain rfl : kind = .slot := hkind
          exact .cons hbinds hrest
    · -- what has been captured is covered by a slot of the function itself
      obtain ⟨-, hfree, -⟩ := id hcaptures
      have hfilter : (some symbol).filter (fun symbol => decide (symbol.kind
          = if outer.isEmpty then .global else .slot)) = none := by
        rw [hcaptures.isEmpty, Option.filter_some, hfree]
        rfl
      rw [hfound, hnone, hfilter]
      exact .cons hnew hrest

theorem FunctionTable.Binds.defineGlobal (h : table.Binds [] function []) (name : String) :
    (table.takeSlot.insertLevel ⟨name, .global, table.slots⟩).Binds []
      (function.defineGlobal name) [] := by
  obtain ⟨blocks, level, slots, captured⟩ := table
  obtain ⟨scopes, own, taken⟩ := function
  obtain ⟨htaken, hblocks, hlevel⟩ := id h
  obtain rfl : taken = slots := htaken
  refine ⟨rfl, hblocks, fun other => ?_⟩
  have hext : FunctionTable.Extends ⟨blocks, level, taken, captured⟩
      ⟨blocks, level.insert name ⟨name, .global, taken⟩, taken + 1, captured⟩ :=
    ⟨Nat.le_succ _, List.prefix_refl _⟩
  have howns : Symbol.Owns 0 name ⟨name, .global, taken⟩ ⟨0, .global, taken⟩ :=
    ⟨rfl, rfl, .inl rfl⟩
  exact h.insertLevel hext rfl howns other

/-- The top level has no slots. -/
theorem FunctionTable.Binds.kind_ne_slot {binding : Binding} (h : table.Binds [] function [])
    (hlookup : function.lookup? name = some binding) : binding.kind ≠ .slot := by
  intro hslot
  rcases h.lookup? name with hrel | ⟨hnone, -⟩
  · rw [hlookup] at hrel
    generalize table.lookup? name = found at hrel
    cases hrel with
    | some howns =>
      obtain ⟨-, -, hkind⟩ := howns
      rw [List.length_nil, if_pos rfl, hslot] at hkind
      revert hkind
      decide
  · rw [hlookup] at hnone
    cases hnone

/-- **A name of the top level hides no slot of a function.** Shortcuts stand for slots, so they go
on to stand for what they did. -/
theorem Lexical.lookup?_defineGlobal {tables : List FunctionTable} {scopes : LexicalScopes}
    {binding : Binding} (h : Lexical tables scopes) (other : String)
    (hlookup : scopes.lookup? name = some binding) (hslot : binding.kind = .slot) :
    (scopes.defineGlobal other).lookup? name = some binding := by
  induction h with
  | nil => cases hlookup
  | @cons table outer function around hbinds hrest ih =>
    cases hrest with
    | nil =>
      rw [LexicalScopes.lookup?_cons, LexicalScopes.lookup?_nil, Option.or_none] at hlookup
      exact absurd hslot (hbinds.kind_ne_slot hlookup)
    | @cons next outer function' around' hbinds' hrest' =>
      rw [LexicalScopes.lookup?_cons] at hlookup
      rw [LexicalScopes.defineGlobal, LexicalScopes.lookup?_cons]
      cases hfound : function.lookup? name with
      | some found =>
        rw [hfound] at hlookup
        exact hlookup
      | none =>
        rw [hfound, Option.none_or] at hlookup
        rw [Option.none_or]
        exact ih hlookup

theorem Lexical.defineLast {tables : List FunctionTable} {scopes : LexicalScopes}
    (h : Lexical tables scopes) (name : String) :
    ∀ table outer, tables = table :: outer →
      Lexical ((Symbols.defineLast name table outer).2.1
        :: (Symbols.defineLast name table outer).2.2) (scopes.defineGlobal name) := by
  induction h with
  | nil => exact fun _ _ h => absurd h (by simp)
  | @cons table outer function around hbinds hrest ih =>
    rintro _ _ ⟨⟩
    cases hrest with
    | nil => exact .cons (hbinds.defineGlobal name) .nil
    | @cons next outer function' around' hbinds' hrest' =>
      have hlexical := ih next outer rfl
      have hevolves := Symbols.defineLast_evolves 0 name next outer
      refine .cons (hbinds.widen hevolves.extends_ fun other binding hlookup hslot => ?_) hlexical
      exact (Lexical.cons hbinds' hrest').lookup?_defineGlobal name hlookup hslot

theorem Lexical.defineGlobal {symbols : Symbols} {scopes : LexicalScopes}
    (h : Lexical symbols.tables scopes) (name : String) :
    Lexical (symbols.defineGlobal name).2.tables (scopes.defineGlobal name) :=
  h.defineLast name symbols.table symbols.outer rfl

/-! ## Resolving names

The recursion goes outwards until some function has the name, and each function on the way back
captures it. So the induction is on the functions around, and its step is one function that does not
have the name. -/

/-- **What a resolved name comes to**: a symbol that stands for the binding of the name, in tables
that hold the same scopes as before and in which the name is found again at once. -/
structure Resolves (name : String) (symbol : Symbol) (table : FunctionTable)
    (outer : List FunctionTable) (scopes : LexicalScopes) (binding : Binding) : Prop where
  lexical : Lexical (table :: outer) scopes
  lookup : scopes.lookup? name = some binding
  denotes : symbol.binding? table outer = some binding
  named : symbol.name = name
  captured : symbol.kind = .free → binding.kind = .slot
  again : Symbols.resolveIn name table outer = some (symbol, table, outer)

theorem Symbols.resolveIn_found {symbol : Symbol} (h : table.lookup? name = some symbol) :
    Symbols.resolveIn name table outer = some (symbol, table, outer) := by
  unfold Symbols.resolveIn
  rw [h]

/-- A symbol that a table has already. -/
theorem FunctionTable.Binds.resolves {symbol : Symbol} (h : table.Binds outer function around)
    (hrest : Lexical outer around) (hfound : table.lookup? name = some symbol) :
    ∃ binding, Resolves name symbol table outer (function :: around) binding := by
  have hlexical := Lexical.cons h hrest
  have hagain : Symbols.resolveIn name table outer = some (symbol, table, outer) :=
    Symbols.resolveIn_found hfound
  rcases h.lookup? name with hrel | ⟨hnone, free, hfree, hcaptures⟩
  · rw [hfound] at hrel
    generalize hbound : function.lookup? name = bound at hrel
    cases hrel with
    | @some _ binding howns =>
      refine ⟨binding, hlexical, ?_, howns.binding?, howns.1 ▸ rfl, fun hkind => ?_, hagain⟩
      · rw [LexicalScopes.lookup?_cons, hbound, Option.some_or]
      · exact absurd hkind howns.kind_ne_free
  · obtain rfl : symbol = free := Option.some.inj (hfound.symm.trans hfree)
    obtain ⟨hname, -, binding, hslot, hbinding, hlookup⟩ := hcaptures
    refine ⟨binding, hlexical, ?_, hbinding, hname, fun _ => hslot, hagain⟩
    rw [LexicalScopes.lookup?_cons, hnone, Option.none_or, hlookup]

/-- Where a function does not have a name, neither its blocks nor its level hold a symbol for it. -/
theorem FunctionTable.lookup?_eq_none (h : table.lookup? name = none) :
    (table.blocks.findSome? fun block => block[name]?) = none ∧ table.level[name]? = none := by
  unfold FunctionTable.lookup? at h
  rwa [Option.or_eq_none_iff] at h

/-- A name that a function captures is found in it from then on. -/
theorem FunctionTable.lookup?_capture {around : Symbol} (h : table.lookup? around.name = none) :
    (table.capture around).2.lookup? around.name = some (table.capture around).1 := by
  obtain ⟨hblocks, -⟩ := FunctionTable.lookup?_eq_none h
  obtain ⟨blocks, level, slots, captured⟩ := table
  unfold FunctionTable.lookup? FunctionTable.capture
  dsimp only at hblocks ⊢
  rw [hblocks, Option.none_or, Std.TreeMap.getElem?_insert_self]

/-- **Capturing a symbol of the function around** makes it known in the function, for a name that
the function does not have, and changes nothing else. -/
theorem FunctionTable.Binds.capture {symbol : Symbol} {binding : Binding} {next : FunctionTable}
    {rest : List FunctionTable} (h : table.Binds (next :: rest) function around)
    (hmissing : table.lookup? symbol.name = none)
    (hbinding : symbol.binding? next rest = some binding) (hslot : binding.kind = .slot)
    (hlookup : around.lookup? symbol.name = some binding) :
    (table.capture symbol).2.Binds (next :: rest) function around
      ∧ (table.capture symbol).1.binding? (table.capture symbol).2 (next :: rest)
        = some binding := by
  obtain ⟨-, hlevel⟩ := FunctionTable.lookup?_eq_none hmissing
  have hext := Symbols.extends_capture table symbol
  obtain ⟨blocks, level, slots, captured⟩ := table
  have hcaptured : (captured.push symbol)[captured.size]? = some symbol := by simp
  have hfree : Symbol.binding? ⟨symbol.name, .free, captured.size⟩
      ⟨blocks, level.insert symbol.name ⟨symbol.name, .free, captured.size⟩, slots,
        captured.push symbol⟩ (next :: rest) = some binding := by
    rw [Symbol.binding?]
    dsimp only
    rw [hcaptured]
    exact hbinding
  refine ⟨⟨h.taken, h.blocks, fun other => ?_⟩, hfree⟩
  by_cases hother : other = symbol.name
  · -- the level has no binding of the name, for it had no symbol for it
    subst hother
    right
    have hnone : function.level symbol.name = none := by
      rcases h.level symbol.name with hrel | ⟨hnone, -⟩
      · rw [hlevel] at hrel
        generalize function.level symbol.name = bound at hrel ⊢
        cases hrel
        rfl
      · exact hnone
    refine ⟨hnone, _, Std.TreeMap.getElem?_insert_self, rfl, rfl, binding, hslot, hfree, hlookup⟩
  · have hsame : (level.insert symbol.name ⟨symbol.name, .free, captured.size⟩)[other]?
        = level[other]? := getElem?_insert_other _ hother
    show Option.Rel _ (level.insert symbol.name _)[other]? _ ∨ _
    rw [hsame]
    apply (h.level other).imp_right
    rintro ⟨hnone, free, hfound, hcaptures⟩
    exact ⟨hnone, free, hsame.trans hfound, hcaptures.extends hext⟩

/-- A name found in the functions around is passed on as it is, unless its value is kept in one of
these functions. -/
theorem Symbols.resolveIn_around {symbol : Symbol} {next next' : FunctionTable}
    {rest rest' : List FunctionTable} (hmissing : table.lookup? name = none)
    (hnext : Symbols.resolveIn name next rest = some (symbol, next', rest')) :
    Symbols.resolveIn name table (next :: rest) = some (match symbol.kind with
      | .global | .builtin => (symbol, table, next' :: rest')
      | .slot | .free =>
        ((table.capture symbol).1, (table.capture symbol).2, next' :: rest')) := by
  rw [Symbols.resolveIn, hmissing]
  dsimp only
  rw [hnext]
  dsimp only
  cases symbol.kind <;> rfl

/-- A value that is kept in a function is kept in a slot. -/
theorem Resolves.slot {symbol : Symbol} {scopes : LexicalScopes} {binding : Binding}
    (h : Resolves name symbol table outer scopes binding)
    (hkind : symbol.kind = .slot ∨ symbol.kind = .free) : binding.kind = .slot := by
  rcases hkind with hkind | hkind
  · have hdenotes := h.denotes
    obtain ⟨symbolName, kind, index⟩ := symbol
    obtain rfl : kind = .slot := hkind
    rw [Symbol.binding?] at hdenotes
    obtain rfl := Option.some.inj hdenotes
    rfl
  · exact h.captured hkind

/-- **A name that a function does not have resolves to what it resolves to around the function.** By
the kind of what was found there: a slot or a free symbol is captured, a global or a built-in
function is passed on as it is. -/
theorem Resolves.outward {symbol : Symbol} {next next' : FunctionTable}
    {rest rest' : List FunctionTable} {binding : Binding}
    (h : table.Binds (next :: rest) function around)
    (hmissing : table.lookup? name = none) (hbound : function.lookup? name = none)
    (hnext : Symbols.resolveIn name next rest = some (symbol, next', rest'))
    (hresolves : Resolves name symbol next' rest' around binding) :
    ∃ found table',
      Symbols.resolveIn name table (next :: rest) = some (found, table', next' :: rest')
      ∧ Resolves name found table' (next' :: rest') (function :: around) binding := by
  have hevolves : Symbols.EvolvesAll 0 (next :: rest) (next' :: rest') :=
    (Symbols.resolveIn_evolves hnext).1
  have hext := hevolves.extends_
  have hkept := h.widen hext fun _ _ hlookup _ => hlookup
  have hlookup : LexicalScopes.lookup? name (function :: around) = some binding := by
    rw [LexicalScopes.lookup?_cons, hbound, Option.none_or, hresolves.lookup]
  -- a captured symbol is a new one here, which denotes what the one around denotes
  have hcaptured : symbol.kind = .slot ∨ symbol.kind = .free →
      Resolves name (table.capture symbol).1 (table.capture symbol).2 (next' :: rest')
        (function :: around) binding := by
    intro hkind
    obtain rfl := hresolves.named
    obtain ⟨hbinds, hdenotes⟩ :=
      hkept.capture hmissing hresolves.denotes (hresolves.slot hkind) hresolves.lookup
    exact ⟨.cons hbinds hresolves.lexical, hlookup, hdenotes, rfl, fun _ => hresolves.slot hkind,
      Symbols.resolveIn_found (FunctionTable.lookup?_capture hmissing)⟩
  -- a symbol that is passed on keeps its index, so it denotes the same in every function
  have hpassed : symbol.kind = .global ∨ symbol.kind = .builtin →
      Resolves name symbol table (next' :: rest') (function :: around) binding := by
    intro hkind
    refine ⟨.cons hkept hresolves.lexical, hlookup, ?_, hresolves.named, hresolves.captured, ?_⟩
    · have hdenotes := hresolves.denotes
      obtain ⟨symbolName, kind, index⟩ := symbol
      rcases hkind with hkind | hkind <;> obtain rfl : kind = _ := hkind
      · rwa [Symbol.binding?] at hdenotes ⊢
      · rwa [Symbol.binding?] at hdenotes ⊢
    · rw [Symbols.resolveIn_around hmissing hresolves.again]
      rcases hkind with hkind | hkind <;> rw [hkind]
  have hfound := Symbols.resolveIn_around hmissing hnext
  cases hkind : symbol.kind with
  | global => exact ⟨symbol, table, by rw [hfound, hkind], hpassed (.inl hkind)⟩
  | builtin => exact ⟨symbol, table, by rw [hfound, hkind], hpassed (.inr hkind)⟩
  | slot => exact ⟨_, _, by rw [hfound, hkind], hcaptured (.inl hkind)⟩
  | free => exact ⟨_, _, by rw [hfound, hkind], hcaptured (.inr hkind)⟩

/-- **A name is found exactly where the scopes bind it**, and then it resolves to the binding.
Induction on the functions around. -/
theorem Lexical.resolveIn {tables : List FunctionTable} {scopes : LexicalScopes}
    (h : Lexical tables scopes) (name : String) : ∀ table outer, tables = table :: outer →
      Symbols.resolveIn name table outer = none ∧ scopes.lookup? name = none
      ∨ ∃ symbol table' outer' binding,
        Symbols.resolveIn name table outer = some (symbol, table', outer')
          ∧ Resolves name symbol table' outer' scopes binding := by
  induction h with
  | nil => exact fun _ _ h => absurd h (by simp)
  | @cons table outer function around hbinds hrest ih =>
    rintro _ _ ⟨⟩
    cases hmissing : table.lookup? name with
    | some symbol =>
      right
      obtain ⟨binding, hresolves⟩ := hbinds.resolves hrest hmissing
      exact ⟨symbol, table, outer, binding, Symbols.resolveIn_found hmissing, hresolves⟩
    | none =>
      -- the function does not have the name, and neither do its scopes
      have hbound : function.lookup? name = none := by
        rcases hbinds.lookup? name with hrel | ⟨hnone, -⟩
        · rw [hmissing] at hrel
          generalize function.lookup? name = bound at hrel ⊢
          cases hrel
          rfl
        · exact hnone
      cases outer with
      | nil =>
        left
        cases hrest
        rw [Symbols.resolveIn, hmissing, LexicalScopes.lookup?_cons, hbound]
        exact ⟨rfl, rfl⟩
      | cons next rest =>
        rcases ih next rest rfl with
          ⟨hnone, hlookup⟩ | ⟨symbol, next', rest', binding, hnext, hresolves⟩
        -- not found further out either
        · left
          rw [Symbols.resolveIn, hmissing, LexicalScopes.lookup?_cons, hbound, Option.none_or,
            hlookup]
          dsimp only
          rw [hnone]
          exact ⟨rfl, rfl⟩
        · right
          -- found further out, and brought in
          obtain ⟨found, table', hfound, hresolves'⟩ :=
            Resolves.outward hbinds hmissing hbound hnext hresolves
          exact ⟨found, table', next' :: rest', binding, hfound, hresolves'⟩

end Binds

/-! ## Sequences of steps

One step on both sides at a time. -/

section Steps

variable {symbols : Symbols} {scopes : LexicalScopes}

/-- A name is either not bound, and then nothing changes, or it resolves to its binding. -/
theorem Lexical.resolve_cases (h : Lexical symbols.tables scopes) (name : String) :
    (symbols.resolve name = (none, symbols) ∧ scopes.lookup? name = none)
      ∨ ∃ symbol resolved binding, symbols.resolve name = (some symbol, resolved)
        ∧ Resolves name symbol resolved.table resolved.outer scopes binding := by
  obtain ⟨table, outer, globals⟩ := symbols
  unfold Symbols.resolve
  dsimp only
  rcases h.resolveIn name table outer rfl with
    ⟨hnone, hlookup⟩ | ⟨symbol, table', outer', binding, hfound, hresolves⟩
  · left
    rw [hnone]
    exact ⟨rfl, hlookup⟩
  · right
    rw [hfound]
    exact ⟨symbol, ⟨table', outer', globals⟩, binding, rfl, hresolves⟩

theorem Lexical.resolve (h : Lexical symbols.tables scopes) (name : String) :
    Lexical (symbols.resolve name).2.tables scopes := by
  rcases h.resolve_cases name with ⟨hnone, -⟩ | ⟨symbol, resolved, binding, hfound, hresolves⟩
  · rw [hnone]
    exact h
  · rw [hfound]
    exact hresolves.lexical

/-- A name that has been resolved is found again at once. -/
theorem Resolves.resolve {name : String} {symbol : Symbol} {binding : Binding}
    (h : Resolves name symbol symbols.table symbols.outer scopes binding) :
    symbols.resolve name = (some symbol, symbols) := by
  obtain ⟨table, outer, globals⟩ := symbols
  unfold Symbols.resolve
  dsimp only
  rw [h.again]

/-- Entering and leaving blocks keeps the bindings of the blocks that stay open. -/
theorem FunctionTable.Binds.withBlocks {table : FunctionTable} {outer : List FunctionTable}
    {function : FunctionScopes} {around : LexicalScopes} (h : table.Binds outer function around)
    {blocks : List Block} {inner : List LexicalScope}
    (hblocks : List.Forall₂ (Block.Binds outer.length) blocks inner) :
    FunctionTable.Binds ⟨blocks, table.level, table.slots, table.captured⟩ outer
      ⟨inner, function.level, function.taken⟩ around := by
  refine ⟨h.taken, hblocks, fun name => ?_⟩
  apply (h.level name).imp_right
  rintro ⟨hnone, symbol, hfound, hcaptures⟩
  exact ⟨hnone, symbol, hfound, hcaptures.extends ⟨Nat.le_refl _, List.prefix_refl _⟩⟩

theorem Block.Binds.empty (owner : Nat) : Block.Binds owner ∅ LexicalScope.empty := by
  intro name
  rw [Std.TreeMap.getElem?_emptyc]
  exact .none

theorem FunctionTable.Binds.empty (outer : List FunctionTable) (around : LexicalScopes) :
    FunctionTable.empty.Binds outer FunctionScopes.empty around :=
  ⟨rfl, .nil, fun name => .inl (Block.Binds.empty outer.length name)⟩

/-- **Every step does to the tables what it does to the scopes.** -/
theorem Lexical.step (h : Lexical symbols.tables scopes) (step : ScopeStep) :
    Lexical (symbols.step step).tables (scopes.step step) := by
  obtain ⟨table, outer, globals⟩ := symbols
  cases h with
  | @cons _ _ function around hbinds hrest =>
    have hlexical : Lexical (Symbols.mk table outer globals).tables (function :: around) :=
      .cons hbinds hrest
    cases step with
    | define name => exact hlexical.define name
    | defineGlobal name => exact hlexical.defineGlobal name
    | resolve name => exact hlexical.resolve name
    | enterBlock =>
      exact .cons (hbinds.withBlocks (.cons (Block.Binds.empty _) hbinds.blocks)) hrest
    | leaveBlock =>
      have hblocks := List.forall₂_drop 1 hbinds.blocks
      rw [List.drop_one, List.drop_one] at hblocks
      exact .cons (hbinds.withBlocks hblocks) hrest
    | enterFunction => exact .cons (.empty _ _) hlexical
    | leaveFunction =>
      cases hrest with
      | nil => exact hlexical
      | cons hbinds' hrest' => exact .cons hbinds' hrest'

/-- In an empty program the top level holds the built-in functions. -/
theorem lexical_ofBuiltins (names : List String) :
    Lexical (Symbols.ofBuiltins names).tables (.ofBuiltins names) := by
  rw [Symbols.ofBuiltins_eq, LexicalScopes.ofBuiltins]
  generalize names.zipIdx = pairs
  suffices h : ∀ (level : Block) (scope : LexicalScope) (globals : Array String),
      Block.Binds 0 level scope →
        ∃ level' globals', pairs.foldl (fun symbols pair => (symbols.defineBuiltin pair.2 pair.1).2)
            (Symbols.mk ⟨[], level, 0, #[]⟩ [] globals) = ⟨⟨[], level', 0, #[]⟩, [], globals'⟩
          ∧ Block.Binds 0 level'
            (pairs.foldl (fun scope pair => scope.bind pair.1 ⟨0, .builtin, pair.2⟩) scope) by
    obtain ⟨level, globals, hsymbols, hlevel⟩ := h ∅ .empty #[] (.empty 0)
    rw [Symbols.empty, FunctionTable.empty, hsymbols]
    exact .cons ⟨rfl, .nil, fun name => .inl (hlevel name)⟩ .nil
  induction pairs with
  | nil => exact fun level _ globals h => ⟨level, globals, rfl, h⟩
  | cons pair pairs ih =>
    intro level scope globals h
    exact ih _ _ _ (h.insert ⟨rfl, rfl, .inr rfl⟩)

/-- After any sequence of steps the tables hold the scopes. -/
theorem lexical_after (builtins : List String) (steps : List ScopeStep) :
    Lexical (Symbols.after builtins steps).tables (LexicalScopes.after builtins steps) := by
  unfold Symbols.after LexicalScopes.after
  have h := lexical_ofBuiltins builtins
  generalize Symbols.ofBuiltins builtins = symbols at h ⊢
  generalize LexicalScopes.ofBuiltins builtins = scopes at h ⊢
  induction steps generalizing symbols scopes with
  | nil => exact h
  | cons step steps ih => exact ih _ _ (h.step step)

/-! ## Views

A name means something else in another block. `tablesAt` and `seenFrom` close the same functions and
blocks on both sides, so what has been shown of the innermost block is true of all. -/

theorem Lexical.drop {tables : List FunctionTable} (h : Lexical tables scopes) (count : Nat) :
    Lexical (tables.drop count) (scopes.drop count) := by
  induction h generalizing count with
  | nil =>
    rw [List.drop_nil, List.drop_nil]
    exact .nil
  | cons hbinds hrest ih =>
    cases count with
    | zero => exact .cons hbinds hrest
    | succ count => exact ih count

/-- From wherever the tables are looked at, they hold the scopes that are seen from there. -/
theorem Lexical.tablesAt (h : Lexical symbols.tables scopes) (functions blocks : Nat) :
    Lexical (symbols.tablesAt functions blocks) (scopes.seenFrom functions blocks) := by
  have hdrop := h.drop functions
  unfold Symbols.tablesAt LexicalScopes.seenFrom
  generalize symbols.tables.drop functions = tables at hdrop ⊢
  generalize scopes.drop functions = scopes at hdrop ⊢
  cases hdrop with
  | nil => exact .nil
  | cons hbinds hrest =>
    exact .cons (hbinds.withBlocks (List.forall₂_drop blocks hbinds.blocks)) hrest

/-! ## Lexical scoping

What was to be shown, with the steps in front of a resolution and the resolution itself apart. -/

/-- **Names resolve lexically.** After any sequence of steps, a name is found exactly where a plain
lookup in the scopes finds a binding; the symbol stands for that binding, once the free symbols on
the way are followed outward; resolving the name again gives the same symbol and changes nothing;
and seen from any block of any function, every name stands for what it stood for before. -/
theorem Symbols.resolve_lexical (builtins : List String) (steps : List ScopeStep) (name : String) :
    let scopes := LexicalScopes.after builtins steps
    let symbols := Symbols.after builtins steps
    let found := (symbols.resolve name).1
    let resolved := (symbols.resolve name).2
    (found.isSome ↔ (scopes.lookup? name).isSome)
      ∧ (∀ symbol, found = some symbol →
        symbol.binding? resolved.table resolved.outer = scopes.lookup? name)
      ∧ resolved.resolve name = (found, resolved)
      ∧ ∀ functions blocks other, Symbols.denoted? other (resolved.tablesAt functions blocks)
        = Symbols.denoted? other (symbols.tablesAt functions blocks) := by
  intro scopes symbols found resolved
  have hlexical : Lexical symbols.tables scopes := lexical_after builtins steps
  -- before and after, what a name stands for is read off the same scopes
  have hdenoted : ∀ functions blocks other,
      Symbols.denoted? other (resolved.tablesAt functions blocks)
        = Symbols.denoted? other (symbols.tablesAt functions blocks) := by
    intro functions blocks other
    have hresolved : Lexical resolved.tables scopes := hlexical.resolve name
    rw [(hresolved.tablesAt functions blocks).denoted?,
      (hlexical.tablesAt functions blocks).denoted?]
  rcases hlexical.resolve_cases name with
    ⟨hnone, hlookup⟩ | ⟨symbol, symbols', binding, hfound, hresolves⟩
  · have hsame : resolved = symbols := congrArg Prod.snd hnone
    have hmissing : found = none := congrArg Prod.fst hnone
    rw [hsame] at hdenoted ⊢
    rw [hmissing, hlookup]
    exact ⟨Iff.rfl, fun _ h => absurd h (by simp), hnone, hdenoted⟩
  · have hsame : resolved = symbols' := congrArg Prod.snd hfound
    have hsymbol : found = some symbol := congrArg Prod.fst hfound
    rw [hsame] at hdenoted ⊢
    rw [hsymbol, hresolves.lookup]
    refine ⟨Iff.rfl, ?_, hresolves.resolve, hdenoted⟩
    rintro _ ⟨⟩
    exact hresolves.denotes

end Steps

end Scriptlet
