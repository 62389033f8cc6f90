import Mathlib.Data.List.Forall2
import Scriptlet.Proofs.Symbols.Tables

/-!
# The slots that definitions take

A `Ledger` runs beside the symbols and writes down every definition: the function and the block that
it was made in, and the symbol that it got. It numbers all functions and blocks that were ever
opened, so that what it says of a function covers the blocks already left. After any sequence of
steps on the tables, a definition gets the symbol that its block holds already or the next slot of
its function, and no two entries of a function share a slot (`Ledger.allocated_after`).

The ledger is needed because the tables forget. When a block is left its symbols are gone, but its
slots stay taken; that a later block gets others can only be said with the earlier ones at hand. Its
`symbols` are those of the steps themselves (`Ledger.symbols_after`), and nothing in them depends on
what has been written down.
-/

namespace Scriptlet

/-! ## Ledgers

The numbers of functions and blocks come from one counter, so no two of them are the same, and the
top level has the number 0. -/

/-- A definition that has been made: the numbers of its function and its block, and its symbol. -/
structure Definition where
  function : Nat
  block : Nat
  symbol : Symbol
deriving DecidableEq, Repr

/-- The numbers of a function that is open and of the blocks open inside it, innermost first.
Outside of all blocks the function itself counts as one, with its own number. -/
structure OpenFunction where
  number : Nat
  blocks : List Nat
deriving DecidableEq, Repr

/-- The number of the innermost block. -/
def OpenFunction.innermost (function : OpenFunction) : Nat :=
  function.blocks.head?.getD function.number

/-- Symbols with the definitions that have led to them. -/
structure Ledger where
  symbols : Symbols
  /-- The innermost function. -/
  inner : OpenFunction
  /-- The functions around, innermost first. -/
  outer : List OpenFunction
  /-- The number of functions and blocks that have been opened. -/
  opened : Nat
  /-- The definitions so far, the last one first. -/
  definitions : List Definition

namespace Ledger

/-- The ledger of an empty program, in which the top level is open. -/
def empty : Ledger :=
  ⟨.empty, ⟨0, []⟩, [], 1, []⟩

/-- **Writes down what a step does, before it is taken.** A global is one of the top level, whatever
function is open. A definition that gets the symbol its block has already is the same entry
again. -/
def note : TableStep → Ledger → Ledger
  | .scope (.define name), ⟨symbols, inner, outer, opened, definitions⟩ =>
    ⟨symbols, inner, outer, opened,
      definitions.insert ⟨inner.number, inner.innermost, (symbols.define name).1⟩⟩
  | .scope (.defineGlobal name), ⟨symbols, inner, outer, opened, definitions⟩ =>
    ⟨symbols, inner, outer, opened,
      definitions.insert ⟨0, 0, (symbols.defineGlobal name).1⟩⟩
  | .scope .enterBlock, ⟨symbols, inner, outer, opened, definitions⟩ =>
    ⟨symbols, ⟨inner.number, opened :: inner.blocks⟩, outer, opened + 1, definitions⟩
  | .scope .leaveBlock, ⟨symbols, inner, outer, opened, definitions⟩ =>
    ⟨symbols, ⟨inner.number, inner.blocks.tail⟩, outer, opened, definitions⟩
  | .scope .enterFunction, ⟨symbols, inner, outer, opened, definitions⟩ =>
    ⟨symbols, ⟨opened, []⟩, inner :: outer, opened + 1, definitions⟩
  | .scope .leaveFunction, ⟨symbols, _, next :: outer, opened, definitions⟩ =>
    ⟨symbols, next, outer, opened, definitions⟩
  | .scope .leaveFunction, ⟨symbols, inner, [], opened, definitions⟩ =>
    ⟨symbols, inner, [], opened, definitions⟩
  | .scope (.resolve _), ledger | .defineBuiltin _ _, ledger => ledger

/-- The ledger after a step on the tables. -/
def step (step : TableStep) (ledger : Ledger) : Ledger :=
  { ledger.note step with symbols := ledger.symbols.tableStep step }

/-- The ledger after a sequence of steps, from that of an empty program. -/
def after (steps : List TableStep) : Ledger :=
  steps.foldl (fun ledger step => ledger.step step) empty

end Ledger

/-! ## Tables that are written down

What a function holds of its own has been written down under the number of its block, and its slots
cover all definitions made in it. -/

/-- The names of a block that stand for places of its own function come from definitions. -/
def Block.Written (definitions : List Definition) (function : Nat) (kind : SymbolKind)
    (number : Nat) (block : Block) : Prop :=
  ∀ (name : String) (symbol : Symbol), block[name]? = some symbol → symbol.kind = kind →
    ⟨function, number, symbol⟩ ∈ definitions

/-- All blocks of a function are written down, and the slots of its definitions are taken. -/
structure FunctionTable.Written (definitions : List Definition) (kind : SymbolKind)
    (function : OpenFunction) (table : FunctionTable) : Prop where
  below : ∀ definition ∈ definitions, definition.function = function.number →
    definition.symbol.index < table.slots
  blocks : List.Forall₂ (Block.Written definitions function.number kind) function.blocks
    table.blocks
  level : Block.Written definitions function.number kind function.number table.level

/-- **The tables of all functions that are open are written down.** The numbers of the functions
fall from the innermost to the top level, which has the number 0: so an entry belongs to at most one
of them. -/
inductive WrittenAll (definitions : List Definition) : List OpenFunction → List FunctionTable → Prop
  | top {function : OpenFunction} {table : FunctionTable} :
    function.number = 0 → table.Written definitions .global function →
    WrittenAll definitions [function] [table]
  | nested {function : OpenFunction} {around : List OpenFunction} {table : FunctionTable}
    {outer : List FunctionTable} :
    (∀ other ∈ around, other.number < function.number) →
    table.Written definitions .slot function → WrittenAll definitions around outer →
    WrittenAll definitions (function :: around) (table :: outer)

/-- The kind of the places that a function owns. -/
def ownKind (outer : List FunctionTable) : SymbolKind :=
  if outer.isEmpty then .global else .slot

section Written

variable {definitions : List Definition} {kind : SymbolKind} {function : OpenFunction}
  {table : FunctionTable}

theorem Block.Written.cons {function number : Nat} {block : Block} (definition : Definition)
    (h : Block.Written definitions function kind number block) :
    Block.Written (definition :: definitions) function kind number block :=
  fun name symbol hsymbol hkind => List.mem_cons_of_mem _ (h name symbol hsymbol hkind)

theorem Block.Written.empty (function number : Nat) :
    Block.Written definitions function kind number ∅ :=
  fun name symbol hsymbol => absurd hsymbol (by simp)

/-- A symbol may be entered into a block if it denotes no place of the function, or if its
definition is written down. -/
theorem Block.Written.insert {function number : Nat} {block : Block} {symbol : Symbol}
    (h : Block.Written definitions function kind number block)
    (hsymbol : symbol.kind = kind → ⟨function, number, symbol⟩ ∈ definitions) :
    Block.Written definitions function kind number (block.insert symbol.name symbol) := by
  intro name other hother hkind
  rcases Symbols.getElem?_insert_cases hother with ⟨-, rfl⟩ | hold
  · exact hsymbol hkind
  · exact h name other hold hkind

namespace FunctionTable.Written

/-- A definition of another function is no concern of the table. -/
theorem cons {definition : Definition} (h : table.Written definitions kind function)
    (hother : definition.function = function.number → definition.symbol.index < table.slots) :
    table.Written (definition :: definitions) kind function where
  below other hmem := by
    rcases List.mem_cons.mp hmem with rfl | hmem
    · exact hother
    · exact h.below other hmem
  blocks := h.blocks.imp fun _ _ hblock => hblock.cons definition
  level := h.level.cons definition

/-- The next slot is taken for a definition in the innermost block. -/
theorem insert (h : table.Written definitions kind function) (name : String) :
    (table.takeSlot.insert ⟨name, kind, table.slots⟩).Written
      (⟨function.number, function.innermost, ⟨name, kind, table.slots⟩⟩ :: definitions) kind
      function := by
  obtain ⟨number, numbers⟩ := function
  obtain ⟨blocks, level, slots, captured⟩ := table
  obtain ⟨hbelow, hblocks, hlevel⟩ := h
  have hbelow' : ∀ definition ∈ (⟨number, OpenFunction.innermost ⟨number, numbers⟩,
      ⟨name, kind, slots⟩⟩ :: definitions : List Definition), definition.function = number →
      definition.symbol.index < slots + 1 := by
    intro definition hmem hfunction
    rcases List.mem_cons.mp hmem with rfl | hmem
    · exact Nat.lt_succ_self slots
    · exact Nat.lt_succ_of_lt (hbelow definition hmem hfunction)
  cases hblocks with
  | nil => exact ⟨hbelow', .nil, (hlevel.cons _).insert fun _ => List.mem_cons_self⟩
  | cons hblock hrest =>
    exact ⟨hbelow', .cons ((hblock.cons _).insert fun _ => List.mem_cons_self)
      (hrest.imp fun _ _ h => h.cons _), hlevel.cons _⟩

/-- The next slot is taken for a definition outside of all blocks. -/
theorem insertLevel (h : table.Written definitions kind function) (name : String) :
    (table.takeSlot.insertLevel ⟨name, kind, table.slots⟩).Written
      (⟨function.number, function.number, ⟨name, kind, table.slots⟩⟩ :: definitions) kind
      function where
  below definition hmem hfunction := by
    rcases List.mem_cons.mp hmem with rfl | hmem
    · exact Nat.lt_succ_self table.slots
    · exact Nat.lt_succ_of_lt (h.below definition hmem hfunction)
  blocks := h.blocks.imp fun _ _ hblock => hblock.cons _
  level := (h.level.cons _).insert fun _ => List.mem_cons_self

/-- A symbol of another kind may be entered, and anything captured. -/
theorem enter (h : table.Written definitions kind function) (symbol : Symbol)
    (hkind : symbol.kind ≠ kind) (captured : Array Symbol) :
    (FunctionTable.mk table.blocks (table.level.insert symbol.name symbol) table.slots
      captured).Written definitions kind function :=
  ⟨h.below, h.blocks, h.level.insert fun hsame => absurd hsame hkind⟩

/-- What the innermost block holds of the function's own is written down. -/
theorem of_innermost {name : String} {symbol : Symbol}
    (h : table.Written definitions kind function) (hsymbol : table.innermost? name = some symbol)
    (hkind : symbol.kind = kind) :
    ⟨function.number, function.innermost, symbol⟩ ∈ definitions := by
  obtain ⟨number, numbers⟩ := function
  obtain ⟨blocks, level, slots, captured⟩ := table
  obtain ⟨-, hblocks, hlevel⟩ := h
  cases hblocks with
  | nil => exact hlevel name symbol hsymbol hkind
  | cons hblock hrest => exact hblock name symbol hsymbol hkind

end FunctionTable.Written

end Written

namespace WrittenAll

variable {definitions : List Definition} {function : OpenFunction} {around : List OpenFunction}
  {table : FunctionTable} {outer : List FunctionTable}

theorem inner (h : WrittenAll definitions (function :: around) (table :: outer)) :
    table.Written definitions (ownKind outer) function := by
  cases h with
  | top _ htable => exact htable
  | nested _ htable hrest => cases hrest <;> exact htable

/-- The top level is the function with the number 0. -/
theorem number_eq_zero_iff (h : WrittenAll definitions (function :: around) (table :: outer)) :
    function.number = 0 ↔ outer = [] := by
  cases h with
  | top hzero _ => exact ⟨fun _ => rfl, fun _ => hzero⟩
  | nested hbelow _ hrest =>
    cases hrest <;>
      exact ⟨fun hzero => absurd hzero (Nat.ne_zero_of_lt (hbelow _ List.mem_cons_self)), nofun⟩

theorem ownKind_eq (h : WrittenAll definitions (function :: around) (table :: outer)) :
    ownKind outer = if function.number = 0 then .global else .slot := by
  simp only [ownKind, List.isEmpty_iff, h.number_eq_zero_iff]

theorem number_lt {opened : Nat} {tables : List FunctionTable}
    (h : WrittenAll definitions (function :: around) tables) (hopened : function.number < opened) :
    ∀ other ∈ function :: around, other.number < opened := by
  refine List.forall_mem_cons.mpr ⟨hopened, fun other hother => ?_⟩
  cases h with
  | top => cases hother
  | nested hbelow _ _ => exact Nat.lt_trans (hbelow other hother) hopened

/-- The slots of the top level cover its definitions. -/
theorem below_topSlots {functions : List OpenFunction} {tables : List FunctionTable}
    (h : WrittenAll definitions functions tables) :
    ∀ definition ∈ definitions, definition.function = 0 →
      definition.symbol.index < topSlots tables := by
  induction h with
  | top hzero hwritten =>
    intro definition hmem hfunction
    exact hwritten.below definition hmem (hfunction.trans hzero.symm)
  | nested _ _ hrest ih => cases hrest <;> exact ih

/-- Nothing but the innermost table changes. -/
theorem replace {function' : OpenFunction} {table' : FunctionTable}
    (h : WrittenAll definitions (function :: around) (table :: outer))
    (hnumber : function'.number = function.number)
    (htable : table.Written definitions (ownKind outer) function →
      table'.Written definitions (ownKind outer) function') :
    WrittenAll definitions (function' :: around) (table' :: outer) := by
  cases h with
  | top hzero hwritten => exact .top (hnumber.trans hzero) (htable hwritten)
  | nested hbelow hwritten hrest =>
    refine .nested (by rwa [hnumber]) ?_ hrest
    cases hrest <;> exact htable hwritten

/-- A definition of a function that is not open any more, or of one further in. -/
theorem cons {definition : Definition} {functions : List OpenFunction}
    {tables : List FunctionTable} (h : WrittenAll definitions functions tables)
    (hother : ∀ function ∈ functions, definition.function ≠ function.number) :
    WrittenAll (definition :: definitions) functions tables := by
  induction h with
  | top hzero hwritten =>
    exact .top hzero (hwritten.cons fun hsame => absurd hsame (hother _ List.mem_cons_self))
  | nested hbelow hwritten _ ih =>
    obtain ⟨hinner, hrest⟩ := List.forall_mem_cons.mp hother
    exact .nested hbelow (hwritten.cons fun hsame => absurd hsame hinner) (ih hrest)

/-- A definition in the innermost function takes its next slot. -/
theorem define (h : WrittenAll definitions (function :: around) (table :: outer))
    (name : String) :
    WrittenAll (⟨function.number, function.innermost, ⟨name, ownKind outer, table.slots⟩⟩
        :: definitions) (function :: around)
      (table.takeSlot.insert ⟨name, ownKind outer, table.slots⟩ :: outer) := by
  have hwritten := h.inner.insert name
  cases h with
  | top hzero _ => exact .top hzero hwritten
  | nested hbelow _ hrest =>
    refine .nested hbelow ?_ (hrest.cons fun other hother => ?_)
    · cases hrest <;> exact hwritten
    · exact Nat.ne_of_gt (hbelow other hother)

/-- A global takes the next slot of the top level. -/
theorem defineLast (h : WrittenAll definitions (function :: around) (table :: outer))
    (name : String) :
    WrittenAll (⟨0, 0, ⟨name, .global, topSlots (table :: outer)⟩⟩ :: definitions)
      (function :: around)
      ((Symbols.defineLast name table outer).2.1 :: (Symbols.defineLast name table outer).2.2) := by
  induction outer generalizing function around table with
  | nil =>
    cases h with
    | top hzero hwritten =>
      refine .top hzero ?_
      have hinsert := hwritten.insertLevel name
      rwa [hzero] at hinsert
    | nested _ _ hrest => cases hrest
  | cons next outer ih =>
    cases h with
    | nested hbelow hwritten hrest =>
      cases around with
      | nil => cases hrest
      | cons other around =>
        have hpositive := hbelow other List.mem_cons_self
        refine .nested hbelow (hwritten.cons fun hzero => ?_) (ih hrest)
        exact absurd hzero.symm (Nat.ne_zero_of_lt hpositive)

/-- **Free symbols are no places of the functions that know them**, so resolving a name leaves
nothing to be written down. -/
theorem resolveIn {name : String} {table' : FunctionTable} {outer' : List FunctionTable}
    {symbol : Symbol} (h : WrittenAll definitions (function :: around) (table :: outer))
    (hfound : Symbols.resolveIn name table outer = some (symbol, table', outer')) :
    WrittenAll definitions (function :: around) (table' :: outer') := by
  induction outer generalizing function around table table' outer' symbol with
  | nil =>
    rw [Symbols.resolveIn] at hfound
    split at hfound
    · cases hfound
      exact h
    · cases hfound
  | cons next outer ih =>
    rw [Symbols.resolveIn] at hfound
    split at hfound
    · cases hfound
      exact h
    · simp only at hfound
      split at hfound
      · cases hfound
      · rename_i reached next' outer'' hnext
        cases h with
        | nested hbelow hwritten hrest =>
          obtain _ | ⟨other, around⟩ := around
          · cases hrest
          have hrest' := ih hrest hnext
          split at hfound
          · cases hfound
            -- what is captured here becomes a free symbol, which takes no slot
            exact .nested hbelow hwritten hrest'
          · cases hfound
            exact .nested hbelow hwritten hrest'
          all_goals
            cases hfound
            exact .nested hbelow
              (hwritten.enter ⟨reached.name, .free, table.captured.size⟩ SymbolKind.noConfusion _)
              hrest'

end WrittenAll

/-! ## Ledgers in order

The invariant of a ledger, kept by every step (`InOrder.step`). -/

/-- **A ledger is in order**: the tables are written down, all numbers have been given out, an entry
is known by its function and its slot, and the global slots are those of the entries of the top
level. -/
structure Ledger.InOrder (ledger : Ledger) : Prop where
  regular : ledger.symbols.Regular
  written : WrittenAll ledger.definitions (ledger.inner :: ledger.outer) ledger.symbols.tables
  numbered : ledger.inner.number < ledger.opened
  entered : ∀ definition ∈ ledger.definitions, definition.function < ledger.opened
  unshared : ∀ first ∈ ledger.definitions, ∀ second ∈ ledger.definitions,
    first.function = second.function → first.symbol.index = second.symbol.index → first = second
  kinds : ∀ definition ∈ ledger.definitions,
    definition.symbol.kind = if definition.function = 0 then .global else .slot
  globals : ∀ index name, ledger.symbols.globals[index]? = some name ↔
    ∃ definition ∈ ledger.definitions, definition.function = 0
      ∧ definition.symbol.index = index ∧ definition.symbol.name = name

/-- **A definition gets the symbol that the innermost block holds, or the next slot.** -/
theorem Symbols.define_cases (symbols : Symbols) (name : String) :
    (symbols.table.innermost? name = some (symbols.define name).1
        ∧ (symbols.define name).1.kind = ownKind symbols.outer ∧ (symbols.define name).2 = symbols)
      ∨ symbols.define name = (⟨name, ownKind symbols.outer, symbols.slots⟩,
        ⟨symbols.table.takeSlot.insert ⟨name, ownKind symbols.outer, symbols.slots⟩,
          symbols.outer, if symbols.outer.isEmpty then symbols.globals.push name
            else symbols.globals⟩) := by
  obtain ⟨table, outer, globals⟩ := symbols
  unfold define
  simp only
  split
  · rename_i symbol hsymbol
    obtain ⟨hheld, hkind⟩ := Option.filter_eq_some_iff.mp hsymbol
    exact .inl ⟨hheld, of_decide_eq_true hkind, rfl⟩
  · exact .inr rfl

/-- A global takes the next slot of the top level. -/
theorem Symbols.defineGlobal_symbol (symbols : Symbols) (name : String) :
    (symbols.defineGlobal name).1 = ⟨name, .global, topSlots symbols.tables⟩ := by
  obtain ⟨table, outer, globals⟩ := symbols
  show (Symbols.defineLast name table outer).1 = ⟨name, .global, topSlots (table :: outer)⟩
  induction outer generalizing table with
  | nil => rfl
  | cons next outer ih => exact ih next

/-- The next global slot has the name it is taken for. -/
theorem Symbols.getElem?_globals_push (globals : Array String) (index : Nat) (name other : String) :
    (globals.push name)[index]? = some other ↔
      globals.size = index ∧ name = other ∨ globals[index]? = some other := by
  rw [Array.getElem?_push]
  split
  · rename_i hindex
    subst hindex
    simp
  · rename_i hindex
    simp [Ne.symm hindex]

namespace Ledger.InOrder

variable {ledger : Ledger}

/-- **A definition with a slot of its own is entered.** Its slot lies above those of all other
definitions of its function, which is why it shares none. -/
theorem enter {symbols : Symbols} {definition : Definition} (h : ledger.InOrder)
    (hregular : symbols.Regular)
    (hwritten : WrittenAll (definition :: ledger.definitions) (ledger.inner :: ledger.outer)
      symbols.tables)
    (hfunction : definition.function < ledger.opened)
    (hfresh : ∀ other ∈ ledger.definitions, other.function = definition.function →
      other.symbol.index < definition.symbol.index)
    (hkind : definition.symbol.kind = if definition.function = 0 then .global else .slot)
    (hglobals : ∀ index name, symbols.globals[index]? = some name ↔
      (definition.function = 0 ∧ definition.symbol.index = index ∧ definition.symbol.name = name)
        ∨ ledger.symbols.globals[index]? = some name) :
    InOrder ⟨symbols, ledger.inner, ledger.outer, ledger.opened,
      ledger.definitions.insert definition⟩ := by
  have hnew : definition ∉ ledger.definitions := fun hmem =>
    Nat.lt_irrefl _ (hfresh definition hmem rfl)
  rw [List.insert_of_not_mem hnew]
  refine ⟨hregular, hwritten, h.numbered, List.forall_mem_cons.mpr ⟨hfunction, h.entered⟩, ?_,
    List.forall_mem_cons.mpr ⟨hkind, h.kinds⟩, fun index name => ?_⟩
  · intro first hfirst second hsecond hsame hindex
    -- the new definition against itself, against an old one in either order, and two old ones
    rcases List.mem_cons.mp hfirst with rfl | hfirst' <;>
      rcases List.mem_cons.mp hsecond with rfl | hsecond'
    · rfl
    · exact absurd hindex (Nat.ne_of_gt (hfresh second hsecond' hsame.symm))
    · exact absurd hindex (Nat.ne_of_lt (hfresh first hfirst' hsame))
    · exact h.unshared first hfirst' second hsecond' hsame hindex
  · rw [hglobals, h.globals, List.exists_mem_cons_iff]

/-- The symbols change, but no definition is made. -/
theorem of_tables {symbols : Symbols} (h : ledger.InOrder) (hregular : symbols.Regular)
    (hwritten : WrittenAll ledger.definitions (ledger.inner :: ledger.outer) symbols.tables)
    (hglobals : symbols.globals = ledger.symbols.globals) :
    InOrder { ledger with symbols } where
  regular := hregular
  written := hwritten
  numbered := h.numbered
  entered := h.entered
  unshared := h.unshared
  kinds := h.kinds
  globals index name := by
    rw [hglobals]
    exact h.globals index name

theorem define (h : ledger.InOrder) (name : String) :
    (ledger.step (.scope (.define name))).InOrder := by
  obtain ⟨symbols, inner, outer, opened, definitions⟩ := ledger
  show InOrder ⟨(symbols.define name).2, inner, outer, opened,
    definitions.insert ⟨inner.number, inner.innermost, (symbols.define name).1⟩⟩
  have hregular := h.regular.define name
  rcases symbols.define_cases name with ⟨hheld, hkind, hsame⟩ | hnew
  · rw [hsame, List.insert_of_mem (h.written.inner.of_innermost hheld hkind)]
    exact h
  · rw [hnew] at hregular ⊢
    refine h.enter hregular (h.written.define name) h.numbered h.written.inner.below
      h.written.ownKind_eq fun index other => ?_
    have htop : inner.number = 0 ↔ symbols.outer = [] := h.written.number_eq_zero_iff
    by_cases houter : symbols.outer = []
    · have hsize : symbols.globals.size = symbols.slots := by
        have hnamed := h.regular.named
        rwa [Symbols.Named, Symbols.tables, houter] at hnamed
      simp only [houter, List.isEmpty_nil, if_true, Symbols.getElem?_globals_push, hsize, htop,
        true_and]
    · simp only [List.isEmpty_iff, htop, houter, if_false, false_and, false_or]

theorem defineGlobal (h : ledger.InOrder) (name : String) :
    (ledger.step (.scope (.defineGlobal name))).InOrder := by
  obtain ⟨symbols, inner, outer, opened, definitions⟩ := ledger
  have hregular := h.regular.defineGlobal name
  have hsymbol := symbols.defineGlobal_symbol name
  show InOrder ⟨(symbols.defineGlobal name).2, inner, outer, opened,
    definitions.insert ⟨0, 0, (symbols.defineGlobal name).1⟩⟩
  rw [hsymbol]
  refine h.enter hregular (h.written.defineLast name) (Nat.zero_lt_of_lt h.numbered)
    h.written.below_topSlots rfl fun index other => ?_
  have hsize : symbols.globals.size = topSlots symbols.tables := h.regular.named
  show (symbols.globals.push name)[index]? = some other ↔ _
  simp only [Symbols.getElem?_globals_push, hsize, true_and]

theorem resolve (h : ledger.InOrder) (name : String) :
    (ledger.step (.scope (.resolve name))).InOrder := by
  obtain ⟨⟨table, tables, globals⟩, inner, outer, opened, definitions⟩ := ledger
  have hregular := h.regular.resolve name
  show InOrder
    ⟨(Symbols.resolve name ⟨table, tables, globals⟩).2, inner, outer, opened, definitions⟩
  unfold Symbols.resolve at hregular ⊢
  simp only at hregular ⊢
  split at hregular
  · exact h
  · rename_i hfound
    exact h.of_tables hregular (h.written.resolveIn hfound) rfl

theorem enterBlock (h : ledger.InOrder) : (ledger.step (.scope .enterBlock)).InOrder := by
  obtain ⟨symbols, ⟨number, blocks⟩, outer, opened, definitions⟩ := ledger
  have hentered : ∀ definition ∈ definitions, definition.function < opened + 1 :=
    fun definition hmem => Nat.lt_succ_of_lt (h.entered definition hmem)
  refine ⟨h.regular.enterBlock, h.written.replace rfl fun hwritten => ?_,
    Nat.lt_succ_of_lt h.numbered, hentered, h.unshared, h.kinds, h.globals⟩
  exact ⟨hwritten.below, .cons (.empty number opened) hwritten.blocks, hwritten.level⟩

theorem leaveBlock (h : ledger.InOrder) : (ledger.step (.scope .leaveBlock)).InOrder := by
  obtain ⟨⟨⟨names, level, slots, captured⟩, tables, globals⟩, ⟨number, blocks⟩, outer, opened,
    definitions⟩ := ledger
  refine ⟨h.regular.leaveBlock, h.written.replace rfl fun ⟨hbelow, hblocks, hlevel⟩ => ?_,
    h.numbered, h.entered, h.unshared, h.kinds, h.globals⟩
  cases hblocks with
  | nil => exact ⟨hbelow, .nil, hlevel⟩
  | cons _ hrest => exact ⟨hbelow, hrest, hlevel⟩

theorem enterFunction (h : ledger.InOrder) : (ledger.step (.scope .enterFunction)).InOrder := by
  obtain ⟨symbols, inner, outer, opened, definitions⟩ := ledger
  refine ⟨h.regular.enterFunction, .nested (h.written.number_lt h.numbered) ?_ h.written,
    Nat.lt_succ_self opened, fun definition hmem => Nat.lt_succ_of_lt (h.entered definition hmem),
    h.unshared, h.kinds, h.globals⟩
  refine ⟨fun definition hmem hfunction => ?_, .nil, .empty opened opened⟩
  exact absurd hfunction (Nat.ne_of_lt (h.entered definition hmem))

theorem leaveFunction (h : ledger.InOrder) : (ledger.step (.scope .leaveFunction)).InOrder := by
  obtain ⟨⟨table, tables, globals⟩, inner, outer, opened, definitions⟩ := ledger
  have hregular := h.regular.leaveFunction
  cases h.written with
  | top => exact h
  | nested hbelow _ hrest =>
    cases hrest with
    | top hzero hwritten =>
      exact ⟨hregular, .top hzero hwritten, Nat.lt_trans (hbelow _ List.mem_cons_self) h.numbered,
        h.entered, h.unshared, h.kinds, h.globals⟩
    | nested hbelow' hwritten hrest' =>
      exact ⟨hregular, .nested hbelow' hwritten hrest',
        Nat.lt_trans (hbelow _ List.mem_cons_self) h.numbered, h.entered, h.unshared, h.kinds,
        h.globals⟩

theorem defineBuiltin (h : ledger.InOrder) (index : Nat) (name : String) :
    (ledger.step (.defineBuiltin index name)).InOrder := by
  obtain ⟨⟨table, tables, globals⟩, inner, outer, opened, definitions⟩ := ledger
  have hregular := h.regular.defineBuiltin index name
  refine h.of_tables hregular (h.written.replace rfl fun hwritten => ?_) rfl
  have hkind : SymbolKind.builtin ≠ ownKind tables := by
    cases tables <;> exact SymbolKind.noConfusion
  exact hwritten.enter ⟨name, .builtin, index⟩ hkind table.captured

theorem step (h : ledger.InOrder) (step : TableStep) : (ledger.step step).InOrder := by
  cases step with
  | defineBuiltin index name => exact h.defineBuiltin index name
  | scope step =>
    cases step with
    | define name => exact h.define name
    | defineGlobal name => exact h.defineGlobal name
    | resolve name => exact h.resolve name
    | enterBlock => exact h.enterBlock
    | leaveBlock => exact h.leaveBlock
    | enterFunction => exact h.enterFunction
    | leaveFunction => exact h.leaveFunction

theorem empty : Ledger.empty.InOrder where
  regular := .empty
  written := .top rfl ⟨fun _ h => absurd h List.not_mem_nil, .nil, .empty 0 0⟩
  numbered := Nat.one_pos
  entered _ h := absurd h List.not_mem_nil
  unshared _ h := absurd h List.not_mem_nil
  kinds _ h := absurd h List.not_mem_nil
  globals index name := by simp [Ledger.empty, Symbols.empty]

/-- Every ledger of a sequence of steps is in order. -/
theorem after (steps : List TableStep) : (Ledger.after steps).InOrder := by
  unfold Ledger.after
  generalize hledger : Ledger.empty = ledger
  have h : ledger.InOrder := hledger ▸ empty
  clear hledger
  induction steps generalizing ledger with
  | nil => exact h
  | cons step steps ih => exact ih (ledger.step step) (h.step step)

end Ledger.InOrder

/-! ## Allocated slots

What the invariant says to somebody who does not know the ledger. -/

/-- What a ledger shows of the slots and of the symbols that stand for them. -/
structure Ledger.Allocated (ledger : Ledger) : Prop where
  /-- A definition gets the symbol that the innermost block holds for the name, and changes nothing,
  or it gets the next slot of its function, which no definition of the function has had. -/
  define : ∀ name, let (symbol, symbols) := ledger.symbols.define name
    symbol.name = name ∧ symbol.kind = ownKind ledger.symbols.outer
      ∧ (ledger.symbols.table.innermost? name = some symbol ∧ symbols = ledger.symbols
        ∨ symbol.index = ledger.symbols.slots ∧ symbols.slots = ledger.symbols.slots + 1
          ∧ ∀ earlier ∈ ledger.definitions, earlier.function = ledger.inner.number →
            earlier.symbol.index ≠ symbol.index)
  /-- A global gets the next slot of the top level. -/
  defineGlobal : ∀ name, let (symbol, symbols) := ledger.symbols.defineGlobal name
    symbol = ⟨name, .global, topSlots ledger.symbols.tables⟩
      ∧ topSlots symbols.tables = topSlots ledger.symbols.tables + 1
      ∧ ∀ earlier ∈ ledger.definitions, earlier.function = 0 → earlier.symbol.index ≠ symbol.index
  /-- Two definitions of one function share a slot only if they have the same name and have been
  made in the same block. -/
  unshared : ∀ first ∈ ledger.definitions, ∀ second ∈ ledger.definitions,
    first.function = second.function → first.symbol.index = second.symbol.index → first = second
  /-- All slots of the top level have a name. -/
  size_globals : ledger.symbols.globals.size = topSlots ledger.symbols.tables
  /-- The name of a slot of the top level is that of the definition which has taken it. -/
  getElem?_globals : ∀ index name, ledger.symbols.globals[index]? = some name ↔
    ∃ definition ∈ ledger.definitions, definition.function = 0
      ∧ definition.symbol.index = index ∧ definition.symbol.name = name
  /-- A free symbol stands for the captured symbol of its name. -/
  free : ∀ table ∈ ledger.symbols.tables, ∀ name symbol, table.HoldsFor name symbol →
    symbol.kind = .free → symbol.name = name
      ∧ ∃ around, table.captured[symbol.index]? = some around ∧ around.name = name
  /-- No name is captured twice. -/
  distinct : ∀ table ∈ ledger.symbols.tables, (table.captured.toList.map Symbol.name).Nodup
  /-- A captured symbol denotes a slot or a captured symbol of the function around. -/
  captured : ∀ table outer, table :: outer <:+ ledger.symbols.tables → ∀ symbol ∈ table.captured,
    ∃ around, outer.head? = some around
      ∧ (symbol.kind = .slot ∧ symbol.index < around.slots
        ∨ symbol.kind = .free ∧ symbol.index < around.captured.size)

/-- In any of the tables the captured symbols denote places of the table around. -/
theorem Symbols.Bounded.capturedFrom {builtins : Nat} {tables : List FunctionTable}
    {table : FunctionTable} {outer : List FunctionTable} (h : Bounded builtins tables)
    (hsuffix : table :: outer <:+ tables) :
    ∀ symbol ∈ table.captured, symbol.CapturedFrom outer := by
  induction tables with
  | nil => cases List.suffix_nil.mp hsuffix
  | cons next tables ih =>
    rcases List.suffix_cons_iff.mp hsuffix with heq | hrest
    · cases heq
      exact h.2.1
    · exact ih h.2.2 hrest

/-- A captured symbol is a slot or a free symbol of the function around. -/
theorem Symbol.CapturedFrom.cases {symbol : Symbol} {outer : List FunctionTable}
    (h : symbol.CapturedFrom outer) :
    ∃ around, outer.head? = some around
      ∧ (symbol.kind = .slot ∧ symbol.index < around.slots
        ∨ symbol.kind = .free ∧ symbol.index < around.captured.size) := by
  obtain _ | ⟨around, outer⟩ := outer
  · cases h
  · obtain ⟨hwithin, hkind⟩ := h
    refine ⟨around, rfl, ?_⟩
    unfold Symbol.Within at hwithin
    split at hwithin
    · contradiction
    · exact absurd hwithin (Nat.not_lt_zero _)
    · exact .inl ⟨‹_›, hwithin.2⟩
    · exact .inr ⟨‹_›, hwithin.2⟩

/-- A ledger in order shows that slots are allocated once. -/
theorem Ledger.InOrder.allocated {ledger : Ledger} (h : ledger.InOrder) : ledger.Allocated where
  define name := by
    rcases ledger.symbols.define_cases name with ⟨hheld, hkind, hsame⟩ | hnew
    -- the name is held in the innermost block, and its symbol is used again
    · have haligned := h.regular.aligned _ List.mem_cons_self
      have hname := haligned.named name _ (Symbols.holdsFor_of_innermost hheld)
      exact ⟨hname, hkind, .inl ⟨hheld, hsame⟩⟩
    · obtain ⟨-, -, hslots⟩ := Symbols.extends_takeSlot_insert ledger.symbols.table
        ⟨name, ownKind ledger.symbols.outer, ledger.symbols.slots⟩
      rw [hnew]
      exact ⟨rfl, rfl, .inr ⟨rfl, hslots, fun earlier hmem hfunction =>
        Nat.ne_of_lt (h.written.inner.below earlier hmem hfunction)⟩⟩
  defineGlobal name := by
    have hsymbol := ledger.symbols.defineGlobal_symbol name
    refine ⟨hsymbol, ?_, fun earlier hmem hfunction => ?_⟩
    · exact (Symbols.defineLast_topSlots name ledger.symbols.table ledger.symbols.outer).2
    · show earlier.symbol.index ≠ (ledger.symbols.defineGlobal name).1.index
      rw [hsymbol]
      exact Nat.ne_of_lt (h.written.below_topSlots earlier hmem hfunction)
  unshared := h.unshared
  size_globals := h.regular.named
  getElem?_globals := h.globals
  free table hmem name symbol hheld hkind :=
    ⟨(h.regular.aligned table hmem).named name symbol hheld,
      (h.regular.aligned table hmem).free name symbol hheld hkind⟩
  distinct table hmem := (h.regular.aligned table hmem).distinct
  captured table outer hsuffix symbol hsymbol := by
    obtain ⟨builtins, hbounded⟩ := h.regular.bounded
    exact (hbounded.capturedFrom hsuffix symbol hsymbol).cases

/-- A ledger runs beside the symbols. -/
theorem Ledger.symbols_after (steps : List TableStep) :
    (Ledger.after steps).symbols
      = steps.foldl (fun symbols step => symbols.tableStep step) Symbols.empty :=
  (List.foldl_hom Ledger.symbols fun _ _ => rfl).symm

/-- **Slots are allocated once.** After any sequence of steps on the tables of an empty program, a
definition gets the symbol that its block holds or a slot that its function has never used; the
names of the global slots are those of the definitions at the top level; and free symbols stand for
captured symbols of their names, each of which denotes a place of the function around. -/
theorem Ledger.allocated_after (steps : List TableStep) :
    (Ledger.after steps).symbols
        = steps.foldl (fun symbols step => symbols.tableStep step) Symbols.empty
      ∧ (Ledger.after steps).Allocated :=
  ⟨symbols_after steps, (InOrder.after steps).allocated⟩

end Scriptlet
