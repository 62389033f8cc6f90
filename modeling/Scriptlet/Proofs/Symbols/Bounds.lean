import Scriptlet.Proofs.Symbols

/-!
# Every symbol denotes a place that exists

The index of a slot is below the number of slots of its function, that of a free symbol below the
number of symbols the function captures, and that of a built-in function below the size of the
table. `Bounded` says so of a function and of all those around it; `Evolves` says that a step of the
compilation keeps it so, and that no slot and no captured symbol is ever given up. What holds of the
indices at the end of a function therefore holds of all instructions in it. The slots of the top
level are the global ones, and each of them has a name (`Named`).

`Bounded` alone would not do as an invariant. An instruction is emitted in the middle of a function,
when the function has fewer slots than in the end, and it is the end that counts for the frame: so
every step has to say that the bounds only grow.
-/

namespace Scriptlet

/-! ## Bounded tables

A symbol may refer to its own function or, if it is captured, to the one around. So bounds are about
all open functions at once, from the innermost outwards. -/

/-- A symbol that one of the blocks of a function holds. -/
def FunctionTable.Holds (table : FunctionTable) (symbol : Symbol) : Prop :=
  ∃ block ∈ table.level :: table.blocks, ∃ name : String, block[name]? = some symbol

/-- A symbol that one of the blocks of a function holds for a name. -/
def FunctionTable.HoldsFor (table : FunctionTable) (name : String) (symbol : Symbol) : Prop :=
  ∃ block ∈ table.level :: table.blocks, block[name]? = some symbol

theorem FunctionTable.holds_iff {table : FunctionTable} {symbol : Symbol} :
    table.Holds symbol ↔ ∃ name, table.HoldsFor name symbol :=
  ⟨fun ⟨block, hblock, name, hname⟩ => ⟨name, block, hblock, hname⟩,
    fun ⟨name, block, hblock, hname⟩ => ⟨block, hblock, name, hname⟩⟩

/-- The number of slots of the top level, whose table is the last one. There they are the global
slots. -/
def topSlots : List FunctionTable → Nat
  | [] => 0
  | [top] => top.slots
  | _ :: next :: outer => topSlots (next :: outer)

/-- **A symbol denotes one of so many slots, captured symbols or built-in functions.** Only a
function has slots of its own and captures symbols. -/
def Symbol.Within (symbol : Symbol) (builtins : Nat) (table : FunctionTable)
    (outer : List FunctionTable) : Prop :=
  match symbol.kind with
  | .global => symbol.index < topSlots (table :: outer)
  | .builtin => symbol.index < builtins
  | .slot => outer ≠ [] ∧ symbol.index < table.slots
  | .free => outer ≠ [] ∧ symbol.index < table.captured.size

/-- **A captured symbol denotes a slot or a captured symbol of the function around.** Globals are
reached from everywhere and are never captured. -/
def Symbol.CapturedFrom (symbol : Symbol) : List FunctionTable → Prop
  | [] => False
  | around :: outer => symbol.Within 0 around outer ∧ symbol.kind ≠ .global

namespace Symbols

/-- **All symbols of some tables denote places that exist.** -/
def Bounded (builtins : Nat) : List FunctionTable → Prop
  | [] => True
  | table :: outer =>
    (∀ symbol, table.Holds symbol → symbol.Within builtins table outer)
      ∧ (∀ symbol ∈ table.captured, symbol.CapturedFrom outer) ∧ Bounded builtins outer

/-- The tables of the function being compiled and of those around it. -/
def tables (symbols : Symbols) : List FunctionTable :=
  symbols.table :: symbols.outer

/-- Every global slot has a name. -/
def Named (symbols : Symbols) : Prop :=
  symbols.globals.size = topSlots symbols.tables

end Symbols

/-! ## Tables that grow

An order on tables, and on the tables of all open functions one by one. -/

/-- **A table has all slots and captured symbols of another one.** Captured symbols are a prefix, so
that each of them keeps its index. -/
structure FunctionTable.Extends (table table' : FunctionTable) : Prop where
  slots : table.slots ≤ table'.slots
  captured : table.captured.toList <+: table'.captured.toList

/-- What stands in an array stands in every longer one. -/
theorem getElem?_of_prefix_toList {α : Type} {as bs : Array α} {index : Nat} {a : α}
    (h : as.toList <+: bs.toList) (ha : as[index]? = some a) : bs[index]? = some a := by
  obtain ⟨more, hmore⟩ := h
  rw [← Array.getElem?_toList] at ha ⊢
  rw [← hmore]
  obtain ⟨hindex, -⟩ := List.getElem?_eq_some_iff.mp ha
  rwa [List.getElem?_append_left hindex]

namespace FunctionTable

variable {table table' table'' : FunctionTable}

theorem Extends.refl (table : FunctionTable) : table.Extends table :=
  ⟨Nat.le_refl _, List.prefix_refl _⟩

theorem Extends.trans (h : table.Extends table') (h' : table'.Extends table'') :
    table.Extends table'' :=
  ⟨Nat.le_trans h.slots h'.slots, h.captured.trans h'.captured⟩

theorem Extends.size_captured (h : table.Extends table') :
    table.captured.size ≤ table'.captured.size := by
  simpa using h.captured.length_le

/-- A captured symbol keeps its index. -/
theorem Extends.getElem?_captured (h : table.Extends table') {index : Nat} {around : Symbol}
    (haround : table.captured[index]? = some around) : table'.captured[index]? = some around :=
  getElem?_of_prefix_toList h.captured haround

end FunctionTable

/-- Tables that extend others one by one. -/
inductive ExtendsAll : List FunctionTable → List FunctionTable → Prop
  | nil : ExtendsAll [] []
  | cons {table table' : FunctionTable} {outer outer' : List FunctionTable} :
    table.Extends table' → ExtendsAll outer outer' → ExtendsAll (table :: outer) (table' :: outer')

theorem ExtendsAll.refl (tables : List FunctionTable) : ExtendsAll tables tables := by
  induction tables with
  | nil => exact .nil
  | cons table outer ih => exact .cons (.refl table) ih

theorem ExtendsAll.trans {tables tables' tables'' : List FunctionTable}
    (h : ExtendsAll tables tables') (h' : ExtendsAll tables' tables'') :
    ExtendsAll tables tables'' := by
  induction h generalizing tables'' with
  | nil => exact h'
  | cons hext _ ih =>
    cases h' with
    | cons hext' hrest => exact .cons (hext.trans hext') (ih hrest)

theorem ExtendsAll.length_eq {tables tables' : List FunctionTable} (h : ExtendsAll tables tables') :
    tables'.length = tables.length := by
  induction h with
  | nil => rfl
  | cons _ _ ih => rw [List.length_cons, List.length_cons, ih]

theorem ExtendsAll.eq_nil {tables tables' : List FunctionTable} (h : ExtendsAll tables tables') :
    tables = [] ↔ tables' = [] := by
  cases h <;> simp

theorem ExtendsAll.topSlots_le {tables tables' : List FunctionTable}
    (h : ExtendsAll tables tables') : topSlots tables ≤ topSlots tables' := by
  induction h with
  | nil => exact Nat.le_refl _
  | cons hext hrest ih =>
    cases hrest with
    | nil => exact hext.slots
    | cons => exact ih

/-- A place that exists is still there in a table that extends the one it is in. -/
theorem Symbol.Within.extends {symbol : Symbol} {builtins : Nat} {table table' : FunctionTable}
    {outer outer' : List FunctionTable} (h : symbol.Within builtins table outer)
    (hext : table.Extends table') (houter : ExtendsAll outer outer') :
    symbol.Within builtins table' outer' := by
  have hsize := hext.size_captured
  have hslots := hext.slots
  have htop := (ExtendsAll.cons hext houter).topSlots_le
  unfold Symbol.Within at h ⊢
  split <;> simp_all [houter.eq_nil] <;> omega

theorem Symbol.CapturedFrom.extends {symbol : Symbol} {outer outer' : List FunctionTable}
    (h : symbol.CapturedFrom outer) (houter : ExtendsAll outer outer') :
    symbol.CapturedFrom outer' := by
  cases houter with
  | nil => exact h
  | cons hext hrest => exact ⟨h.1.extends hext hrest, h.2⟩

namespace Symbols

/-! ## Steps of the compilation

Every step of the compiler on its symbols, one after the other. Entering and leaving a function
changes the number of tables, so for these two it is said of the step there and back. -/

/-- A step keeps all symbols within bounds and gives up no slot and no captured symbol. -/
structure EvolvesAll (builtins : Nat) (tables tables' : List FunctionTable) : Prop where
  bounded : Bounded builtins tables → Bounded builtins tables'
  extends_ : ExtendsAll tables tables'

/-- **A step does so for the tables of all functions that are open**, and names every global slot
that it takes. -/
structure Evolves (builtins : Nat) (symbols symbols' : Symbols) : Prop where
  tables : EvolvesAll builtins symbols.tables symbols'.tables
  named : symbols.Named → symbols'.Named

theorem EvolvesAll.refl (builtins : Nat) (tables : List FunctionTable) :
    EvolvesAll builtins tables tables :=
  ⟨id, .refl tables⟩

namespace Evolves

variable {builtins : Nat} {symbols symbols' symbols'' : Symbols}

theorem refl (builtins : Nat) (symbols : Symbols) : Evolves builtins symbols symbols :=
  ⟨.refl builtins _, id⟩

theorem trans (h : Evolves builtins symbols symbols') (h' : Evolves builtins symbols' symbols'') :
    Evolves builtins symbols symbols'' :=
  ⟨⟨fun hb => h'.tables.bounded (h.tables.bounded hb), h.tables.extends_.trans h'.tables.extends_⟩,
    fun hn => h'.named (h.named hn)⟩

theorem bounded (h : Evolves builtins symbols symbols') (hb : Bounded builtins symbols.tables) :
    Bounded builtins symbols'.tables :=
  h.tables.bounded hb

theorem extends_ (h : Evolves builtins symbols symbols') :
    ExtendsAll symbols.tables symbols'.tables :=
  h.tables.extends_

end Evolves

/-- What stands at a place is still there when something is added behind. -/
theorem getElem?_push_of_some {α : Type} {xs : Array α} {index : Nat} {x : α}
    (h : xs[index]? = some x) (y : α) : (xs.push y)[index]? = some x := by
  rwa [Array.getElem?_push, if_neg]
  exact Nat.ne_of_lt (Array.getElem?_eq_some_iff.mp h).1

/-- The symbols of a block to which one has been added. -/
theorem getElem?_insert_cases {block : Block} {symbol other : Symbol} {name key : String}
    (h : (block.insert key symbol)[name]? = some other) :
    name = key ∧ other = symbol ∨ block[name]? = some other := by
  rw [Std.TreeMap.getElem?_insert] at h
  split at h
  · rename_i hkey
    exact .inl ⟨(Std.compare_eq_iff_eq.mp hkey).symm, (Option.some.inj h).symm⟩
  · exact .inr h

/-- A block that gets a symbol for a new name keeps those that it had. -/
theorem getElem?_insert_of_missing {block : Block} {symbol other : Symbol} {name key : String}
    (hmissing : block[key]? = none) (h : block[name]? = some other) :
    (block.insert key symbol)[name]? = some other := by
  rw [Std.TreeMap.getElem?_insert, if_neg, h]
  intro hcompare
  obtain rfl := Std.compare_eq_iff_eq.mp hcompare
  cases hmissing.symm.trans h

/-- A block holds what it has been given, and nothing else that it did not hold before. -/
theorem holds_insert {block : Block} {symbol other : Symbol} {name key : String}
    (h : (block.insert key symbol)[name]? = some other) :
    other = symbol ∨ block[name]? = some other :=
  (getElem?_insert_cases h).imp_left And.right

theorem holdsFor_of_insert (table : FunctionTable) {symbol other : Symbol} {name : String}
    (h : (table.insert symbol).HoldsFor name other) :
    name = symbol.name ∧ other = symbol ∨ table.HoldsFor name other := by
  obtain ⟨blocks, level, slots, captured⟩ := table
  obtain ⟨block, hblock, hname⟩ := h
  cases blocks with
  | nil =>
    simp only [FunctionTable.insert, List.mem_cons, List.not_mem_nil, or_false] at hblock
    subst hblock
    exact (getElem?_insert_cases hname).imp id fun h => ⟨level, by simp, h⟩
  | cons inner blocks =>
    simp only [FunctionTable.insert, List.mem_cons] at hblock
    rcases hblock with rfl | rfl | hblock
    · exact .inr ⟨_, by simp, hname⟩
    · exact (getElem?_insert_cases hname).imp id fun h => ⟨inner, by simp, h⟩
    · exact .inr ⟨block, by simp [hblock], hname⟩

theorem holdsFor_of_insertLevel (table : FunctionTable) {symbol other : Symbol} {name : String}
    (h : (table.insertLevel symbol).HoldsFor name other) :
    name = symbol.name ∧ other = symbol ∨ table.HoldsFor name other := by
  obtain ⟨blocks, level, slots, captured⟩ := table
  obtain ⟨block, hblock, hname⟩ := h
  simp only [FunctionTable.insertLevel, List.mem_cons] at hblock
  rcases hblock with rfl | hblock
  · exact (getElem?_insert_cases hname).imp id fun h => ⟨level, by simp, h⟩
  · exact .inr ⟨block, by simp [hblock], hname⟩

theorem holds_of_insert (table : FunctionTable) {symbol other : Symbol}
    (h : (table.insert symbol).Holds other) : other = symbol ∨ table.Holds other := by
  obtain ⟨name, hname⟩ := FunctionTable.holds_iff.mp h
  exact (holdsFor_of_insert table hname).imp And.right
    fun h => FunctionTable.holds_iff.mpr ⟨name, h⟩

theorem holds_of_insertLevel (table : FunctionTable) {symbol other : Symbol}
    (h : (table.insertLevel symbol).Holds other) : other = symbol ∨ table.Holds other := by
  obtain ⟨name, hname⟩ := FunctionTable.holds_iff.mp h
  exact (holdsFor_of_insertLevel table hname).imp And.right
    fun h => FunctionTable.holds_iff.mpr ⟨name, h⟩

theorem holdsFor_of_lookup {table : FunctionTable} {name : String} {symbol : Symbol}
    (h : table.lookup? name = some symbol) : table.HoldsFor name symbol := by
  rw [FunctionTable.lookup?, Option.or_eq_some_iff] at h
  rcases h with h | ⟨-, h⟩
  · obtain ⟨block, hblock, hname⟩ := List.exists_of_findSome?_eq_some h
    exact ⟨block, by simp [hblock], hname⟩
  · exact ⟨table.level, by simp, h⟩

theorem holds_of_lookup {table : FunctionTable} {name : String} {symbol : Symbol}
    (h : table.lookup? name = some symbol) : table.Holds symbol :=
  FunctionTable.holds_iff.mpr ⟨name, holdsFor_of_lookup h⟩

theorem holdsFor_of_innermost {table : FunctionTable} {name : String} {symbol : Symbol}
    (h : table.innermost? name = some symbol) : table.HoldsFor name symbol := by
  obtain ⟨blocks, level, slots, captured⟩ := table
  cases blocks with
  | nil => exact ⟨level, by simp, h⟩
  | cons block blocks => exact ⟨block, by simp, h⟩

/-- A name found in the innermost block is held by the table. -/
theorem holds_of_innermost {table : FunctionTable} {name : String} {symbol : Symbol}
    (h : table.innermost? name = some symbol) : table.Holds symbol :=
  FunctionTable.holds_iff.mpr ⟨name, holdsFor_of_innermost h⟩

/-- **A table that holds one more symbol**, which denotes a place that exists. All ways to define a
name come down to this. -/
theorem evolves_table {builtins : Nat} {table table' : FunctionTable}
    {outer : List FunctionTable} (symbol : Symbol) (hext : table.Extends table')
    (hcaptured : table'.captured = table.captured)
    (hholds : ∀ other, table'.Holds other → other = symbol ∨ table.Holds other)
    (hsymbol : symbol.Within builtins table' outer) :
    EvolvesAll builtins (table :: outer) (table' :: outer) where
  bounded h := by
    obtain ⟨hwithin, hcaptures, houter⟩ := h
    refine ⟨fun other hother => ?_, by rwa [hcaptured], houter⟩
    rcases hholds other hother with rfl | hother
    · exact hsymbol
    · exact (hwithin other hother).extends hext (.refl outer)
  extends_ := .cons hext (.refl outer)

/-- A slot that is taken for a symbol. -/
theorem extends_takeSlot_insert (table : FunctionTable) (symbol : Symbol) :
    table.Extends (table.takeSlot.insert symbol)
      ∧ (table.takeSlot.insert symbol).captured = table.captured
      ∧ (table.takeSlot.insert symbol).slots = table.slots + 1 := by
  obtain ⟨blocks, level, slots, captured⟩ := table
  cases blocks with
  | nil => exact ⟨⟨Nat.le_succ _, List.prefix_refl _⟩, rfl, rfl⟩
  | cons block blocks => exact ⟨⟨Nat.le_succ _, List.prefix_refl _⟩, rfl, rfl⟩

/-- Defining a name changes no table but the innermost one. -/
theorem define_evolves (builtins : Nat) (symbols : Symbols) (name : String) :
    Evolves builtins symbols (symbols.define name).2 := by
  obtain ⟨table, outer, globals⟩ := symbols
  unfold define
  simp only
  split
  · exact .refl builtins _
  · obtain ⟨hext, hcaptured, hslots⟩ := extends_takeSlot_insert table
      ⟨name, if outer.isEmpty then .global else .slot, table.slots⟩
    refine ⟨evolves_table _ hext hcaptured
      (fun other h => holds_of_insert table.takeSlot h) ?_, fun hnamed => ?_⟩
    -- a slot or a global has been taken, and there is still one name for each global
    · cases outer with
      | nil =>
        show table.slots < (table.takeSlot.insert _).slots
        rw [hslots]
        exact Nat.lt_succ_self _
      | cons around outer =>
        refine ⟨by simp, ?_⟩
        rw [hslots]
        exact Nat.lt_succ_self _
    · cases outer with
      | nil =>
        have hnamed : globals.size = table.slots := hnamed
        show (globals.push name).size = (table.takeSlot.insert _).slots
        rw [hslots, Array.size_push, hnamed]
      | cons around outer => exact hnamed

/-- The symbol of a defined name. -/
theorem define_within {builtins : Nat} {symbols : Symbols} (name : String)
    (h : Bounded builtins symbols.tables) :
    (symbols.define name).1.Within builtins (symbols.define name).2.table
      (symbols.define name).2.outer := by
  obtain ⟨table, outer, globals⟩ := symbols
  unfold define
  simp only
  split
  · rename_i symbol hsymbol
    rw [Option.filter_eq_some_iff] at hsymbol
    exact h.1 symbol (holds_of_innermost hsymbol.1)
  · obtain ⟨-, -, hslots⟩ := extends_takeSlot_insert table
      ⟨name, if outer.isEmpty then .global else .slot, table.slots⟩
    cases outer with
    | nil =>
      show table.slots < (table.takeSlot.insert _).slots
      rw [hslots]
      exact Nat.lt_succ_self _
    | cons around outer =>
      refine ⟨by simp, ?_⟩
      rw [hslots]
      exact Nat.lt_succ_self _

theorem defineLast_evolves (builtins : Nat) (name : String) (table : FunctionTable)
    (outer : List FunctionTable) :
    EvolvesAll builtins (table :: outer)
      ((defineLast name table outer).2.1 :: (defineLast name table outer).2.2) := by
  induction outer generalizing table with
  | nil =>
    refine evolves_table ⟨name, .global, table.slots⟩ ⟨Nat.le_succ _, List.prefix_refl _⟩ rfl
      (fun other h => ?_) (Nat.lt_succ_self table.slots)
    exact holds_of_insertLevel table.takeSlot h
  | cons next outer ih =>
    have hrest := ih next
    refine ⟨fun h => ?_, .cons (.refl table) hrest.extends_⟩
    obtain ⟨hwithin, hcaptures, houter⟩ := h
    refine ⟨fun other hother => (hwithin other hother).extends (.refl table) hrest.extends_,
      fun symbol hsymbol => (hcaptures symbol hsymbol).extends hrest.extends_,
      hrest.bounded houter⟩

/-- The symbol of a new global stands for the next slot of the top level. -/
theorem defineLast_topSlots (name : String) (table : FunctionTable) (outer : List FunctionTable) :
    (defineLast name table outer).1.index = topSlots (table :: outer)
      ∧ topSlots ((defineLast name table outer).2.1 :: (defineLast name table outer).2.2)
        = topSlots (table :: outer) + 1 := by
  induction outer generalizing table with
  | nil => exact ⟨rfl, rfl⟩
  | cons next outer ih => exact ih next

/-- A global takes a slot of the last table, past all open functions. -/
theorem defineGlobal_evolves (builtins : Nat) (symbols : Symbols) (name : String) :
    Evolves builtins symbols (symbols.defineGlobal name).2 := by
  refine ⟨defineLast_evolves builtins name symbols.table symbols.outer, fun hnamed => ?_⟩
  have hnamed : symbols.globals.size = topSlots (symbols.table :: symbols.outer) := hnamed
  show (symbols.globals.push name).size = topSlots
    ((defineLast name symbols.table symbols.outer).2.1
      :: (defineLast name symbols.table symbols.outer).2.2)
  rw [(defineLast_topSlots name symbols.table symbols.outer).2, Array.size_push, hnamed]

theorem defineGlobal_index_lt (symbols : Symbols) (name : String) :
    (symbols.defineGlobal name).1.index < topSlots (symbols.defineGlobal name).2.tables := by
  obtain ⟨hindex, hslots⟩ := defineLast_topSlots name symbols.table symbols.outer
  show (defineLast name symbols.table symbols.outer).1.index < topSlots
    ((defineLast name symbols.table symbols.outer).2.1
      :: (defineLast name symbols.table symbols.outer).2.2)
  rw [hindex, hslots]
  exact Nat.lt_succ_self _

theorem defineGlobal_kind (symbols : Symbols) (name : String) :
    (symbols.defineGlobal name).1.kind = .global := by
  obtain ⟨table, outer, globals⟩ := symbols
  show (defineLast name table outer).1.kind = .global
  induction outer generalizing table with
  | nil => rfl
  | cons next outer ih => exact ih next

/-- A function that captures one more symbol keeps those that it has captured. -/
theorem extends_capture (table : FunctionTable) (around : Symbol) :
    table.Extends (table.capture around).2 := by
  obtain ⟨blocks, level, slots, captured⟩ := table
  exact ⟨Nat.le_refl _, by simp [FunctionTable.capture]⟩

/-- The new free symbol has the last index, for which there is room now. -/
theorem capture_within (builtins : Nat) (table : FunctionTable) {outer : List FunctionTable}
    (around : Symbol) (houter : outer ≠ []) :
    (table.capture around).1.Within builtins (table.capture around).2 outer := by
  obtain ⟨blocks, level, slots, captured⟩ := table
  exact ⟨houter, by simp [FunctionTable.capture]⟩

/-- Capturing a symbol of the function around. -/
theorem capture_bounded {builtins : Nat} {table : FunctionTable} {outer : List FunctionTable}
    {around : Symbol} (h : around.CapturedFrom outer) (hb : Bounded builtins (table :: outer)) :
    Bounded builtins ((table.capture around).2 :: outer) := by
  have hext := extends_capture table around
  have hnew := capture_within builtins table around
    (show outer ≠ [] by rintro rfl; exact h)
  obtain ⟨blocks, level, slots, captured⟩ := table
  refine ⟨fun other hother => ?_, fun s hs => ?_, hb.2.2⟩
  · rcases holds_of_insertLevel ⟨blocks, level, slots, captured.push around⟩ hother
      with rfl | hother
    · exact hnew
    · exact (hb.1 other hother).extends hext (.refl outer)
  · rcases Array.mem_push.mp hs with hs | rfl
    · exact hb.2.1 s hs
    · exact h

/-- **A found name, and the tables in which it has been captured on the way.** Induction on the
functions around: a name that is found further out is captured by each function that it is passed
through, and its symbol there denotes what has just been captured. -/
theorem resolveIn_evolves {builtins : Nat} {name : String} {table table' : FunctionTable}
    {outer outer' : List FunctionTable} {symbol : Symbol}
    (h : resolveIn name table outer = some (symbol, table', outer')) :
    EvolvesAll builtins (table :: outer) (table' :: outer')
      ∧ (Bounded builtins (table :: outer) → symbol.Within builtins table' outer') := by
  induction outer generalizing table table' outer' symbol with
  | nil =>
    rw [resolveIn] at h
    split at h
    · rename_i found hfound
      cases h
      exact ⟨.refl builtins _, fun hb => hb.1 symbol (holds_of_lookup hfound)⟩
    · cases h
  | cons next outer ih =>
    rw [resolveIn] at h
    split at h
    · rename_i found hfound
      cases h
      exact ⟨.refl builtins _, fun hb => hb.1 symbol (holds_of_lookup hfound)⟩
    · simp only at h
      split at h
      · cases h
      · rename_i around next' outer'' hnext
        obtain ⟨hrest, hwithin⟩ := ih hnext
        -- what has been captured further out only adds to the tables around, so this one stays
        -- within bounds
        have hkeep : EvolvesAll builtins (table :: next :: outer) (table :: next' :: outer'') := by
          refine ⟨fun hb => ?_, .cons (.refl table) hrest.extends_⟩
          obtain ⟨hholds, hcaptures, houter⟩ := hb
          exact ⟨fun other hother => (hholds other hother).extends (.refl table) hrest.extends_,
            fun s hs => (hcaptures s hs).extends hrest.extends_, hrest.bounded houter⟩
        split at h
        · rename_i hkind
          cases h
          refine ⟨hkeep, fun hb => ?_⟩
          have := hwithin hb.2.2
          rw [Symbol.Within, hkind] at this ⊢
          exact this
        · rename_i hkind
          cases h
          refine ⟨hkeep, fun hb => ?_⟩
          have := hwithin hb.2.2
          rw [Symbol.Within, hkind] at this ⊢
          exact this
        -- a local or a captured variable of the function around is captured here
        all_goals
          rename_i hkind
          cases h
          refine ⟨⟨fun hb => capture_bounded ⟨?_, ?_⟩ (hkeep.bounded hb),
            hkeep.extends_.trans (.cons (extends_capture table around) (.refl _))⟩,
            fun _ => capture_within builtins table around (by simp)⟩
          · have := hwithin hb.2.2
            rw [Symbol.Within, hkind] at this ⊢
            exact this
          · rw [hkind]
            decide

/-- Resolving takes no slot. -/
theorem resolveIn_topSlots {name : String} {table table' : FunctionTable}
    {outer outer' : List FunctionTable} {symbol : Symbol}
    (h : resolveIn name table outer = some (symbol, table', outer')) :
    topSlots (table' :: outer') = topSlots (table :: outer) := by
  induction outer generalizing table table' outer' symbol with
  | nil =>
    rw [resolveIn] at h
    split at h
    · cases h
      rfl
    · cases h
  | cons next outer ih =>
    rw [resolveIn] at h
    split at h
    · cases h
      rfl
    · simp only at h
      split at h
      · cases h
      · rename_i around next' outer'' hnext
        have hslots := ih hnext
        split at h <;> (cases h; exact hslots)

/-- A name that is found around a function is captured by every function in between. -/
theorem resolve_evolves (builtins : Nat) (symbols : Symbols) (name : String) :
    Evolves builtins symbols (symbols.resolve name).2 := by
  obtain ⟨table, outer, globals⟩ := symbols
  unfold resolve
  simp only
  split
  · exact .refl builtins _
  · rename_i h
    exact ⟨(resolveIn_evolves h).1, fun hnamed => hnamed.trans (resolveIn_topSlots h).symm⟩

/-- A name that is found nowhere becomes a global. -/
theorem require_evolves (builtins : Nat) (symbols : Symbols) (name : String) :
    Evolves builtins symbols (symbols.require name).2 := by
  have h := resolve_evolves builtins symbols name
  unfold require
  split
  · rename_i hres
    rwa [hres] at h
  · rename_i hres
    rw [hres] at h
    exact h.trans (defineGlobal_evolves builtins _ name)

/-- The symbol of a name that is used. -/
theorem require_within {builtins : Nat} {symbols : Symbols} (name : String)
    (h : Bounded builtins symbols.tables) :
    (symbols.require name).1.Within builtins (symbols.require name).2.table
      (symbols.require name).2.outer := by
  unfold require
  split
  · rename_i symbol symbols' hres
    obtain ⟨table, outer, globals⟩ := symbols
    unfold resolve at hres
    simp only at hres
    split at hres
    · cases hres
    · rename_i hfound
      cases hres
      exact (resolveIn_evolves hfound).2 h
  · rw [Symbol.Within, defineGlobal_kind]
    exact defineGlobal_index_lt _ name

theorem quotes_evolves (builtins : Nat) (symbols : Symbols) (callee : Expr) :
    Evolves builtins symbols (symbols.quotes callee).2 := by
  unfold quotes
  split
  · exact resolve_evolves builtins symbols "quote"
  · exact .refl builtins _

theorem defineAll_evolves (builtins : Nat) (symbols : Symbols) (names : List String) :
    Evolves builtins symbols (symbols.defineAll names) := by
  induction names generalizing symbols with
  | nil => exact .refl builtins _
  | cons name names ih => exact (define_evolves builtins symbols name).trans (ih _)

theorem enterBlock_evolves (builtins : Nat) (symbols : Symbols) :
    Evolves builtins symbols symbols.enterBlock := by
  obtain ⟨⟨blocks, level, slots, captured⟩, outer, globals⟩ := symbols
  refine ⟨⟨fun h => ⟨fun other hother => ?_, h.2.1, h.2.2⟩, .cons ⟨Nat.le_refl _,
    List.prefix_refl _⟩ (.refl outer)⟩, fun hnamed => by cases outer <;> exact hnamed⟩
  suffices hold : other.Within builtins ⟨blocks, level, slots, captured⟩ outer from
    hold.extends ⟨Nat.le_refl _, List.prefix_refl _⟩ (.refl outer)
  obtain ⟨block, hblock, name, hname⟩ := hother
  have hblock : block = level ∨ block = ∅ ∨ block ∈ blocks := by
    simpa [enterBlock] using hblock
  rcases hblock with rfl | rfl | hblock
  · exact h.1 other ⟨_, by simp, name, hname⟩
  · exact absurd hname (by simp)
  · exact h.1 other ⟨block, by simp [hblock], name, hname⟩

theorem leaveBlock_evolves (builtins : Nat) (symbols : Symbols) :
    Evolves builtins symbols symbols.leaveBlock := by
  obtain ⟨⟨blocks, level, slots, captured⟩, outer, globals⟩ := symbols
  refine ⟨⟨fun h => ⟨fun other hother => ?_, h.2.1, h.2.2⟩, .cons ⟨Nat.le_refl _,
    List.prefix_refl _⟩ (.refl outer)⟩, fun hnamed => by cases outer <;> exact hnamed⟩
  suffices hold : other.Within builtins ⟨blocks, level, slots, captured⟩ outer from
    hold.extends ⟨Nat.le_refl _, List.prefix_refl _⟩ (.refl outer)
  obtain ⟨block, hblock, name, hname⟩ := hother
  simp only [List.mem_cons] at hblock
  rcases hblock with rfl | hblock
  · exact h.1 other ⟨_, by simp, name, hname⟩
  · exact h.1 other ⟨block, by simp [List.mem_of_mem_tail hblock], name, hname⟩

/-- A function starts without symbols. -/
theorem bounded_enterFunction {builtins : Nat} {symbols : Symbols}
    (h : Bounded builtins symbols.tables) : Bounded builtins symbols.enterFunction.tables := by
  refine ⟨fun other hother => ?_, fun s hs => absurd hs (by simp [enterFunction,
    FunctionTable.empty]), h⟩
  obtain ⟨block, hblock, name, hname⟩ := hother
  obtain rfl : block = ∅ := by simpa [enterFunction, FunctionTable.empty] using hblock
  exact absurd hname (by simp)

/-- **A function and the code in it** leave the tables of the functions around at least as large,
and what the function captures is there. -/
theorem leaveFunction_evolves {builtins : Nat} {symbols inner after : Symbols}
    (h : Evolves builtins symbols.enterFunction inner)
    (hleave : inner.leaveFunction? = some after) :
    Evolves builtins symbols after
      ∧ (Bounded builtins symbols.tables →
        ∀ symbol ∈ inner.captured, symbol.CapturedFrom after.tables) := by
  obtain ⟨table, outer, globals⟩ := inner
  cases outer with
  | nil => cases hleave
  | cons around outer =>
    cases hleave
    refine ⟨⟨⟨fun hb => (h.bounded (bounded_enterFunction hb)).2.2, ?_⟩, fun hnamed => ?_⟩,
      fun hb s hs => ?_⟩
    · cases h.extends_ with
      | cons _ hrest => exact hrest
    · exact h.named hnamed
    · exact (h.bounded (bounded_enterFunction hb)).2.1 s (by simpa [captured] using hs)

theorem leaveFunction_nested {inner after : Symbols} (hleave : inner.leaveFunction? = some after) :
    inner.outer ≠ [] := by
  obtain ⟨table, outer, globals⟩ := inner
  rintro rfl
  cases hleave

theorem leaveFunction_topSlots {inner after : Symbols}
    (hleave : inner.leaveFunction? = some after) :
    topSlots inner.tables = topSlots after.tables := by
  obtain ⟨table, outer, globals⟩ := inner
  cases outer with
  | nil => cases hleave
  | cons around outer =>
    cases hleave
    rfl

/-- Before anything is compiled only the built-in functions are known. -/
theorem bounded_ofBuiltins (names : List String) :
    Bounded names.length (ofBuiltins names).tables := by
  have hindices : ∀ pair ∈ names.zipIdx, pair.2 < names.length := fun pair hpair => by
    have := List.snd_lt_of_mem_zipIdx hpair
    omega
  rw [ofBuiltins_eq]
  generalize names.zipIdx = pairs at hindices
  generalize names.length = builtins at hindices ⊢
  suffices h : ∀ symbols : Symbols, symbols.outer = [] → Bounded builtins symbols.tables →
      Bounded builtins (pairs.foldl (fun symbols pair =>
        (symbols.defineBuiltin pair.2 pair.1).2) symbols).tables by
    refine h .empty rfl ⟨fun other hother => ?_, fun s hs => absurd hs (by simp [empty,
      FunctionTable.empty]), trivial⟩
    obtain ⟨block, hblock, name, hname⟩ := hother
    obtain rfl : block = ∅ := by simpa [empty, FunctionTable.empty] using hblock
    exact absurd hname (by simp)
  induction pairs with
  | nil => exact fun _ _ h => h
  | cons pair pairs ih =>
    rintro ⟨table, outer, globals⟩ rfl h
    refine ih (fun p hp => hindices p (by simp [hp])) _ rfl ?_
    have hstep : EvolvesAll builtins [table] [table.insertLevel ⟨pair.1, .builtin, pair.2⟩] :=
      evolves_table ⟨pair.1, .builtin, pair.2⟩ ⟨Nat.le_refl _, List.prefix_refl _⟩ rfl
        (fun other h => holds_of_insertLevel table h) (hindices pair (by simp))
    exact hstep.bounded h

/-- Built-in functions take no slots. -/
theorem named_ofBuiltins (names : List String) : (ofBuiltins names).Named := by
  refine ofBuiltins_induction names rfl fun ⟨table, outer, globals⟩ index name h => ?_
  cases outer <;> exact h

end Symbols

end Scriptlet
