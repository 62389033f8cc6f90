import Scriptlet.Proofs.Agreement.Fragment
import Scriptlet.Proofs.Layout.Reach

/-!
# Names of plain programs

A plain program makes no functions, so each of its variables has a global slot. `Symbols.Flat` is
what the compiler knows there: every name of a block or of the top level stands at its slot, two
blocks never share a slot, and the names of built-in functions mean nothing else.

`Symbols.Grows` relates what is known at two points: no name of the top level is ever forgotten or
moved, and one that is new has a new slot. Within an expression the open blocks stay the same; the
statements of a body add their names to the innermost one (`Block.Adds`).

The relation is needed because a loop comes back. The machine runs code that was compiled when fewer
names were known, while the scopes hold names that were bound since. So the simulation compares
scopes with the symbols at the end of the program, and every symbol that was found on the way must
be found there as well, in the same slot.
-/

namespace Scriptlet

/-! ## Blocks

What single blocks know. A block maps names to symbols; in a plain program all symbols of variables
are global ones, so a block is as good as a map from names to slots. -/

/-- **A symbol is that of a variable**, which is not called like a built-in function and whose name
stands at its slot. The table of names is the one from which the machine takes the name for its
report of an unset variable. -/
structure Symbol.Names (table : BuiltinTable) (globals : Array String) (name : String)
    (symbol : Symbol) : Prop where
  kind : symbol.kind = .global
  slot : globals[symbol.index]? = some name
  user : table.find? name = none

theorem Symbol.Names.index_lt {table : BuiltinTable} {globals : Array String} {name : String}
    {symbol : Symbol} (h : symbol.Names table globals name) : symbol.index < globals.size :=
  (Array.getElem?_eq_some_iff.mp h.slot).1

theorem Symbol.Names.push {table : BuiltinTable} {globals : Array String} {name : String}
    {symbol : Symbol} (h : symbol.Names table globals name) (other : String) :
    symbol.Names table (globals.push other) name where
  kind := h.kind
  slot := Symbols.getElem?_push_of_some h.slot other
  user := h.user

/-- Two blocks have different slots for a name. -/
def Block.Apart (block outer : Block) : Prop :=
  ∀ (name : String) (symbol other : Symbol), block[name]? = some symbol →
    outer[name]? = some other → symbol.index ≠ other.index

/-- **A block has come to know more names**: those of the list and no others, and those that it had
before have kept their symbols. -/
structure Block.Adds (names : List String) (block block' : Block) : Prop where
  kept : ∀ (name : String) (symbol : Symbol), block[name]? = some symbol →
    block'[name]? = some symbol
  other : ∀ name : String, name ∉ names → block'[name]? = block[name]?
  there : ∀ name : String, name ∈ names → (block'[name]?).isSome

theorem Block.Adds.refl (block : Block) : block.Adds [] block :=
  ⟨fun _ _ h => h, fun _ _ => rfl, fun _ h => absurd h List.not_mem_nil⟩

theorem Block.Adds.trans {names names' : List String} {block block' block'' : Block}
    (h : block.Adds names block') (h' : block'.Adds names' block'') :
    block.Adds (names ++ names') block'' where
  kept name symbol hs := h'.kept name symbol (h.kept name symbol hs)
  other name hn := by
    rw [List.mem_append, not_or] at hn
    rw [h'.other name hn.2, h.other name hn.1]
  there name hn := by
    rcases List.mem_append.mp hn with hn | hn
    · obtain ⟨symbol, hsymbol⟩ := Option.isSome_iff_exists.mp (h.there name hn)
      rw [h'.kept name symbol hsymbol]
      rfl
    · exact h'.there name hn

namespace Symbols

/-! ## Symbols without functions

Outside of all functions there is one table, so the nesting of tables and the captured variables are
no concern. The invariant has one field for each thing that a use or a definition of a name relies
on. -/

/-- **The symbols known outside of all functions.** The field `builtins` says that a built-in
function is never hidden: no plain program binds its name. -/
structure Flat (table : BuiltinTable) (symbols : Symbols) : Prop where
  outer : symbols.outer = []
  size : symbols.globals.size = symbols.table.slots
  blocks : ∀ block ∈ symbols.table.blocks, ∀ (name : String) (symbol : Symbol),
    block[name]? = some symbol → symbol.Names table symbols.globals name
  level : ∀ (name : String) (symbol : Symbol), symbols.table.level[name]? = some symbol →
    symbol.Names table symbols.globals name
      ∨ ∃ builtin, table.find? name = some builtin ∧ symbol.kind = .builtin
        ∧ table[symbol.index]? = some builtin
  builtins : ∀ (name : String) (builtin : Builtin), table.find? name = some builtin →
    (symbols.table.level[name]?).isSome
  apart : (symbols.table.blocks ++ [symbols.table.level]).Pairwise Block.Apart

/-- **What is known at a later point.** Blocks are not mentioned, since they come and go; the top
level only grows. -/
structure Grows (table : BuiltinTable) (symbols symbols' : Symbols) : Prop where
  flat : symbols'.Flat table
  slots : symbols.table.slots ≤ symbols'.table.slots
  kept : ∀ (name : String) (symbol : Symbol), symbols.table.level[name]? = some symbol →
    symbols'.table.level[name]? = some symbol
  new : ∀ (name : String) (symbol : Symbol), symbols'.table.level[name]? = some symbol →
    symbols.table.level[name]? = some symbol ∨ symbols.table.slots ≤ symbol.index
  globals : ∀ (index : Nat) (name : String), symbols.globals[index]? = some name →
    symbols'.globals[index]? = some name

variable {table : BuiltinTable} {symbols symbols' symbols'' : Symbols} {name : String}

theorem Grows.refl (h : symbols.Flat table) : Grows table symbols symbols :=
  ⟨h, Nat.le_refl _, fun _ _ h => h, fun _ _ h => .inl h, fun _ _ h => h⟩

theorem Grows.trans (h : Grows table symbols symbols') (h' : Grows table symbols' symbols'') :
    Grows table symbols symbols'' where
  flat := h'.flat
  slots := Nat.le_trans h.slots h'.slots
  kept name symbol hs := h'.kept name symbol (h.kept name symbol hs)
  new name symbol hs := by
    rcases h'.new name symbol hs with hs | hs
    · exact h.new name symbol hs
    · exact .inr (Nat.le_trans h.slots hs)
  globals index name hs := h'.globals index name (h.globals index name hs)

namespace Flat

/-- The symbol of a variable that is known. -/
theorem names (h : symbols.Flat table) (huser : table.find? name = none) {symbol : Symbol}
    (hlevel : symbols.table.level[name]? = some symbol) :
    symbol.Names table symbols.globals name := by
  rcases h.level name symbol hlevel with h | ⟨builtin, hbuiltin, -⟩
  · exact h
  · rw [huser] at hbuiltin
    exact absurd hbuiltin (by simp)

/-- A block that has no names yet. -/
theorem enterBlock (h : symbols.Flat table) : symbols.enterBlock.Flat table := by
  obtain ⟨⟨blocks, level, slots, captured⟩, outer, globals⟩ := symbols
  refine ⟨h.outer, h.size, fun block hblock => ?_, h.level, h.builtins, ?_⟩
  · rcases List.mem_cons.mp hblock with rfl | hblock
    · intro name symbol hs
      exact absurd hs (by simp)
    · exact h.blocks block hblock
  · refine List.pairwise_cons.mpr ⟨fun other _ name symbol _ hs => ?_, h.apart⟩
    exact absurd hs (by simp)

/-- What is known outside of a block is known again behind it, as its own names are gone with it. -/
theorem leaveBlock (h : symbols.Flat table) : symbols.leaveBlock.Flat table := by
  obtain ⟨⟨blocks, level, slots, captured⟩, outer, globals⟩ := symbols
  refine ⟨h.outer, h.size, fun block hblock => h.blocks block (List.mem_of_mem_tail hblock),
    h.level, h.builtins, ?_⟩
  cases blocks with
  | nil => exact h.apart
  | cons block blocks => exact (List.pairwise_cons.mp h.apart).2

end Flat

/-- Entering a block changes nothing at the top level, and neither does leaving one. -/
theorem Grows.enterBlock (h : symbols.Flat table) : Grows table symbols symbols.enterBlock := by
  have hflat := h.enterBlock
  obtain ⟨⟨blocks, level, slots, captured⟩, outer, globals⟩ := symbols
  exact ⟨hflat, Nat.le_refl _, fun _ _ h => h, fun _ _ h => .inl h, fun _ _ h => h⟩

/-- No slot is given back with a block, and no name of the top level is touched. -/
theorem Grows.leaveBlock (h : symbols.Flat table) : Grows table symbols symbols.leaveBlock := by
  have hflat := h.leaveBlock
  obtain ⟨⟨blocks, level, slots, captured⟩, outer, globals⟩ := symbols
  exact ⟨hflat, Nat.le_refl _, fun _ _ h => h, fun _ _ h => .inl h, fun _ _ h => h⟩

/-! ## Uses of names

How the compiler resolves and defines a name, in the three situations of a plain program: the name
is known, it is new at the top level, or it is bound in a block. -/

/-- A name that is known keeps its symbol. -/
theorem require_known (houter : symbols.outer = []) {symbol : Symbol}
    (h : symbols.table.lookup? name = some symbol) :
    symbols.require name = (symbol, symbols) := by
  obtain ⟨table, outer, globals⟩ := symbols
  have hresolve : resolveIn name table outer = some (symbol, table, outer) := by
    rw [resolveIn.eq_def]
    simp only at h
    simp only [h]
  simp only [require, resolve, hresolve]

/-- A name that is not known gets the next slot, at the top level. -/
theorem require_unknown (houter : symbols.outer = []) (h : symbols.table.lookup? name = none) :
    symbols.require name = (⟨name, .global, symbols.table.slots⟩,
      ⟨symbols.table.takeSlot.insertLevel ⟨name, .global, symbols.table.slots⟩, [],
        symbols.globals.push name⟩) := by
  obtain ⟨table, outer, globals⟩ := symbols
  obtain rfl : outer = [] := houter
  have hresolve : resolveIn name table [] = none := by
    rw [resolveIn.eq_def]
    simp only at h
    simp only [h]
  simp only [require, resolve, hresolve]
  rfl

/-- **A variable that is new at the top level** gets the next slot. It is not called like a built-in
function, for those are all known; and its slot is not that of any block, for it is larger than all
slots in use. -/
theorem Grows.new_global (h : symbols.Flat table)
    (hname : symbols.table.lookup? name = none) :
    Grows table symbols
      ⟨symbols.table.takeSlot.insertLevel ⟨name, .global, symbols.table.slots⟩, [],
        symbols.globals.push name⟩ := by
  obtain ⟨⟨blocks, level, slots, captured⟩, outer, globals⟩ := symbols
  obtain ⟨houter, hsize, hblocks, hlevel, hbuiltins, hapart⟩ := h
  simp only at hsize
  rw [FunctionTable.lookup?, Option.or_eq_none_iff] at hname
  obtain ⟨-, hunknown⟩ := hname
  simp only at hunknown
  have huser : table.find? name = none := by
    cases hfind : table.find? name with
    | none => rfl
    | some builtin =>
      have := hbuiltins name builtin hfind
      simp only at this
      rw [hunknown] at this
      exact absurd this (by simp)
  have hnew : Symbol.Names table (globals.push name) name ⟨name, .global, slots⟩ :=
    ⟨rfl, by rw [← hsize]; exact Array.getElem?_push_size, huser⟩
  -- what was known at the top level is another name, so it is still there
  have hkept : ∀ (other : String) (symbol : Symbol), level[other]? = some symbol →
      (level.insert name ⟨name, .global, slots⟩)[other]? = some symbol :=
    fun _ _ hs => getElem?_insert_of_missing hunknown hs
  refine ⟨⟨rfl, ?_, fun block hblock other symbol hs => (hblocks block hblock other symbol hs).push
    name, fun other symbol hs => ?_, fun other builtin hother => ?_, ?_⟩, Nat.le_succ _, hkept,
    fun other symbol hs => ?_, fun index other hs => getElem?_push_of_some hs name⟩
  · exact (Array.size_push name).trans (congrArg (· + 1) hsize)
  · rcases getElem?_insert_cases hs with ⟨rfl, rfl⟩ | hs
    · exact .inl hnew
    · rcases hlevel other symbol hs with h | h
      · exact .inl (h.push name)
      · exact .inr h
  · obtain ⟨symbol, hsymbol⟩ := Option.isSome_iff_exists.mp (hbuiltins other builtin hother)
    have := hkept other symbol hsymbol
    exact Option.isSome_iff_exists.mpr ⟨symbol, this⟩
  · obtain ⟨hinner, -, hcross⟩ := List.pairwise_append.mp hapart
    refine List.pairwise_append.mpr ⟨hinner, List.pairwise_singleton _ _, ?_⟩
    intro block hblock other hother n x y hx hy
    obtain rfl : other = level.insert name ⟨name, .global, slots⟩ :=
      List.mem_singleton.mp hother
    rcases getElem?_insert_cases hy with ⟨rfl, rfl⟩ | hy
    · -- the slot is above all that are in use
      have hlt := (hblocks block hblock n x hx).index_lt
      simp only at hlt ⊢
      omega
    · exact hcross block hblock level (by simp) n x y hx hy
  · rcases getElem?_insert_cases hs with ⟨rfl, rfl⟩ | hs
    · exact .inr (Nat.le_refl _)
    · exact .inl hs

/-- The symbol of a name and what is known behind its use. -/
theorem require_grows (h : symbols.Flat table) (name : String) :
    Grows table symbols (symbols.require name).2
      ∧ (symbols.require name).2.table.blocks = symbols.table.blocks
      ∧ (symbols.require name).2.table.lookup? name = some (symbols.require name).1 := by
  cases hlookup : symbols.table.lookup? name with
  | some symbol =>
    rw [require_known h.outer hlookup]
    exact ⟨.refl h, rfl, hlookup⟩
  | none =>
    rw [require_unknown h.outer hlookup]
    refine ⟨.new_global h hlookup, rfl, ?_⟩
    rw [FunctionTable.lookup?, Option.or_eq_none_iff] at hlookup
    rw [FunctionTable.lookup?, Option.or_eq_some_iff]
    refine .inr ⟨hlookup.1, ?_⟩
    show (symbols.table.level.insert name _)[name]? = _
    simp

/-- The symbol that is found for the name of a variable. -/
theorem kind_of_found (h : symbols.Flat table) (huser : table.find? name = none) {symbol : Symbol}
    (hfound : symbols.table.lookup? name = some symbol) : symbol.kind = .global := by
  rw [FunctionTable.lookup?, Option.or_eq_some_iff] at hfound
  rcases hfound with hfound | ⟨-, hfound⟩
  · obtain ⟨block, hblock, hname⟩ := List.exists_of_findSome?_eq_some hfound
    exact (h.blocks block hblock name symbol hname).kind
  · exact (h.names huser hfound).kind

/-- Outside of all blocks a variable is defined as it is used, so both kinds of statements can be
treated by one lemma. -/
theorem define_root (h : symbols.Flat table) (hblocks : symbols.table.blocks = [])
    (huser : table.find? name = none) : symbols.define name = symbols.require name := by
  cases hlookup : symbols.table.lookup? name with
  | some symbol =>
    rw [require_known h.outer hlookup]
    rw [FunctionTable.lookup?, hblocks] at hlookup
    have hlevel : symbols.table.level[name]? = some symbol := by simpa using hlookup
    have hkind := (h.names huser hlevel).kind
    obtain ⟨⟨blocks, level, slots, captured⟩, outer, globals⟩ := symbols
    obtain rfl : outer = [] := h.outer
    obtain rfl : blocks = [] := hblocks
    simp only at hlevel
    simp [define, FunctionTable.innermost?, hlevel, hkind, Option.filter]
  | none =>
    rw [require_unknown h.outer hlookup]
    rw [FunctionTable.lookup?, hblocks] at hlookup
    have hlevel : symbols.table.level[name]? = none := by simpa using hlookup
    obtain ⟨⟨blocks, level, slots, captured⟩, outer, globals⟩ := symbols
    obtain rfl : outer = [] := h.outer
    obtain rfl : blocks = [] := hblocks
    simp only at hlevel
    simp [define, FunctionTable.innermost?, hlevel, FunctionTable.takeSlot, FunctionTable.insert,
      FunctionTable.insertLevel]

/-- **Inside of a block a variable is defined in the block**, if it is not there yet. A name of the
same block keeps its slot, one of a block around gets a new one. -/
theorem define_block (h : symbols.Flat table) {block : Block} {outer : List Block}
    (hblocks : symbols.table.blocks = block :: outer) (huser : table.find? name = none) :
    Grows table symbols (symbols.define name).2
      ∧ ∃ block' : Block, (symbols.define name).2.table.blocks = block' :: outer
        ∧ block'[name]? = some (symbols.define name).1 ∧ block.Adds [name] block' := by
  obtain ⟨⟨blocks, level, slots, captured⟩, outerTables, globals⟩ := symbols
  obtain rfl : outerTables = [] := h.outer
  obtain rfl : blocks = block :: outer := hblocks
  have hsize : globals.size = slots := h.size
  cases hblock : block[name]? with
  | some symbol =>
    have hkind : symbol.kind = .global := (h.blocks block (by simp) name symbol hblock).kind
    have hdefine : define name ⟨⟨block :: outer, level, slots, captured⟩, [], globals⟩
        = (symbol, ⟨⟨block :: outer, level, slots, captured⟩, [], globals⟩) := by
      simp [define, FunctionTable.innermost?, hblock, hkind, Option.filter]
    rw [hdefine]
    refine ⟨.refl h, block, rfl, hblock, fun _ _ h => h, fun _ _ => rfl, fun other hother => ?_⟩
    obtain rfl : other = name := by simpa using hother
    rw [hblock]
    rfl
  | none =>
    have hdefine : define name ⟨⟨block :: outer, level, slots, captured⟩, [], globals⟩
        = (⟨name, .global, slots⟩,
          ⟨⟨block.insert name ⟨name, .global, slots⟩ :: outer, level, slots + 1, captured⟩, [],
            globals.push name⟩) := by
      simp [define, FunctionTable.innermost?, hblock, FunctionTable.takeSlot,
        FunctionTable.insert]
    rw [hdefine]
    have hnew : Symbol.Names table (globals.push name) name ⟨name, .global, slots⟩ :=
      ⟨rfl, by rw [← hsize]; exact Array.getElem?_push_size, huser⟩
    have hself : (block.insert name ⟨name, .global, slots⟩)[name]?
        = some ⟨name, .global, slots⟩ := by simp
    refine ⟨⟨⟨rfl, ?_, fun inner hinner other symbol hs => ?_, fun other symbol hs => ?_,
      h.builtins, ?_⟩, Nat.le_succ _, fun _ _ h => h, fun _ _ h => .inl h,
      fun index other hs => getElem?_push_of_some hs name⟩, _, rfl, hself,
      fun other symbol hs => getElem?_insert_of_missing hblock hs, fun other hne => ?_,
      fun other hmem => ?_⟩
    · exact (Array.size_push name).trans (congrArg (· + 1) hsize)
    · rcases List.mem_cons.mp hinner with rfl | hinner
      · rcases getElem?_insert_cases hs with ⟨rfl, rfl⟩ | hs
        · exact hnew
        · exact (h.blocks block (by simp) other symbol hs).push name
      · exact (h.blocks inner (List.mem_cons_of_mem _ hinner) other symbol hs).push name
    · exact (h.level other symbol hs).imp (·.push name) id
    · obtain ⟨hblock', hrest⟩ := List.pairwise_cons.mp h.apart
      refine List.pairwise_cons.mpr ⟨fun around haround n x y hx hy => ?_, hrest⟩
      rcases getElem?_insert_cases hx with ⟨rfl, rfl⟩ | hx
      · -- the new slot is above those of all blocks around
        have hlt : y.index < globals.size := by
          rcases List.mem_append.mp haround with hmem | hmem
          · exact (h.blocks around (List.mem_cons_of_mem _ hmem) n y hy).index_lt
          · obtain rfl : around = level := List.mem_singleton.mp hmem
            exact (h.names huser hy).index_lt
        simp only
        omega
      · exact hblock' around haround n x y hx hy
    · have hother : name ≠ other := fun heq => hne (List.mem_singleton.mpr heq.symm)
      rw [Std.TreeMap.getElem?_insert, if_neg (by simpa using hother)]
    · obtain rfl : other = name := by simpa using hmem
      rw [hself]
      rfl

/-! ## Before a program

The symbols of the built-in functions come first. Each is inserted into an empty level with its
index, so the induction is on the functions still to be inserted. -/

/-- Two built-in functions of the same name are the same function, since a name is given to one
function only. -/
theorem name_injective {b c : Builtin} (h : b.name = c.name) : b = c := by
  cases b <;> cases c <;> first | rfl | exact absurd h (by decide)

/-- The symbol of a built-in function at its index among `names`. -/
def OnlyBuiltins (names : List String) (level : Block) : Prop :=
  ∀ (name : String) (symbol : Symbol), level[name]? = some symbol →
    symbol.kind = .builtin ∧ names[symbol.index]? = some name

/-- Before anything is compiled only the built-in functions are known, all of them. -/
theorem ofBuiltins_level (names : List String) :
    ∃ level, ofBuiltins names = ⟨⟨[], level, 0, #[]⟩, [], #[]⟩ ∧ OnlyBuiltins names level
      ∧ ∀ name ∈ names, (level[name]?).isSome := by
  have hindices : ∀ pair ∈ names.zipIdx, names[pair.2]? = some pair.1 := fun pair hpair => by
    simpa using List.mem_zipIdx_iff_getElem?.mp hpair
  have hall : ∀ name ∈ names, ∃ index, (name, index) ∈ names.zipIdx := fun name hname => by
    obtain ⟨index, hindex⟩ := List.mem_iff_getElem?.mp hname
    exact ⟨index, List.mem_zipIdx_iff_getElem?.mpr hindex⟩
  -- generalized over the level that the definitions start from, and over the names that are left
  suffices h : ∀ pairs : List (String × Nat), (∀ pair ∈ pairs, names[pair.2]? = some pair.1) →
      ∀ level : Block, OnlyBuiltins names level →
      ∃ level' : Block, pairs.foldl
          (fun (symbols : Symbols) pair => (symbols.defineBuiltin pair.2 pair.1).2)
          (Symbols.mk ⟨[], level, 0, #[]⟩ [] #[]) = Symbols.mk ⟨[], level', 0, #[]⟩ [] #[]
        ∧ OnlyBuiltins names level'
        ∧ (∀ name : String, (level[name]?).isSome → (level'[name]?).isSome)
        ∧ ∀ pair ∈ pairs, (level'[pair.1]?).isSome by
    obtain ⟨level, hlevel, honly, -, hthere⟩ := h names.zipIdx hindices ∅
      fun name symbol hs => absurd hs (by simp)
    refine ⟨level, hlevel, honly, fun name hname => ?_⟩
    obtain ⟨index, hindex⟩ := hall name hname
    exact hthere (name, index) hindex
  intro pairs
  induction pairs with
  | nil => exact fun _ level honly => ⟨level, rfl, honly, fun _ h => h, by simp⟩
  | cons pair pairs ih =>
    intro hpairs level honly
    obtain ⟨level', hlevel', honly', hkept, hthere⟩ := ih
      (fun p hp => hpairs p (List.mem_cons_of_mem _ hp))
      (level.insert pair.1 ⟨pair.1, .builtin, pair.2⟩) fun name symbol hs => by
        -- what the level holds is the new symbol or was there before
        rcases getElem?_insert_cases hs with ⟨rfl, rfl⟩ | hs
        · exact ⟨rfl, hpairs pair (List.mem_cons_self ..)⟩
        · exact honly name symbol hs
    refine ⟨level', hlevel', honly', fun name hname => hkept name ?_, fun p hp => ?_⟩
    · rw [Std.TreeMap.getElem?_insert]
      split
      · rfl
      · exact hname
    · rcases List.mem_cons.mp hp with rfl | hp
      · exact hkept p.1 (by simp)
      · exact hthere p hp

/-- With the built-in functions alone the symbols are flat: there are no variables about which
anything would have to be said. -/
theorem flat_ofBuiltins (table : BuiltinTable) :
    (ofBuiltins (table.map Builtin.name)).Flat table := by
  obtain ⟨level, heq, honly, hthere⟩ := ofBuiltins_level (table.map Builtin.name)
  rw [heq]
  refine ⟨rfl, rfl, fun _ h => absurd h (by simp), fun name symbol hs => .inr ?_,
    fun name builtin hfind => hthere name ?_, List.pairwise_singleton _ _⟩
  · obtain ⟨hkind, hname⟩ := honly name symbol hs
    rw [List.getElem?_map, Option.map_eq_some_iff] at hname
    obtain ⟨b, hb, rfl⟩ := hname
    cases hfind : table.find? b.name with
    | none =>
      have hnone := List.find?_eq_none.mp hfind b (List.mem_of_getElem? hb)
      exact absurd hnone (by simp)
    | some c =>
      have hname := List.find?_some hfind
      obtain rfl : c = b := name_injective (by simpa using hname)
      exact ⟨c, rfl, hkind, hb⟩
  · have hmem := List.mem_of_find?_eq_some hfind
    have hname : builtin.name = name := by simpa using List.find?_some hfind
    exact List.mem_map.mpr ⟨builtin, hmem, hname⟩

end Symbols

/-! ## From point to point

The layout tells at which points the symbols change. Single instructions change none; a name that is
used may become a global; a statement that binds adds its name to the innermost block. -/

section Layout

open Symbols (Grows Flat)

variable {table : BuiltinTable} {code : Code} {constants : Array Value} {a b m : Point}

theorem OpAt.symbols_eq {op : Op} {operands : List Nat} (h : OpAt code op operands a b) :
    b.symbols = a.symbols := by
  obtain ⟨-, rfl⟩ := h
  rfl

theorem EndAt.symbols_eq {ending : Ending} (h : EndAt code ending a b) :
    b.symbols = a.symbols := by
  cases ending with
  | drop => exact OpAt.symbols_eq h
  | keep => exact congrArg Point.symbols (show b = a from h)
  | give => exact OpAt.symbols_eq h

theorem PopsAt.symbols_eq {count : Nat} (h : PopsAt code count a b) : b.symbols = a.symbols := by
  induction count generalizing a with
  | zero => exact congrArg Point.symbols (show b = a from h)
  | succ count ih =>
    obtain ⟨m, hop, hrest⟩ := h
    exact (ih hrest).trans hop.symbols_eq

theorem ConstAt.symbols_eq {value : Value} (h : ConstAt code constants value a b) :
    b.symbols = a.symbols :=
  OpAt.symbols_eq (a := a.addConstant) h.2.2

theorem LoadAt.symbols_eq {symbol : Symbol} (h : LoadAt code symbol a b) :
    b.symbols = a.symbols := by
  unfold LoadAt at h
  split at h
  · exact OpAt.symbols_eq h.2
  all_goals exact OpAt.symbols_eq h

theorem StoreAt.symbols_eq {symbol : Symbol} (hkind : symbol.kind = .global)
    (h : StoreAt code symbol a b) : b.symbols = a.symbols := by
  unfold StoreAt at h
  rw [hkind] at h
  exact OpAt.symbols_eq h.2

theorem ExitAt.symbols_eq {target : Exit → Nat} {exit : Option Exit} {d : Nat}
    (h : ExitAt code target exit d a b) : b.symbols = a.symbols := by
  obtain ⟨e, m, -, hpops, hop, -⟩ := h
  exact hop.symbols_eq.trans hpops.symbols_eq

/-- **From one point to the next more may be known at the top level, while the open blocks stay.**
This is what an expression does. -/
structure Point.Widens (table : BuiltinTable) (a b : Point) : Prop where
  grows : Grows table a.symbols b.symbols
  blocks : b.symbols.table.blocks = a.symbols.table.blocks

/-- **The innermost block comes to know some names.** This is what the statements of a body do. -/
structure Point.Binds (table : BuiltinTable) (names : List String) (a b : Point) : Prop where
  grows : Grows table a.symbols b.symbols
  adds : ∀ block outer, a.symbols.table.blocks = block :: outer →
    ∃ block', b.symbols.table.blocks = block' :: outer ∧ Block.Adds names block block'

theorem Point.Widens.of_eq (hflat : a.symbols.Flat table) (h : b.symbols = a.symbols) :
    a.Widens table b := by
  constructor
  · rw [h]
    exact .refl hflat
  · rw [h]

theorem Point.Widens.trans (h : a.Widens table m) (h' : m.Widens table b) : a.Widens table b :=
  ⟨h.grows.trans h'.grows, h'.blocks.trans h.blocks⟩

theorem Point.Widens.binds (h : a.Widens table b) : a.Binds table [] b :=
  ⟨h.grows, fun block _ hblocks => ⟨block, h.blocks.trans hblocks, .refl block⟩⟩

/-- The names of both parts are added, one list behind the other. -/
theorem Point.Binds.trans {names names' : List String} (h : a.Binds table names m)
    (h' : m.Binds table names' b) : a.Binds table (names ++ names') b := by
  refine ⟨h.grows.trans h'.grows, fun block outer hblocks => ?_⟩
  obtain ⟨inner, hinner, hadds⟩ := h.adds block outer hblocks
  obtain ⟨block', hblock', hadds'⟩ := h'.adds inner outer hinner
  exact ⟨block', hblock', hadds.trans hadds'⟩

theorem Point.Widens.skip (hflat : a.symbols.Flat table) (bytes : Nat) :
    a.Widens table (a.skip bytes) :=
  .of_eq hflat rfl

/-- A branch without a value of its own has a `null` behind it, which changes no symbols. -/
theorem BranchAt.widens {closing : Closing} {body : Ending → Point → Point → Prop}
    (hbody : ∀ ending c, body ending a c → a.Widens table c)
    (h : BranchAt code closing body a b) : a.Widens table b := by
  unfold BranchAt at h
  split at h
  · exact hbody .keep b h
  · obtain ⟨m, hm, hop⟩ := h
    have h₁ := hbody .drop m hm
    exact h₁.trans (.of_eq h₁.grows.flat hop.symbols_eq)

theorem CondAt.widens {test yes no : Point → Point → Prop}
    (htest : ∀ m, test a m → a.Widens table m)
    (hyes : ∀ m n, a.Widens table m → yes m n → m.Widens table n)
    (hno : ∀ m n, a.Widens table m → no m n → m.Widens table n)
    (h : CondAt code test yes no a b) : a.Widens table b := by
  obtain ⟨m, n, ht, -, hy, -, -, -, hn⟩ := h
  have h₁ := htest m ht
  have h₂ := h₁.trans (.skip h₁.grows.flat Op.jumpNotTruthy.size)
  have h₃ := h₂.trans (hyes _ _ h₂ hy)
  have h₄ := h₃.trans (.skip h₃.grows.flat Op.jump.size)
  exact h₄.trans (hno _ _ h₄ hn)

/-- No built-in function is called `quote`, so a call of one is never taken for a quotation. -/
theorem BuiltinTable.name_ne_quote {name : String} (h : (table.find? name).isSome) :
    name ≠ "quote" := by
  rintro rfl
  obtain ⟨builtin, hfind⟩ := Option.isSome_iff_exists.mp h
  have hname := List.find?_some hfind
  cases builtin <;> exact absurd hname (by decide)

theorem Symbols.quotes_builtin (symbols : Symbols) {name : String}
    (h : (table.find? name).isSome) : symbols.quotes (.ident name) = (false, symbols) := by
  have hne := BuiltinTable.name_ne_quote h
  unfold quotes
  split
  · rename_i heq
    exact absurd (Expr.ident.inj heq) hne
  · rfl

/-- A value that is no function is computed before its name is defined. -/
theorem StmtAt.bind_value {exit : Option Exit} {ending : Ending} {d : Nat} {name : String}
    {value : Expr} {root : Bool} {later : List String} (hplain : value.plain table root later)
    (h : StmtAt code constants exit ending d (.bind name value) a b) :
    ∃ m, ExprAt code constants exit d value a m
      ∧ StoreAt code (m.symbols.define name).1 (m.withSymbols (m.symbols.define name).2) b := by
  cases value with
  | fn params body => exact absurd hplain (by simp [Expr.plain])
  | _ => exact h

theorem StoreAt.define_binds (hflat : a.symbols.Flat table) {name : String}
    (huser : table.find? name = none)
    (h : StoreAt code (a.symbols.define name).1 (a.withSymbols (a.symbols.define name).2) b) :
    a.Binds table [name] b := by
  cases hblocks : a.symbols.table.blocks with
  | nil =>
    have hroot := Symbols.define_root hflat hblocks huser
    rw [hroot] at h
    obtain ⟨hgrows, -, hfound⟩ := Symbols.require_grows hflat name
    have heq := h.symbols_eq (Symbols.kind_of_found hgrows.flat huser hfound)
    refine ⟨by rwa [heq], fun block outer hcons => ?_⟩
    exact absurd (hblocks.symm.trans hcons) (by simp)
  | cons block outer =>
    obtain ⟨hgrows, block', hblocks', hself, hadds⟩ :=
      Symbols.define_block hflat hblocks huser
    have hkind := (hgrows.flat.blocks block' (by rw [hblocks']; simp) name _ hself).kind
    have heq := h.symbols_eq hkind
    refine ⟨by rwa [heq], fun inner around hcons => ?_⟩
    obtain ⟨rfl, rfl⟩ := List.cons.inj (hblocks.symm.trans hcons)
    exact ⟨block', (congrArg (·.table.blocks) heq).trans hblocks', hadds⟩

theorem StoreAt.require_widens (hflat : a.symbols.Flat table) {name : String}
    (huser : table.find? name = none)
    (h : StoreAt code (a.symbols.require name).1 (a.withSymbols (a.symbols.require name).2) b) :
    a.Widens table b := by
  obtain ⟨hgrows, hblocks, hfound⟩ := Symbols.require_grows hflat name
  have heq := h.symbols_eq (Symbols.kind_of_found hgrows.flat huser hfound)
  exact ⟨by rwa [heq], by rw [heq]; exact hblocks⟩

theorem StoreAt.define_root (hflat : a.symbols.Flat table)
    (hblocks : a.symbols.table.blocks = []) {name : String} (huser : table.find? name = none)
    (h : StoreAt code (a.symbols.define name).1 (a.withSymbols (a.symbols.define name).2) b) :
    a.Widens table b := by
  rw [Symbols.define_root hflat hblocks huser] at h
  exact h.require_widens hflat huser

/-- A statement that may be no `let` binds nothing. -/
theorem Stmt.binds_eq_nil {s : Stmt} {root : Bool} {later : List String}
    (h : s.plain table root false later) : s.binds = [] := by
  cases s with
  | bind name value => exact absurd h (by simp [Stmt.plain])
  | _ => rfl

mutual

/-- **An expression leaves the open blocks as they are.** A condition may contain statements that
bind, but outside of loops these bind at the top level, and inside of loops a plain program has none
in a branch. -/
theorem ExprAt.widens {exit : Option Exit} {root : Bool} {later : List String} :
    (e : Expr) → e.plain table root later → ∀ {d : Nat} {a b : Point},
      (root = true → a.symbols.table.blocks = []) → a.symbols.Flat table →
      ExprAt code constants exit d e a b → a.Widens table b
  | .int _, _, _, _, _, _, hflat, h | .float _, _, _, _, _, _, hflat, h
  | .str _, _, _, _, _, _, hflat, h => .of_eq hflat (ConstAt.symbols_eq h)
  | .bool _, _, _, _, _, _, hflat, h => .of_eq hflat (OpAt.symbols_eq h)
  | .ident name, _, _, a, b, _, hflat, h => by
    obtain ⟨hgrows, hblocks, -⟩ := Symbols.require_grows hflat name
    have heq : b.symbols = (a.symbols.require name).2 := LoadAt.symbols_eq h
    exact ⟨by rwa [heq], by rw [heq, hblocks]⟩
  -- the operands in the order in which they are compiled, for a comparison from the right
  | .infixOp left op right, hplain, d, a, b, hroot, hflat, h => by
    simp only [Expr.plain, Bool.and_eq_true] at hplain
    rw [ExprAt] at h
    split at h
    · obtain ⟨m, n, hright, hleft, hop⟩ := h
      have h₁ := ExprAt.widens right hplain.2 hroot hflat hright
      have h₂ := ExprAt.widens left hplain.1 (fun h => h₁.blocks.trans (hroot h)) h₁.grows.flat
        hleft
      exact (h₁.trans h₂).trans (.of_eq h₂.grows.flat hop.symbols_eq)
    · obtain ⟨o, m, n, -, hleft, hright, hop⟩ := h
      have h₁ := ExprAt.widens left hplain.1 hroot hflat hleft
      have h₂ := ExprAt.widens right hplain.2 (fun h => h₁.blocks.trans (hroot h)) h₁.grows.flat
        hright
      exact (h₁.trans h₂).trans (.of_eq h₂.grows.flat hop.symbols_eq)
  | .prefixOp op operand, hplain, d, a, b, hroot, hflat, h => by
    obtain ⟨o, m, -, hoperand, hop⟩ := h
    have h₁ := ExprAt.widens operand hplain hroot hflat hoperand
    exact h₁.trans (.of_eq h₁.grows.flat hop.symbols_eq)
  | .cond test yes no, hplain, d, a, b, hroot, hflat, h => by
    simp only [Expr.plain, Bool.and_eq_true] at hplain
    obtain ⟨⟨htest, hyes⟩, hno⟩ := hplain
    cases no with
    | none =>
      exact CondAt.widens (fun m => ExprAt.widens test htest hroot hflat)
        (fun m n hm hn => BranchAt.widens (fun ending c => StmtsAt.widens yes hyes
          (fun h => hm.blocks.trans (hroot h)) hm.grows.flat) hn)
        (fun m n hm hn => .of_eq hm.grows.flat (OpAt.symbols_eq hn)) h
    | some no =>
      exact CondAt.widens (fun m => ExprAt.widens test htest hroot hflat)
        (fun m n hm hn => BranchAt.widens (fun ending c => StmtsAt.widens yes hyes
          (fun h => hm.blocks.trans (hroot h)) hm.grows.flat) hn)
        (fun m n hm hn => BranchAt.widens (fun ending c => StmtsAt.widens no hno
          (fun h => hm.blocks.trans (hroot h)) hm.grows.flat) hn) h
  | .array elements, hplain, d, a, b, hroot, hflat, h => by
    obtain ⟨m, helements, -, hop⟩ := h
    have h₁ := ExprsAt.widens elements hplain hroot hflat helements
    exact h₁.trans (.of_eq h₁.grows.flat hop.symbols_eq)
  | .hash pairs, hplain, d, a, b, hroot, hflat, h => by
    obtain ⟨m, hpairs, -, hop⟩ := h
    have h₁ := PairsAt.widens pairs hplain hroot hflat hpairs
    exact h₁.trans (.of_eq h₁.grows.flat hop.symbols_eq)
  | .index left subscript, hplain, d, a, b, hroot, hflat, h => by
    simp only [Expr.plain, Bool.and_eq_true] at hplain
    obtain ⟨m, n, hleft, hsubscript, hop⟩ := h
    have h₁ := ExprAt.widens left hplain.1 hroot hflat hleft
    have h₂ := ExprAt.widens subscript hplain.2 (fun h => h₁.blocks.trans (hroot h))
      h₁.grows.flat hsubscript
    exact (h₁.trans h₂).trans (.of_eq h₂.grows.flat hop.symbols_eq)
  | .fn _ _, hplain, _, _, _, _, _, _ => absurd hplain (by simp [Expr.plain])
  | .call callee args, hplain, d, a, b, hroot, hflat, h => by
    cases callee with
    | ident name =>
      simp only [Expr.plain, Bool.and_eq_true] at hplain
      rw [ExprAt, Symbols.quotes_builtin a.symbols hplain.1.1] at h
      obtain ⟨m, n, hcallee, hargs, -, hop⟩ := h
      obtain ⟨hgrows, hblocks, -⟩ := Symbols.require_grows hflat name
      have heq : m.symbols = (a.symbols.require name).2 := LoadAt.symbols_eq hcallee
      have h₁ : a.Widens table m := ⟨by rwa [heq], by rw [heq, hblocks]⟩
      have h₂ := ExprsAt.widens args hplain.2 (fun h => h₁.blocks.trans (hroot h)) h₁.grows.flat
        hargs
      exact (h₁.trans h₂).trans (.of_eq h₂.grows.flat hop.symbols_eq)
    | _ => exact absurd hplain (by simp [Expr.plain])

theorem ExprsAt.widens {exit : Option Exit} {root : Bool} {later : List String} :
    (es : List Expr) → Expr.plainAll table root later es → ∀ {d : Nat} {a b : Point},
      (root = true → a.symbols.table.blocks = []) → a.symbols.Flat table →
      ExprsAt code constants exit d es a b → a.Widens table b
  | [], _, _, _, _, _, hflat, h => by
    obtain rfl := h
    exact .of_eq hflat rfl
  | e :: rest, hplain, _, _, _, hroot, hflat, h => by
    simp only [Expr.plainAll, Bool.and_eq_true] at hplain
    obtain ⟨m, he, hrest⟩ := h
    have h₁ := ExprAt.widens e hplain.1 hroot hflat he
    exact h₁.trans (ExprsAt.widens rest hplain.2 (fun h => h₁.blocks.trans (hroot h))
      h₁.grows.flat hrest)

theorem PairsAt.widens {exit : Option Exit} {root : Bool} {later : List String} :
    (pairs : List (Expr × Expr)) → Expr.plainPairs table root later pairs →
      ∀ {d : Nat} {a b : Point}, (root = true → a.symbols.table.blocks = []) →
      a.symbols.Flat table → PairsAt code constants exit d pairs a b → a.Widens table b
  | [], _, _, _, _, _, hflat, h => by
    obtain rfl := h
    exact .of_eq hflat rfl
  | (key, value) :: rest, hplain, _, _, _, hroot, hflat, h => by
    simp only [Expr.plainPairs, Bool.and_eq_true] at hplain
    obtain ⟨m, n, hkey, hvalue, hrest⟩ := h
    have h₁ := ExprAt.widens key hplain.1.1 hroot hflat hkey
    have h₂ := h₁.trans (ExprAt.widens value hplain.1.2 (fun h => h₁.blocks.trans (hroot h))
      h₁.grows.flat hvalue)
    exact h₂.trans (PairsAt.widens rest hplain.2 (fun h => h₂.blocks.trans (hroot h))
      h₂.grows.flat hrest)

/-- **A statement adds to the innermost block the name that it binds**, and no more. Outside of all
loops there is no block, so it only adds to the top level. -/
theorem StmtAt.widens {exit : Option Exit} {root direct : Bool} {later : List String} :
    (s : Stmt) → s.plain table root direct later → ∀ {ending : Ending} {d : Nat} {a b : Point},
      (root = true → a.symbols.table.blocks = []) → a.symbols.Flat table →
      StmtAt code constants exit ending d s a b →
      a.Binds table s.binds b ∧ (root = true ∨ s.binds = [] → a.Widens table b)
  | .expr value, hplain, _, _, _, _, hroot, hflat, h => by
    obtain ⟨m, hvalue, hend⟩ := h
    have h₁ := ExprAt.widens value hplain hroot hflat hvalue
    have h₂ := h₁.trans (.of_eq h₁.grows.flat hend.symbols_eq)
    exact ⟨h₂.binds, fun _ => h₂⟩
  | .bind name value, hplain, _, _, a, b, hroot, hflat, h => by
    simp only [Stmt.plain, Bool.and_eq_true, Option.isNone_iff_eq_none] at hplain
    obtain ⟨⟨-, huser⟩, hvalue⟩ := hplain
    obtain ⟨m, hm, hstore⟩ := StmtAt.bind_value hvalue h
    have h₁ := ExprAt.widens value hvalue hroot hflat hm
    -- in a loop the block gets the name, outside of loops the top level
    exact ⟨h₁.binds.trans (StoreAt.define_binds h₁.grows.flat huser hstore), fun hwhere => by
      rcases hwhere with rfl | hbinds
      · exact h₁.trans (StoreAt.define_root h₁.grows.flat (h₁.blocks.trans (hroot rfl)) huser
          hstore)
      · exact absurd hbinds (by simp [Stmt.binds])⟩
  | .assign name value, hplain, _, _, _, _, hroot, hflat, h => by
    simp only [Stmt.plain, Bool.and_eq_true, Option.isNone_iff_eq_none] at hplain
    obtain ⟨⟨huser, -⟩, hvalue⟩ := hplain
    obtain ⟨m, hm, hstore⟩ := h
    have h₁ := ExprAt.widens value hvalue hroot hflat hm
    have h₂ := h₁.trans (StoreAt.require_widens h₁.grows.flat huser hstore)
    exact ⟨h₂.binds, fun _ => h₂⟩
  | .ret value, hplain, _, _, _, _, hroot, hflat, h => by
    obtain ⟨m, hvalue, hop⟩ := h
    have h₁ := ExprAt.widens value hplain hroot hflat hvalue
    have h₂ := h₁.trans (.of_eq h₁.grows.flat hop.symbols_eq)
    exact ⟨h₂.binds, fun _ => h₂⟩
  | .block _, hplain, _, _, _, _, _, _, _ => absurd hplain (by simp [Stmt.plain])
  | .loop init test post body, hplain, _, _, a, b, hroot, hflat, h => by
    simp only [Stmt.plain, Bool.and_eq_true] at hplain
    obtain ⟨⟨⟨hinit, htest⟩, hpost⟩, hbody⟩ := hplain
    obtain ⟨m, ⟨m₁, m₂, m₃, m₄, h₁, h₂, -, h₃, h₄, -, -, -, h₅⟩, hend⟩ := h
    have hinner := hflat.enterBlock
    have hw₁ := (StmtAt.widens init hinit (fun h => absurd h (by simp)) hinner h₁).1
    have hw₂ := ExprAt.widens test htest (fun h => absurd h (by simp)) hw₁.grows.flat h₂
    have hw₃ := StmtsAt.binds body hbody
      (a := m₂.skip Op.jumpNotTruthy.size) hw₂.grows.flat h₃
    have hw₄ := (StmtAt.widens post hpost (fun h => absurd h (by simp)) hw₃.grows.flat h₄).2
      (.inr (Stmt.binds_eq_nil hpost))
    have hw := (hw₁.trans (hw₂.trans (.skip hw₂.grows.flat _)).binds).trans
      (hw₃.trans hw₄.binds)
    have hm : m.symbols = m₄.symbols := h₅.symbols_eq
    have hb : b.symbols = m₄.symbols.leaveBlock := by
      rw [hend.symbols_eq]
      exact congrArg Symbols.leaveBlock hm
    -- what the loop has bound is gone with its block
    have hwide : a.Widens table b := by
      constructor
      · rw [hb]
        exact ((Grows.enterBlock hflat).trans hw.grows).trans (.leaveBlock hw.grows.flat)
      · obtain ⟨block', hblock', -⟩ := hw.adds ∅ a.symbols.table.blocks rfl
        rw [hb]
        show m₄.symbols.table.blocks.tail = _
        rw [hblock']
        rfl
    exact ⟨hwide.binds, fun _ => hwide⟩
  | .breakLoop, _, _, _, _, _, _, hflat, h | .continueLoop, _, _, _, _, _, _, hflat, h =>
    have hwide := Point.Widens.of_eq hflat (ExitAt.symbols_eq h)
    ⟨hwide.binds, fun _ => hwide⟩

/-- The statements of a branch, or those outside of all loops: none of them binds in a block. -/
theorem StmtsAt.widens {exit : Option Exit} {root : Bool} {later : List String} :
    (body : List Stmt) → Stmt.plainAll table root later body →
      ∀ {ending : Ending} {d : Nat} {a b : Point}, (root = true → a.symbols.table.blocks = []) →
      a.symbols.Flat table → StmtsAt code constants exit ending d body a b → a.Widens table b
  | [], _, _, _, _, _, _, hflat, h => by
    obtain rfl := h
    exact .of_eq hflat rfl
  | s :: rest, hplain, _, _, a, b, hroot, hflat, h => by
    simp only [Stmt.plainAll, Bool.and_eq_true] at hplain
    have hbinds : root = true ∨ s.binds = [] := by
      cases root with
      | true => exact .inl rfl
      | false => exact .inr (Stmt.binds_eq_nil hplain.1)
    obtain ⟨m, h⟩ := h
    split at h
    all_goals
      have h₁ := (StmtAt.widens s hplain.1 hroot hflat h.1).2 hbinds
      exact h₁.trans (StmtsAt.widens rest hplain.2 (fun h => h₁.blocks.trans (hroot h))
        h₁.grows.flat h.2)

/-- **The body of a loop adds the names that its statements bind.** A loop inside of it binds in a
block of its own, which is gone behind it. -/
theorem StmtsAt.binds {exit : Option Exit} {bound later : List String} :
    (body : List Stmt) → Stmt.plainBody table bound later body →
      ∀ {ending : Ending} {d : Nat} {a b : Point}, a.symbols.Flat table →
      StmtsAt code constants exit ending d body a b →
      a.Binds table (body.flatMap Stmt.binds) b
  | [], _, _, _, _, _, hflat, h => by
    obtain rfl := h
    exact (Point.Widens.of_eq hflat rfl).binds
  | s :: rest, hplain, _, _, a, b, hflat, h => by
    simp only [Stmt.plainBody, Bool.and_eq_true] at hplain
    obtain ⟨m, h⟩ := h
    split at h
    all_goals
      have h₁ := (StmtAt.widens s hplain.1 (fun h => absurd h (by simp)) hflat h.1).1
      exact h₁.trans (StmtsAt.binds rest hplain.2 h₁.grows.flat h.2)

end

end Layout

end Scriptlet
