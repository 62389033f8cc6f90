import Scriptlet.Proofs.Names.Occurrences
import Scriptlet.Proofs.Symbols.Globals
import Scriptlet.Proofs.Symbols.Slots

/-!
# The names of places

Every place that the code of a function can refer to belongs to one name: a slot to the name that it
was taken for, a free symbol to the captured name, and globals and built-in functions to theirs.
`Places` lists them for one function. The symbols do not keep the names of slots of functions, since
the blocks that they were taken in are forgotten, so these names run along with the symbols: a
`Layer` for each open function, innermost first (`Symbols.Labelled`).

A name may be fixed in a function: it has one place there, which nothing in the text gives to
another variable. That of a built-in function is fixed at the top level, that of a parameter in its
function, and both in all functions inside. A layer says of which kind the place is.

The module shows that every step of the compiler on its symbols keeps them labelled, as long as it
does not bind a fixed name. Places are only ever added behind the ones that are there
(`Places.Grows`), so what an instruction refers to keeps its name until the code is finished.
-/

namespace Scriptlet

/-! ## Places

The places of one function, as four lists of names. An index into one of them is what an instruction
has as its operand. -/

/-- The names of the places that the code of a function can refer to, in the order of their
indices. -/
structure Places where
  builtins : List String
  globals : List String
  slots : List String
  free : List String

/-- The name of a place. -/
def Places.name? (places : Places) : SymbolKind → (index : Nat) → Option String
  | .builtin, index => places.builtins[index]?
  | .global, index => places.globals[index]?
  | .slot, index => places.slots[index]?
  | .free, index => places.free[index]?

/-- The name of a place that a closure captures. -/
def Places.captured? (places : Places) : Capture → Option String
  | .slot index => places.slots[index]?
  | .free index => places.free[index]?

/-- Places to which others have been added behind. -/
structure Places.Grows (places places' : Places) : Prop where
  builtins : places'.builtins = places.builtins
  globals : places.globals <+: places'.globals
  slots : places.slots <+: places'.slots
  free : places.free <+: places'.free

/-- A symbol that stands for a place of its own name. Both parts are needed: the first says what the
compiler took it for, the second that the place belongs to that name. -/
def Symbol.Denotes (symbol : Symbol) (places : Places) (name : String) : Prop :=
  symbol.name = name ∧ places.name? symbol.kind symbol.index = some name

/-- What stands in a list stands in every longer one. -/
theorem getElem?_of_prefix {α : Type} {as bs : List α} (h : as <+: bs) {index : Nat} {a : α}
    (ha : as[index]? = some a) : bs[index]? = some a := by
  obtain ⟨more, rfl⟩ := h
  rwa [List.getElem?_append_left (List.getElem?_eq_some_iff.mp ha).1]

/-- The next place of a list is that behind its end. -/
theorem getElem?_concat_of_length {names : List String} {name : String} {index : Nat}
    (h : names.length = index) : (names ++ [name])[index]? = some name := by
  rw [← h]
  exact List.getElem?_concat_length

namespace Places.Grows

variable {places places' places'' : Places} {name : String}

theorem refl (places : Places) : places.Grows places :=
  ⟨rfl, List.prefix_refl _, List.prefix_refl _, List.prefix_refl _⟩

theorem trans (h : places.Grows places') (h' : places'.Grows places'') : places.Grows places'' :=
  ⟨h'.builtins.trans h.builtins, h.globals.trans h'.globals, h.slots.trans h'.slots,
    h.free.trans h'.free⟩

theorem name? (h : places.Grows places') {kind : SymbolKind} {index : Nat}
    (hname : places.name? kind index = some name) : places'.name? kind index = some name := by
  cases kind with
  | builtin => rwa [Places.name?, h.builtins]
  | global => exact getElem?_of_prefix h.globals hname
  | slot => exact getElem?_of_prefix h.slots hname
  | free => exact getElem?_of_prefix h.free hname

theorem captured? (h : places.Grows places') {capture : Capture}
    (hname : places.captured? capture = some name) : places'.captured? capture = some name := by
  cases capture with
  | slot index => exact getElem?_of_prefix h.slots hname
  | free index => exact getElem?_of_prefix h.free hname

/-- Captured places keep their names, all of them at once. -/
theorem map_captured? (h : places.Grows places') {captures : List Capture} {free : List String}
    (heq : captures.map places.captured? = free.map some) :
    captures.map places'.captured? = free.map some := by
  rw [← heq]
  refine List.map_congr_left fun capture hcapture => ?_
  have hmem := List.mem_map_of_mem (f := places.captured?) hcapture
  rw [heq] at hmem
  obtain ⟨name, -, hname⟩ := List.mem_map.mp hmem
  rw [← hname, h.captured? hname.symm]

theorem denotes (h : places.Grows places') {symbol : Symbol}
    (hsymbol : symbol.Denotes places name) : symbol.Denotes places' name :=
  ⟨hsymbol.1, h.name? hsymbol.2⟩

end Places.Grows

/-! ## Fixed names

Which names are fixed is decided by the text alone, before anything is compiled: from the outside
in, a parameter is fixed in its function if the body does not rebind it. What the compiler then does
must keep to it, which is what `Layer.Keeps` says. -/

/-- The names that are fixed in a function, with the kind of the place that each has there. -/
abbrev Fixed := String → Option SymbolKind

/-- The kind of a place, seen from a function inside: slots and free places of a function around are
captured, while globals and built-in functions are the same everywhere. -/
def SymbolKind.inside : SymbolKind → SymbolKind
  | .slot | .free => .free
  | .global => .global
  | .builtin => .builtin

/-- What is fixed in a function from around it. -/
def Fixed.passed (fixed : Fixed) (params : List String) : Fixed := fun name =>
  if name ∈ params then none else (fixed name).map SymbolKind.inside

/-- **What is fixed in a function**: the parameters that its body does not rebind, if no name occurs
twice, and what is fixed around it. A parameter hides what is fixed around it under the same
name. -/
def Fixed.inside (fixed : Fixed) (params : List String) (body : List Stmt) : Fixed := fun name =>
  if name ∈ params ∧ params.Nodup ∧ Stmt.rebindsAny name body = false then some .slot
  else fixed.passed params name

/-- What is fixed in a function is not rebound there, if what is fixed around it is not. -/
theorem Fixed.inside_kept {fixed : Fixed} {params : List String} {body : List Stmt} {name : String}
    {kind : SymbolKind}
    (h : ∀ kind, fixed name = some kind → Stmt.rebindsAny name body = false)
    (hname : fixed.inside params body name = some kind) : Stmt.rebindsAny name body = false := by
  unfold Fixed.inside Fixed.passed at hname
  split at hname
  · rename_i hparam
    exact hparam.2.2
  · split at hname
    · cases hname
    · obtain ⟨kind', hkind, -⟩ := Option.map_eq_some_iff.mp hname
      exact h kind' hkind

/-- An open function: what is fixed in it, and the names of its slots. -/
structure Layer where
  fixed : Fixed
  names : List String

/-- Outside of everything nothing is fixed. -/
def Layer.outside : Layer :=
  ⟨fun _ => none, []⟩

/-- What is fixed in the first of some layers. -/
def fixedIn (layers : List Layer) : Fixed :=
  (layers.headD .outside).fixed

/-- The names of the symbols that a function captures. -/
def FunctionTable.freeNames (table : FunctionTable) : List String :=
  table.captured.toList.map Symbol.name

/-- **The table of a function keeps to what is fixed in it.** Whatever is held for a fixed name is
of the kind of its place; the fields `outward` and `inward` relate the kinds to those around. -/
structure Layer.Keeps (layer : Layer) (around : Fixed) (table : FunctionTable) : Prop where
  held : ∀ name kind, layer.fixed name = some kind → ∀ symbol, table.HoldsFor name symbol →
    symbol.kind = kind
  slots : ∀ name kind, layer.fixed name = some kind → name ∈ layer.names → kind = .slot
  free : ∀ name kind, layer.fixed name = some kind → name ∈ table.freeNames → kind = .free
  /-- A name that has a slot has no other, and is known outside of all blocks. -/
  own : ∀ name, layer.fixed name = some .slot → name ∈ table.level
    ∧ ∀ i j : Nat, layer.names[i]? = some name → layer.names[j]? = some name → i = j
  outward : ∀ name kind, layer.fixed name = some kind →
    kind = .slot ∨ ∃ kind', around name = some kind' ∧ kind'.inside = kind
  inward : ∀ name kind, around name = some kind → layer.fixed name = some kind.inside

/-- The table of a function in which only parameters are known, which is its state while they are
defined. -/
structure FunctionTable.Opened (params : List String) (table : FunctionTable) : Prop where
  blocks : table.blocks = []
  captured : table.captured = #[]
  held : ∀ name symbol, table.HoldsFor name symbol → symbol.kind = .slot
  level : ∀ name ∈ params, name ∈ table.level

/-! ## Labelled tables

The tables of all open functions, from the innermost one out to the top level, each with its layer.
Captured variables connect one with the next. -/

/-- **Every symbol of a function stands under its own name, which is that of its place.** All blocks
are covered, and what they hide as well. -/
def FunctionTable.Labelled (places : Places) (table : FunctionTable) : Prop :=
  ∀ name symbol, table.HoldsFor name symbol → symbol.Denotes places name

/-- The places of the first of some tables, whose slots have the names of the first layer. -/
def placesOf (builtins globals : List String) (layers : List Layer)
    (tables : List FunctionTable) : Places :=
  ⟨builtins, globals, (layers.headD .outside).names,
    (tables.head?.map FunctionTable.freeNames).getD []⟩

/-- **All tables are labelled and keep to what is fixed.** The slots of the top level are the global
ones, and only built-in functions are fixed there. For a function inside of another one, what it
captures has the same name around it. -/
inductive LabelledAll (builtins globals : List String) : List Layer → List FunctionTable → Prop
  | top {fixed : Fixed} {table : FunctionTable} :
    table.captured = #[] → globals.length = table.slots →
    table.Labelled ⟨builtins, globals, [], []⟩ →
    (∀ name kind, fixed name = some kind →
      kind = .builtin ∧ name ∈ table.level ∧ name ∉ globals) →
    LabelledAll builtins globals [⟨fixed, []⟩] [table]
  | nested {layer : Layer} {layers : List Layer} {table : FunctionTable}
    {outer : List FunctionTable} :
    layer.names.length = table.slots →
    table.Labelled ⟨builtins, globals, layer.names, table.freeNames⟩ →
    (∀ symbol ∈ table.captured, (placesOf builtins globals layers outer).captured?
      (Compilation.captureOf symbol) = some symbol.name) →
    layer.Keeps (fixedIn layers) table →
    LabelledAll builtins globals layers outer →
    LabelledAll builtins globals (layer :: layers) (table :: outer)

section Tables

variable {builtins globals : List String} {layers : List Layer} {table table' : FunctionTable}
  {outer : List FunctionTable} {places places' : Places}

theorem FunctionTable.Labelled.grow (h : table.Labelled places) (hgrows : places.Grows places') :
    table.Labelled places' := by
  exact fun name symbol hheld => hgrows.denotes (h name symbol hheld)

/-- A symbol is entered for a place that has its name; every other symbol was there before. -/
theorem FunctionTable.Labelled.enter (symbol : Symbol) (h : table.Labelled places)
    (hgrows : places.Grows places')
    (hholds : ∀ name other, table'.HoldsFor name other →
      name = symbol.name ∧ other = symbol ∨ table.HoldsFor name other)
    (hsymbol : places'.name? symbol.kind symbol.index = some symbol.name) :
    table'.Labelled places' := by
  intro name other hother
  rcases hholds name other hother with ⟨rfl, rfl⟩ | hheld
  · exact ⟨rfl, hsymbol⟩
  · exact h.grow hgrows name other hheld

/-- Opening or closing blocks makes no symbols. -/
theorem FunctionTable.holdsFor_of_blocks {blocks : List Block}
    (hblocks : ∀ block ∈ blocks, block = ∅ ∨ block ∈ table.blocks) {name : String}
    {symbol : Symbol} (h : ({ table with blocks } : FunctionTable).HoldsFor name symbol) :
    table.HoldsFor name symbol := by
  obtain ⟨block, hblock, hname⟩ := h
  rcases List.mem_cons.mp hblock with rfl | hblock
  · exact ⟨_, List.mem_cons_self, hname⟩
  · rcases hblocks block hblock with rfl | hblock
    · simp at hname
    · exact ⟨block, List.mem_cons_of_mem _ hblock, hname⟩

theorem FunctionTable.freeNames_of_captured (h : table'.captured = table.captured) :
    table'.freeNames = table.freeNames := by
  rw [freeNames, freeNames, h]

/-- A name that is known outside of all blocks stays so when others are entered. -/
theorem FunctionTable.mem_level_insert {name : String} (symbol : Symbol) (h : name ∈ table.level) :
    name ∈ (table.takeSlot.insert symbol).level := by
  obtain ⟨_ | ⟨block, blocks⟩, level, slots, captured⟩ := table
  · exact Std.TreeMap.mem_insert.mpr (.inr h)
  · exact h

theorem FunctionTable.not_holdsFor_empty (name : String) (symbol : Symbol) :
    ¬ FunctionTable.empty.HoldsFor name symbol := by
  rintro ⟨block, hblock, hname⟩
  obtain rfl : block = ∅ := List.mem_singleton.mp hblock
  simp at hname

/-- A name that is known outside of all blocks is found. -/
theorem FunctionTable.lookup?_ne_none_of_level {name : String} (h : name ∈ table.level) :
    table.lookup? name ≠ none := by
  intro hnone
  obtain ⟨-, hlevel⟩ := Option.or_eq_none_iff.mp hnone
  rw [Std.TreeMap.mem_iff_isSome_getElem?, hlevel] at h
  exact Bool.false_ne_true h

namespace Layer.Keeps

variable {layer : Layer} {around : Fixed} {name : String}

theorem of_blocks {blocks : List Block} (h : layer.Keeps around table)
    (hblocks : ∀ block ∈ blocks, block = ∅ ∨ block ∈ table.blocks) :
    layer.Keeps around { table with blocks } :=
  { h with held := fun name kind hfixed symbol hheld =>
      h.held name kind hfixed symbol (FunctionTable.holdsFor_of_blocks hblocks hheld) }

/-- **A slot is taken for a name that is not fixed.** The new slot has a name of its own, so a fixed
name still has only one. -/
theorem insert (h : layer.Keeps around table) (hname : layer.fixed name = none) :
    Layer.Keeps ⟨layer.fixed, layer.names ++ [name]⟩ around
      (table.takeSlot.insert ⟨name, .slot, table.slots⟩) where
  held other kind hfixed symbol hheld := by
    rcases Symbols.holdsFor_of_insert table.takeSlot hheld with ⟨rfl, -⟩ | hheld
    · exact absurd (hname.symm.trans hfixed) (by simp)
    · exact h.held other kind hfixed symbol hheld
  slots other kind hfixed hmem := by
    rcases List.mem_append.mp hmem with hmem | hmem
    · exact h.slots other kind hfixed hmem
    · obtain rfl := List.mem_singleton.mp hmem
      exact absurd (hname.symm.trans hfixed) (by simp)
  free other kind hfixed hmem := by
    obtain ⟨-, hcaptured, -⟩ := Symbols.extends_takeSlot_insert table ⟨name, .slot, table.slots⟩
    rw [FunctionTable.freeNames_of_captured hcaptured] at hmem
    exact h.free other kind hfixed hmem
  own other hfixed := by
    obtain ⟨hlevel, honce⟩ := h.own other hfixed
    -- the new slot has another name
    have hold : ∀ i : Nat, (layer.names ++ [name])[i]? = some other →
        layer.names[i]? = some other := by
      intro i hi
      rcases Nat.lt_or_ge i layer.names.length with hlt | hge
      · rwa [List.getElem?_append_left hlt] at hi
      · rw [List.getElem?_append_right hge] at hi
        obtain rfl := List.mem_singleton.mp (List.mem_of_getElem? hi)
        exact absurd (hname.symm.trans hfixed) (by simp)
    exact ⟨FunctionTable.mem_level_insert _ hlevel, fun i j hi hj =>
      honce i j (hold i hi) (hold j hj)⟩
  outward := h.outward
  inward := h.inward

/-- A name is captured that is not fixed, or belongs to a function around. -/
theorem capture {symbol : Symbol} (h : layer.Keeps around table)
    (hsymbol : ∀ kind, layer.fixed symbol.name = some kind → kind = .free) :
    layer.Keeps around (table.capture symbol).2 := by
  obtain ⟨blocks, level, count, captured⟩ := table
  refine ⟨fun name kind hfixed other hheld => ?_, h.slots, fun name kind hfixed hmem => ?_,
    fun name hfixed => ?_, h.outward, h.inward⟩
  · rcases Symbols.holdsFor_of_insertLevel ⟨blocks, level, count, captured.push symbol⟩ hheld with
      ⟨rfl, rfl⟩ | hheld
    · exact (hsymbol kind hfixed).symm
    · exact h.held name kind hfixed other hheld
  · simp only [FunctionTable.freeNames, FunctionTable.capture, Array.toList_push, List.map_append,
      List.map_cons, List.map_nil, List.mem_append, List.mem_singleton] at hmem
    rcases hmem with hmem | rfl
    · exact h.free name kind hfixed hmem
    · exact hsymbol kind hfixed
  -- a slot of a fixed name stays the only one, for capturing takes none
  · obtain ⟨hlevel, honce⟩ := h.own name hfixed
    exact ⟨Std.TreeMap.mem_insert.mpr (.inr hlevel), honce⟩

/-- A function that is entered keeps to what is fixed around it, which no parameter hides. -/
theorem empty {params : List String}
    (hparams : ∀ name kind, around name = some kind → name ∉ params) :
    Layer.Keeps ⟨around.passed params, []⟩ around .empty := by
  have hpassed : ∀ name kind, around.passed params name = some kind →
      ∃ kind', around name = some kind' ∧ kind'.inside = kind := by
    intro name kind hfixed
    unfold Fixed.passed at hfixed
    split at hfixed
    · cases hfixed
    · exact Option.map_eq_some_iff.mp hfixed
  refine ⟨fun name kind _ symbol hheld =>
      absurd hheld (FunctionTable.not_holdsFor_empty name symbol),
    fun _ _ _ hmem => absurd hmem List.not_mem_nil, fun _ _ _ hmem => absurd hmem List.not_mem_nil,
    fun name hfixed => ?_, fun name kind hfixed => .inr (hpassed name kind hfixed),
    fun name kind hfixed => ?_⟩
  · obtain ⟨kind, -, hkind⟩ := hpassed name .slot hfixed
    cases kind <;> cases hkind
  · show (if name ∈ params then none else (around name).map SymbolKind.inside) = _
    rw [if_neg (hparams name kind hfixed), hfixed]
    rfl

/-- **Parameters that have their slots may be fixed.** Until here the layer had only what is passed
from around; now those parameters are added that the body does not rebind. No name of a place has
changed, so this is a fact about the layer alone. -/
theorem params {names params : List String} {body : List Stmt}
    (h : Layer.Keeps ⟨around.passed params, names⟩ around table)
    (hopened : table.Opened params) (hnames : params.Nodup → names = params)
    (hparams : ∀ name kind, around name = some kind → name ∉ params) :
    Layer.Keeps ⟨around.inside params body, names⟩ around table := by
  -- a name that is fixed inside is a parameter, or was passed on from around
  have hcases : ∀ name kind, around.inside params body name = some kind →
      (name ∈ params ∧ params.Nodup ∧ kind = .slot) ∨ around.passed params name = some kind := by
    intro name kind hfixed
    unfold Fixed.inside at hfixed
    split at hfixed
    · rename_i hparam
      exact .inl ⟨hparam.1, hparam.2.1, (Option.some.inj hfixed).symm⟩
    · exact .inr hfixed
  have hfree : table.freeNames = [] := by rw [FunctionTable.freeNames, hopened.captured]; rfl
  refine ⟨fun name kind hfixed symbol hheld => ?_, fun name kind hfixed hmem => ?_,
    fun name kind hfixed hmem => ?_, fun name hfixed => ?_, fun name kind hfixed => ?_,
    fun name kind hfixed => ?_⟩
  · rcases hcases name kind hfixed with ⟨-, -, rfl⟩ | hpassed
    · exact hopened.held name symbol hheld
    · exact h.held name kind hpassed symbol hheld
  · rcases hcases name kind hfixed with ⟨-, -, rfl⟩ | hpassed
    · rfl
    · exact h.slots name kind hpassed hmem
  · rw [hfree] at hmem
    exact absurd hmem List.not_mem_nil
  -- a fixed parameter has one slot: the parameters are distinct, and the slots are the parameters
  · rcases hcases name .slot hfixed with ⟨hparam, hdistinct, -⟩ | hpassed
    · refine ⟨hopened.level name hparam, fun i j hi hj => ?_⟩
      rw [hnames hdistinct] at hi hj
      exact (List.getElem?_inj (List.getElem?_eq_some_iff.mp hi).1 hdistinct).mp (hi.trans hj.symm)
    · exact h.own name hpassed
  · rcases hcases name kind hfixed with ⟨-, -, rfl⟩ | hpassed
    · exact .inl rfl
    · exact h.outward name kind hpassed
  · exact (if_neg fun hparam => hparams name kind hfixed hparam.1).trans (h.inward name kind hfixed)

end Layer.Keeps

namespace LabelledAll

theorem labelled (h : LabelledAll builtins globals layers (table :: outer)) :
    table.Labelled (placesOf builtins globals layers (table :: outer)) := by
  cases h with
  | top hcaptured _ hlabelled _ =>
    have hfree : table.freeNames = [] := by rw [FunctionTable.freeNames, hcaptured]; rfl
    show table.Labelled ⟨builtins, globals, [], table.freeNames⟩
    rwa [hfree]
  | nested _ hlabelled _ _ _ => exact hlabelled

/-- What is held for a fixed name is of the kind of its place. -/
theorem held (h : LabelledAll builtins globals layers (table :: outer)) {name : String}
    {kind : SymbolKind} (hfixed : fixedIn layers name = some kind) {symbol : Symbol}
    (hheld : table.HoldsFor name symbol) : symbol.kind = kind := by
  cases h with
  | top _ _ hlabelled htop =>
    obtain ⟨rfl, -, hglobals⟩ := htop name kind hfixed
    have hplace := (hlabelled name symbol hheld).2
    cases hkind : symbol.kind with
    | builtin => rfl
    | global =>
      rw [hkind] at hplace
      exact absurd (List.mem_of_getElem? hplace) hglobals
    | slot | free =>
      rw [hkind] at hplace
      cases hplace
  | nested _ _ _ hkeeps _ => exact hkeeps.held name kind hfixed symbol hheld

/-- What a name means in the innermost function is a place of that name, for a fixed one of its
kind. -/
theorem found (h : LabelledAll builtins globals layers (table :: outer)) {name : String}
    {symbol : Symbol} (hlookup : table.lookup? name = some symbol) :
    symbol.Denotes (placesOf builtins globals layers (table :: outer)) name
      ∧ ∀ kind, fixedIn layers name = some kind → symbol.kind = kind :=
  have hheld := Symbols.holdsFor_of_lookup hlookup
  ⟨h.labelled _ _ hheld, fun _ hfixed => h.held hfixed hheld⟩

/-- Blocks of the innermost function may be opened or closed. -/
theorem of_blocks {blocks : List Block}
    (h : LabelledAll builtins globals layers (table :: outer))
    (hblocks : ∀ block ∈ blocks, block = ∅ ∨ block ∈ table.blocks) :
    LabelledAll builtins globals layers ({ table with blocks } :: outer) := by
  have hholds : ∀ name symbol, ({ table with blocks } : FunctionTable).HoldsFor name symbol →
      table.HoldsFor name symbol := fun _ _ => FunctionTable.holdsFor_of_blocks hblocks
  cases h with
  | top hnone hlength hlabelled htop =>
    exact .top hnone hlength (fun name symbol hheld => hlabelled name symbol (hholds _ _ hheld))
      htop
  | nested hlength hlabelled hcaptures hkeeps hrest =>
    exact .nested hlength (fun name symbol hheld => hlabelled name symbol (hholds _ _ hheld))
      hcaptures (hkeeps.of_blocks hblocks) hrest

/-- The slots of the top level are the global ones. -/
theorem length_globals {tables : List FunctionTable}
    (h : LabelledAll builtins globals layers tables) : globals.length = topSlots tables := by
  induction h with
  | top _ hlength _ _ => exact hlength
  | nested _ _ _ _ hrest ih => cases hrest <;> exact ih

/-! ### Steps

What the compiler does to the tables: it takes slots, defines globals, captures and resolves. Taking
a slot concerns the innermost table; a global is defined in the outermost one, and resolving a name
may concern all in between. These two are inductions along the tables. -/

/-- The innermost function takes its next slot for a name. -/
theorem insert {layer : Layer}
    (h : LabelledAll builtins globals (layer :: layers) (table :: outer)) (houter : outer ≠ [])
    {name : String} (hname : layer.fixed name = none) :
    LabelledAll builtins globals (⟨layer.fixed, layer.names ++ [name]⟩ :: layers)
      (table.takeSlot.insert ⟨name, .slot, table.slots⟩ :: outer) := by
  obtain ⟨-, hcaptured, hslots⟩ :=
    Symbols.extends_takeSlot_insert table ⟨name, .slot, table.slots⟩
  cases h with
  | top => exact absurd rfl houter
  | nested hlength hlabelled hcaptures hkeeps hrest =>
    refine .nested (by simp [hslots, hlength]) ?_ (by rwa [hcaptured]) (hkeeps.insert hname) hrest
    rw [FunctionTable.freeNames_of_captured hcaptured]
    exact hlabelled.enter ⟨name, .slot, table.slots⟩
      ⟨rfl, List.prefix_refl _, List.prefix_append _ _, List.prefix_refl _⟩
      (fun other symbol hheld => Symbols.holdsFor_of_insert table.takeSlot hheld)
      (getElem?_concat_of_length hlength)

/-- The top level takes a slot for a name, which is a global one. -/
theorem insertTop {layer : Layer} {table' : FunctionTable}
    (h : LabelledAll builtins globals [layer] [table]) {name : String}
    (hname : layer.fixed name = none) (hcaptured : table'.captured = table.captured)
    (hslots : table'.slots = table.slots + 1)
    (hlevel : ∀ other ∈ table.level, other ∈ table'.level)
    (hholds : ∀ other symbol, table'.HoldsFor other symbol →
      other = name ∧ symbol = ⟨name, .global, table.slots⟩ ∨ table.HoldsFor other symbol) :
    LabelledAll builtins (globals ++ [name]) [layer] [table'] := by
  cases h with
  | top hnone hlength hlabelled htop =>
    refine .top (hcaptured.trans hnone) (by simp [hslots, hlength]) ?_ fun other kind hother => ?_
    · have hplace : (globals ++ [name])[table.slots]? = some name :=
        getElem?_concat_of_length hlength
      exact hlabelled.enter ⟨name, .global, table.slots⟩
        ⟨rfl, List.prefix_append _ _, List.prefix_refl _, List.prefix_refl _⟩ hholds hplace
    · obtain ⟨hkind, hmem, hglobals⟩ := htop other kind hother
      refine ⟨hkind, hlevel other hmem, fun hmem => ?_⟩
      rcases List.mem_append.mp hmem with hmem | hmem
      · exact hglobals hmem
      · obtain rfl := List.mem_singleton.mp hmem
        exact absurd (hname.symm.trans hother) (by simp)
  | nested _ _ _ _ hrest => cases hrest

/-- **A global is defined, whatever function is open.** Induction outwards: the tables in between
are left as they are. -/
theorem defineLast (h : LabelledAll builtins globals layers (table :: outer)) {name : String}
    (hname : fixedIn layers name = none) :
    LabelledAll builtins (globals ++ [name]) layers
        ((Symbols.defineLast name table outer).2.1 :: (Symbols.defineLast name table outer).2.2)
      ∧ (Symbols.defineLast name table outer).2.1.freeNames = table.freeNames := by
  induction outer generalizing layers table with
  | nil =>
    cases h with
    | top hnone hlength hlabelled htop =>
      exact ⟨(LabelledAll.top hnone hlength hlabelled htop).insertTop hname rfl rfl
        (fun other hother => Std.TreeMap.mem_insert.mpr (.inr hother))
        (fun other symbol hheld => Symbols.holdsFor_of_insertLevel table.takeSlot hheld), rfl⟩
    | nested _ _ _ _ hrest => cases hrest
  | cons next outer ih =>
    cases h with
    | @nested layer layers _ _ hlength hlabelled hcaptures hkeeps hrest =>
      -- what is fixed around is fixed here
      have haround : fixedIn layers name = none := by
        cases hfixed : fixedIn layers name with
        | none => rfl
        | some kind => exact absurd (hname.symm.trans (hkeeps.inward name kind hfixed)) (by simp)
      obtain ⟨hrest', hfree⟩ := ih hrest haround
      have hgrows : ∀ names free : List String, Places.Grows ⟨builtins, globals, names, free⟩
          ⟨builtins, globals ++ [name], names, free⟩ :=
        fun _ _ => ⟨rfl, List.prefix_append _ _, List.prefix_refl _, List.prefix_refl _⟩
      refine ⟨.nested hlength (hlabelled.grow (hgrows _ _)) (fun symbol hsymbol => ?_) hkeeps
        hrest', rfl⟩
      show (Places.mk builtins (globals ++ [name]) _
        (Symbols.defineLast name next outer).2.1.freeNames).captured? _ = _
      rw [hfree]
      exact (hgrows _ _).captured? (hcaptures symbol hsymbol)

/-- What is captured becomes the next free symbol. -/
theorem capture {layer : Layer} {around : Symbol}
    (h : LabelledAll builtins globals (layer :: layers) (table :: outer)) (houter : outer ≠ [])
    (haround : (placesOf builtins globals layers outer).captured? (Compilation.captureOf around)
      = some around.name)
    (hkind : ∀ kind, layer.fixed around.name = some kind → kind = .free) :
    LabelledAll builtins globals (layer :: layers) ((table.capture around).2 :: outer)
      ∧ (table.capture around).1.Denotes (placesOf builtins globals (layer :: layers)
        ((table.capture around).2 :: outer)) around.name
      ∧ (placesOf builtins globals (layer :: layers) (table :: outer)).Grows
        (placesOf builtins globals (layer :: layers) ((table.capture around).2 :: outer)) := by
  cases h with
  | top => exact absurd rfl houter
  | nested hlength hlabelled hcaptures hkeeps hrest =>
    have hkeeps' := hkeeps.capture hkind
    obtain ⟨blocks, level, count, captured⟩ := table
    have hfree : (FunctionTable.mk blocks (level.insert around.name
        ⟨around.name, .free, captured.size⟩) count (captured.push around)).freeNames
        = captured.toList.map Symbol.name ++ [around.name] := by
      simp [FunctionTable.freeNames]
    -- the new place is the one behind all others
    have hplace : (captured.toList.map Symbol.name ++ [around.name])[captured.size]?
        = some around.name := getElem?_concat_of_length (by simp)
    have hgrows : (Places.mk builtins globals layer.names (captured.toList.map Symbol.name)).Grows
        ⟨builtins, globals, layer.names, captured.toList.map Symbol.name ++ [around.name]⟩ :=
      ⟨rfl, List.prefix_refl _, List.prefix_refl _, List.prefix_append _ _⟩
    simp only [placesOf, FunctionTable.capture, List.head?_cons, Option.map_some, Option.getD_some,
      List.headD_cons, hfree]
    refine ⟨.nested hlength ?_ (fun symbol hsymbol => ?_) hkeeps' hrest, ⟨rfl, hplace⟩, hgrows⟩
    · rw [hfree]
      exact hlabelled.enter ⟨around.name, .free, captured.size⟩ hgrows
        (fun other symbol hheld => Symbols.holdsFor_of_insertLevel
          ⟨blocks, level, count, captured.push around⟩ hheld) hplace
    · rcases Array.mem_push.mp hsymbol with hold | rfl
      · exact hcaptures symbol hold
      · exact haround

/-- **A name is found, and captured by the functions in between.** A fixed one has a place of its
kind. Induction outwards: the function that has the name, and then one capture for each function on
the way back in. -/
theorem resolveIn {name : String} {table' : FunctionTable} {outer' : List FunctionTable}
    {symbol : Symbol} (h : LabelledAll builtins globals layers (table :: outer))
    (hfound : Symbols.resolveIn name table outer = some (symbol, table', outer')) :
    LabelledAll builtins globals layers (table' :: outer')
      ∧ symbol.Denotes (placesOf builtins globals layers (table' :: outer')) name
      ∧ (placesOf builtins globals layers (table :: outer)).Grows
        (placesOf builtins globals layers (table' :: outer'))
      ∧ ∀ kind, fixedIn layers name = some kind → symbol.kind = kind := by
  induction outer generalizing layers table table' outer' symbol with
  | nil =>
    rw [Symbols.resolveIn] at hfound
    split at hfound
    · rename_i hlookup
      cases hfound
      exact ⟨h, (h.found hlookup).1, .refl _, (h.found hlookup).2⟩
    · cases hfound
  | cons next outer ih =>
    rw [Symbols.resolveIn] at hfound
    split at hfound
    · rename_i hlookup
      cases hfound
      exact ⟨h, (h.found hlookup).1, .refl _, (h.found hlookup).2⟩
    · rename_i hlookup
      simp only at hfound
      split at hfound
      · cases hfound
      · rename_i around next' outer'' hnext
        cases h with
        | @nested layer layers _ _ hlength hlabelled hcaptures hkeeps hrest =>
          obtain ⟨hrest', ⟨rfl, haround⟩, hgrows, hfixed⟩ := ih hrest hnext
          have h' := LabelledAll.nested hlength hlabelled
            (fun symbol hsymbol => hgrows.captured? (hcaptures symbol hsymbol)) hkeeps hrest'
          -- a name with a slot of its own would have been found
          have hinside : ∀ kind, layer.fixed around.name = some kind →
              around.kind.inside = kind := by
            intro kind hkind
            rcases hkeeps.outward _ kind hkind with rfl | ⟨kind', haround', rfl⟩
            · exact absurd hlookup (FunctionTable.lookup?_ne_none_of_level
                (hkeeps.own _ hkind).1)
            · rw [hfixed kind' haround']
          cases hkind : around.kind <;> simp only [hkind] at hfound haround
          case global | builtin =>
            cases hfound
            refine ⟨h', ⟨rfl, by rwa [hkind]⟩, .refl _, fun kind hfixed' => ?_⟩
            have heq := hinside kind hfixed'
            rw [hkind] at heq
            rw [hkind, ← heq]
            rfl
          all_goals
            cases hfound
            have hfree : ∀ kind, layer.fixed around.name = some kind → kind = .free := by
              intro kind hfixed'
              have heq := hinside kind hfixed'
              rw [hkind] at heq
              exact heq.symm
            obtain ⟨h'', hdenotes, hgrows'⟩ := h'.capture (by simp)
              (by rwa [Compilation.captureOf, hkind]) hfree
            exact ⟨h'', hdenotes, hgrows', fun kind hfixed' => (hfree kind hfixed').symm⟩

/-- **A fixed name is found.** It is known in the function in which it became fixed, and fixed names
are fixed inwards from there. -/
theorem not_fixed_of_resolveIn {name : String}
    (h : LabelledAll builtins globals layers (table :: outer))
    (hnone : Symbols.resolveIn name table outer = none) : fixedIn layers name = none := by
  rw [Option.eq_none_iff_forall_ne_some]
  intro kind hfixed
  induction outer generalizing layers table kind with
  | nil =>
    rw [Symbols.resolveIn] at hnone
    split at hnone
    · cases hnone
    · rename_i hlookup
      cases h with
      | top _ _ _ htop =>
        exact FunctionTable.lookup?_ne_none_of_level (htop name kind hfixed).2.1 hlookup
      | nested _ _ _ _ hrest => cases hrest
  | cons next outer ih =>
    rw [Symbols.resolveIn] at hnone
    split at hnone
    · cases hnone
    · rename_i hlookup
      simp only at hnone
      split at hnone
      · rename_i hnext
        cases h with
        | nested _ _ _ hkeeps hrest =>
          -- fixed here, or fixed around: in either case it would have been found
          rcases hkeeps.outward name kind hfixed with rfl | ⟨kind', haround, -⟩
          · exact FunctionTable.lookup?_ne_none_of_level (hkeeps.own name hfixed).1 hlookup
          · exact ih hrest hnext kind' haround
      · split at hnone <;> cases hnone

end LabelledAll

end Tables

/-! ## Labelled symbols

The same for whole `Symbols`, in the form in which the layout calls them. A step is described by
`Labels`: places are added to the innermost function, and what is fixed and the layers around stay
the same. -/

/-- The symbols of all open functions are labelled, and keep to what is fixed. -/
def Symbols.Labelled (builtins : List String) (layers : List Layer) (symbols : Symbols) : Prop :=
  LabelledAll builtins symbols.globals.toList layers symbols.tables

/-- The places that the innermost function can refer to. -/
def Symbols.places (builtins : List String) (layers : List Layer) (symbols : Symbols) : Places :=
  placesOf builtins symbols.globals.toList layers symbols.tables

/-- **A step that keeps symbols labelled**: places are only added, and only to the innermost
function. -/
structure Symbols.Labels (builtins : List String) (layers layers' : List Layer)
    (symbols symbols' : Symbols) : Prop where
  labelled : symbols'.Labelled builtins layers'
  length : layers'.length = layers.length
  tail : layers'.tail = layers.tail
  fixed : fixedIn layers' = fixedIn layers
  grows : (symbols.places builtins layers).Grows (symbols'.places builtins layers')

namespace Symbols

variable {builtins : List String} {layers layers' layers'' : List Layer}
  {symbols symbols' symbols'' : Symbols} {name : String}

theorem Labelled.refl (h : symbols.Labelled builtins layers) :
    Labels builtins layers layers symbols symbols :=
  ⟨h, rfl, rfl, rfl, .refl _⟩

theorem Labels.trans (h : Labels builtins layers layers' symbols symbols')
    (h' : Labels builtins layers' layers'' symbols' symbols'') :
    Labels builtins layers layers'' symbols symbols'' :=
  ⟨h'.labelled, h'.length.trans h.length, h'.tail.trans h.tail, h'.fixed.trans h.fixed,
    h.grows.trans h'.grows⟩

/-- The layers around stay the same, and so does what is fixed. -/
theorem Labels.eq_cons {layer : Layer} {around : List Layer}
    (h : Labels builtins (layer :: around) layers' symbols symbols') :
    ∃ names, layers' = ⟨layer.fixed, names⟩ :: around := by
  cases layers' with
  | nil => cases h.length
  | cons layer' around' =>
    obtain ⟨fixed', names⟩ := layer'
    obtain rfl : fixed' = layer.fixed := h.fixed
    exact ⟨names, congrArg (_ :: ·) h.tail⟩

/-- A definition takes a place of its name, or has one. A function that has no slot of the name
takes its next one. -/
theorem Labelled.define (h : symbols.Labelled builtins layers)
    (hname : fixedIn layers name = none) :
    ∃ layers', Labels builtins layers layers' symbols (symbols.define name).2
      ∧ (symbols.define name).1.Denotes ((symbols.define name).2.places builtins layers') name
      ∧ ∀ layer around, layers = layer :: around → symbols.outer ≠ [] → name ∉ layer.names →
        layers' = ⟨layer.fixed, layer.names ++ [name]⟩ :: around := by
  obtain ⟨table, outer, globals⟩ := symbols
  rcases Symbols.define_cases ⟨table, outer, globals⟩ name with ⟨hheld, hkind, hsame⟩ | hnew
  -- the name is already held in the innermost block, and nothing changes
  · have hdenotes := LabelledAll.labelled h _ _ (holdsFor_of_innermost hheld)
    rw [hsame]
    refine ⟨layers, h.refl, hdenotes, fun layer around hlayers houter hmem => ?_⟩
    subst hlayers
    have hslot : ownKind outer = .slot := by
      rw [ownKind, if_neg (by rwa [List.isEmpty_iff])]
    have hplace := hdenotes.2
    rw [hkind, hslot] at hplace
    exact absurd (List.mem_of_getElem? hplace) hmem
  · rw [hnew]
    obtain ⟨-, hcaptured, hslots⟩ :=
      extends_takeSlot_insert table ⟨name, ownKind outer, table.slots⟩
    have hfree : table.freeNames
        <+: (table.takeSlot.insert ⟨name, ownKind outer, table.slots⟩).freeNames :=
      FunctionTable.freeNames_of_captured hcaptured ▸ List.prefix_refl _
    -- a new slot: at the top level it is a global, whose name is appended to the names of the
    -- globals
    cases outer with
    | nil =>
      have hlength : globals.toList.length = table.slots := LabelledAll.length_globals h
      have hpush : (globals.push name).toList = globals.toList ++ [name] := Array.toList_push ..
      cases h with
      | nested _ _ _ _ hrest => cases hrest
      | @top fixed _ hnone hsize hlabelled htop =>
        have h' := (LabelledAll.top hnone hsize hlabelled htop).insertTop hname hcaptured hslots
          (fun other hother => FunctionTable.mem_level_insert _ hother)
          fun other symbol hheld => holdsFor_of_insert table.takeSlot hheld
        refine ⟨[⟨fixed, []⟩], ⟨?_, rfl, rfl, rfl, rfl, ?_, List.prefix_refl _, hfree⟩,
          ⟨rfl, ?_⟩, fun _ _ _ houter _ => absurd rfl houter⟩
        · rw [← hpush] at h'
          exact h'
        · show globals.toList <+: (globals.push name).toList
          rw [hpush]
          exact List.prefix_append _ _
        · show (globals.push name).toList[table.slots]? = some name
          rw [hpush]
          exact getElem?_concat_of_length hlength
    | cons next outer =>
      -- in a function it is the next local
      cases layers with
      | nil => cases h
      | cons layer around =>
        refine ⟨⟨layer.fixed, layer.names ++ [name]⟩ :: around,
          ⟨LabelledAll.insert h (by simp) hname, by simp, rfl, rfl, rfl, List.prefix_refl _,
            List.prefix_append _ _, hfree⟩, ⟨rfl, ?_⟩,
          fun _ _ hlayers _ _ => by cases hlayers; rfl⟩
        cases h with
        | nested hlength _ _ _ _ => exact getElem?_concat_of_length hlength

theorem Labelled.defineGlobal (h : symbols.Labelled builtins layers)
    (hname : fixedIn layers name = none) :
    Labels builtins layers layers symbols (symbols.defineGlobal name).2
      ∧ (symbols.defineGlobal name).1.Denotes
        ((symbols.defineGlobal name).2.places builtins layers) name := by
  have hsymbol := symbols.defineGlobal_symbol name
  have hlength := LabelledAll.length_globals h
  obtain ⟨table, outer, globals⟩ := symbols
  have hpush : (globals.push name).toList = globals.toList ++ [name] := Array.toList_push ..
  obtain ⟨h', hfree⟩ := LabelledAll.defineLast h hname
  have hprefix : table.freeNames <+: (defineLast name table outer).2.1.freeNames :=
    hfree ▸ List.prefix_refl _
  refine ⟨⟨?_, rfl, rfl, rfl, rfl, ?_, List.prefix_refl _, hprefix⟩, ?_⟩
  · rw [← hpush] at h'
    exact h'
  · show globals.toList <+: (globals.push name).toList
    rw [hpush]
    exact List.prefix_append _ _
  · rw [hsymbol]
    refine ⟨rfl, ?_⟩
    show (globals.push name).toList[_]? = some name
    rw [hpush]
    exact getElem?_concat_of_length hlength

/-- **A name that is found is one of a place**, which for a fixed name is of its kind. A fixed name
is found. -/
theorem Labelled.resolve (h : symbols.Labelled builtins layers) (name : String) :
    Labels builtins layers layers symbols (symbols.resolve name).2
      ∧ (∀ symbol, (symbols.resolve name).1 = some symbol →
        symbol.Denotes ((symbols.resolve name).2.places builtins layers) name
          ∧ ∀ kind, fixedIn layers name = some kind → symbol.kind = kind)
      ∧ ((symbols.resolve name).1 = none → fixedIn layers name = none) := by
  obtain ⟨table, outer, globals⟩ := symbols
  unfold Symbols.resolve
  simp only
  split
  · rename_i hnone
    exact ⟨h.refl, nofun, fun _ => LabelledAll.not_fixed_of_resolveIn h hnone⟩
  · rename_i hfound
    obtain ⟨h', hdenotes, hgrows, hfixed⟩ := LabelledAll.resolveIn h hfound
    exact ⟨⟨h', rfl, rfl, rfl, hgrows⟩,
      fun _ hsymbol => Option.some.inj hsymbol ▸ ⟨hdenotes, hfixed⟩, nofun⟩

/-- A name that is used has a place of its name afterwards; if it was not found, then it is a new
global, and not fixed. -/
theorem Labelled.require (h : symbols.Labelled builtins layers) (name : String) :
    Labels builtins layers layers symbols (symbols.require name).2
      ∧ (symbols.require name).1.Denotes ((symbols.require name).2.places builtins layers) name
      ∧ ∀ kind, fixedIn layers name = some kind → (symbols.require name).1.kind = kind := by
  obtain ⟨hlabels, hfound, hnone⟩ := h.resolve name
  unfold Symbols.require
  cases hresolve : symbols.resolve name with
  | mk found symbols' =>
    rw [hresolve] at hlabels hfound hnone
    cases found with
    | some symbol => exact ⟨hlabels, hfound symbol rfl⟩
    | none =>
      obtain ⟨hlabels', hdenotes'⟩ := hlabels.labelled.defineGlobal (hnone rfl)
      exact ⟨hlabels.trans hlabels', hdenotes',
        fun kind hfixed => absurd ((hnone rfl).symm.trans hfixed) (by simp)⟩

theorem Labelled.enterBlock (h : symbols.Labelled builtins layers) :
    Labels builtins layers layers symbols symbols.enterBlock := by
  obtain ⟨⟨blocks, level, count, captured⟩, outer, globals⟩ := symbols
  refine ⟨LabelledAll.of_blocks h fun block hblock => ?_, rfl, rfl, rfl, .refl _⟩
  exact List.mem_cons.mp hblock

theorem Labelled.leaveBlock (h : symbols.Labelled builtins layers) :
    Labels builtins layers layers symbols symbols.leaveBlock := by
  obtain ⟨⟨blocks, level, count, captured⟩, outer, globals⟩ := symbols
  exact ⟨LabelledAll.of_blocks h fun block hblock => .inr (List.mem_of_mem_tail hblock), rfl, rfl,
    rfl, .refl _⟩

/-! ### Functions

A function is entered with an empty table, takes slots for its parameters, and shows its places when
it is left. In between lies the compilation of the body, of which only `Labels` is known. -/

theorem opened_enterFunction (symbols : Symbols) : symbols.enterFunction.table.Opened [] := by
  exact ⟨rfl, rfl, fun name symbol hheld =>
    absurd hheld (FunctionTable.not_holdsFor_empty name symbol),
    fun _ h => absurd h List.not_mem_nil⟩

/-- A parameter takes a slot, and so the table still holds nothing but parameters. -/
theorem opened_define {params : List String} (h : symbols.table.Opened params)
    (houter : symbols.outer ≠ []) (name : String) :
    (symbols.define name).2.table.Opened (params ++ [name]) := by
  have hslot : ownKind symbols.outer = .slot := by
    rw [ownKind, if_neg (by rwa [List.isEmpty_iff])]
  -- a parameter that occurs twice has its slot already, any other one takes the next
  rcases Symbols.define_cases symbols name with ⟨hheld, -, hsame⟩ | hnew
  · rw [hsame]
    refine ⟨h.blocks, h.captured, h.held, fun other hother => ?_⟩
    rcases List.mem_append.mp hother with hother | hother
    · exact h.level other hother
    · obtain rfl := List.mem_singleton.mp hother
      rw [FunctionTable.innermost?, h.blocks] at hheld
      exact Std.TreeMap.mem_iff_isSome_getElem?.mpr (Option.isSome_of_eq_some hheld)
  · rw [hnew, hslot]
    obtain ⟨table, outer, globals⟩ := symbols
    obtain ⟨blocks, level, slots, captured⟩ := table
    obtain rfl : blocks = [] := h.blocks
    refine ⟨rfl, h.captured, fun other symbol hheld => ?_, fun other hother => ?_⟩
    · rcases holdsFor_of_insert (FunctionTable.mk [] level (slots + 1) captured) hheld with
        ⟨-, rfl⟩ | hheld
      · rfl
      · exact h.held other symbol hheld
    · refine Std.TreeMap.mem_insert.mpr ?_
      rcases List.mem_append.mp hother with hother | hother
      · exact .inr (h.level other hother)
      · exact .inl (by rw [List.mem_singleton.mp hother]; exact Std.ReflCmp.compare_self)

theorem outer_define (symbols : Symbols) (name : String) :
    (symbols.define name).2.outer = symbols.outer := by
  rcases Symbols.define_cases symbols name with ⟨-, -, hsame⟩ | hnew
  · rw [hsame]
  · rw [hnew]

/-- Parameters take slots of their names: the next ones, if no name occurs twice. -/
theorem Labelled.defineAll {fixed : Fixed} {around : List Layer} (params : List String) :
    ∀ {front known : List String} {symbols : Symbols},
      symbols.Labelled builtins (⟨fixed, front⟩ :: around) → symbols.table.Opened known →
      symbols.outer ≠ [] → (∀ name ∈ params, fixed name = none) →
      ∃ names, (symbols.defineAll params).Labelled builtins (⟨fixed, names⟩ :: around)
        ∧ (symbols.defineAll params).table.Opened (known ++ params)
        ∧ symbols.globals.toList <+: (symbols.defineAll params).globals.toList
        ∧ ((front ++ params).Nodup → names = front ++ params) := by
  induction params with
  | nil =>
    intro front known symbols h hopened _ _
    refine ⟨front, h, ?_, List.prefix_refl _, fun _ => (List.append_nil front).symm⟩
    rwa [List.append_nil]
  | cons param params ih =>
    intro front known symbols h hopened houter hfixed
    obtain ⟨hparam, hparams⟩ := List.forall_mem_cons.mp hfixed
    obtain ⟨layers', hlabels, -, hfresh⟩ := h.define hparam
    obtain ⟨front', rfl⟩ := hlabels.eq_cons
    obtain ⟨names, hnames, hopened', hglobals, hnodup⟩ := ih hlabels.labelled
      (opened_define hopened houter param) (by rwa [outer_define]) hparams
    rw [List.append_assoc] at hopened'
    refine ⟨names, hnames, hopened', hlabels.grows.globals.trans hglobals, fun hdistinct => ?_⟩
    -- a parameter that has not been defined yet takes the next slot
    have hnew : param ∉ front := fun hmem =>
      (List.nodup_append.mp hdistinct).2.2 param hmem param List.mem_cons_self rfl
    obtain rfl : front' = front ++ [param] :=
      congrArg Layer.names (List.cons.inj (hfresh _ around rfl houter hnew)).1
    rw [List.append_assoc] at hnodup
    exact hnodup hdistinct

/-- A function is entered: what is fixed around stays so, as long as no parameter has its name, and
each parameter may be fixed to its slot, if no name occurs twice. -/
theorem Labelled.params (h : symbols.Labelled builtins layers) (params : List String)
    (body : List Stmt) (hfixed : ∀ name kind, fixedIn layers name = some kind → name ∉ params) :
    ∃ names, (symbols.enterFunction.defineAll params).Labelled builtins
        (⟨(fixedIn layers).inside params body, names⟩ :: layers)
      ∧ symbols.globals.toList <+: (symbols.enterFunction.defineAll params).globals.toList
      ∧ (params.Nodup → names = params) := by
  have hentered : symbols.enterFunction.Labelled builtins
      (⟨(fixedIn layers).passed params, []⟩ :: layers) :=
    .nested rfl
      (fun name symbol hheld => absurd hheld (FunctionTable.not_holdsFor_empty name symbol))
      (fun symbol hsymbol => absurd hsymbol (Array.not_mem_empty symbol)) (.empty hfixed) h
  obtain ⟨names, hnames, hopened, hglobals, hdistinct⟩ := hentered.defineAll params
    (opened_enterFunction symbols) (by simp [Symbols.enterFunction])
    fun name hname => if_pos hname
  rw [List.nil_append] at hopened hdistinct
  refine ⟨names, ?_, hglobals, hdistinct⟩
  have hlayers : layers ≠ [] := by rintro rfl; cases h
  -- the parameters have their slots now
  generalize symbols.enterFunction.defineAll params = inner at hnames hopened ⊢
  obtain ⟨table, outer, globals⟩ := inner
  cases hnames with
  | top => exact absurd rfl hlayers
  | nested hlength hlabelled hcaptures hkeeps hrest =>
    exact .nested hlength hlabelled hcaptures (hkeeps.params hopened hdistinct hfixed) hrest

theorem globals_leaveFunction (h : symbols.leaveFunction? = some symbols') :
    symbols'.globals = symbols.globals := by
  obtain ⟨table, _ | ⟨next, outer⟩, globals⟩ := symbols
  · cases h
  · cases h
    rfl

/-- **What a function shows when it is left**: its slots are those of the names, what it captures
has the same names around it, and it has kept to what is fixed. -/
theorem Labelled.leaveFunction {layer : Layer}
    (h : symbols.Labelled builtins (layer :: layers))
    (hleave : symbols.leaveFunction? = some symbols') :
    symbols'.Labelled builtins layers ∧ symbols.slots = layer.names.length
      ∧ (symbols.captured.map Compilation.captureOf).map (symbols'.places builtins layers).captured?
        = symbols.table.freeNames.map some
      ∧ layer.Keeps (fixedIn layers) symbols.table := by
  obtain ⟨table, _ | ⟨next, outer⟩, globals⟩ := symbols
  · cases hleave
  · cases hleave
    cases h with
    | nested hlength _ hcaptures hkeeps hrest =>
      refine ⟨hrest, hlength.symm, ?_, hkeeps⟩
      rw [FunctionTable.freeNames, List.map_map, List.map_map]
      exact List.map_congr_left fun symbol hsymbol =>
        hcaptures symbol (Array.mem_toList_iff.mp hsymbol)

end Symbols

end Scriptlet
