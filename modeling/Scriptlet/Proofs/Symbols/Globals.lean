import Scriptlet.Proofs.Symbols.Bounds

/-!
# Names of global slots

A name that the top level knows as a global stands for a slot that was taken for this name, whatever
functions and blocks have been compiled in between. The machine uses these names in one place, to
say which global has not been set.

It is a fact about the last of the tables only (`topOf`). No step changes that table but a
definition at the top level, or of a name that is not known anywhere.
-/

namespace Scriptlet

namespace FunctionTable

/-- The table of the top level, the last one. -/
def topOf : FunctionTable → List FunctionTable → FunctionTable
  | table, [] => table
  | _, next :: outer => topOf next outer

/-- **Every slot of a table has a name, and the name of a global is that of its slot.** The second
part is about all blocks: a global that was defined in a block has a slot of the top level like any
other. -/
structure NamedBy (table : FunctionTable) (globals : Array String) : Prop where
  size : globals.size = table.slots
  slot : ∀ block ∈ table.level :: table.blocks, ∀ (name : String) (symbol : Symbol),
    block[name]? = some symbol → symbol.kind = .global → globals[symbol.index]? = some name

section NamedBy

variable {table table' : FunctionTable} {globals : Array String}

/-- The next slot of a table is taken for a name. The new symbol stands in one of the blocks, and
all others are as they were. -/
theorem NamedBy.push {name : String} (h : table.NamedBy globals)
    (hslots : table'.slots = table.slots + 1)
    (hblocks : ∀ block' ∈ table'.level :: table'.blocks,
      ∃ block ∈ table.level :: table.blocks, block' = block
        ∨ block' = block.insert name ⟨name, .global, table.slots⟩) :
    table'.NamedBy (globals.push name) where
  size := by rw [Array.size_push, h.size, hslots]
  slot block' hblock' other symbol hsymbol hkind := by
    obtain ⟨block, hblock, hinsert⟩ := hblocks block' hblock'
    -- an old symbol stands for an old slot, which keeps its name
    have hold : block[other]? = some symbol → (globals.push name)[symbol.index]? = some other := by
      exact fun hsymbol =>
        Symbols.getElem?_push_of_some (h.slot block hblock other symbol hsymbol hkind) name
    rcases hinsert with rfl | rfl
    · exact hold hsymbol
    · rcases Symbols.getElem?_insert_cases hsymbol with ⟨rfl, rfl⟩ | hsymbol
      · rw [← h.size]
        exact Array.getElem?_push_size
      · exact hold hsymbol

theorem NamedBy.insert (h : table.NamedBy globals) (name : String) :
    (table.takeSlot.insert ⟨name, .global, table.slots⟩).NamedBy (globals.push name) := by
  obtain ⟨blocks, level, slots, captured⟩ := table
  cases blocks with
  | nil => exact h.push rfl (by simp [takeSlot, FunctionTable.insert])
  | cons block blocks =>
    refine h.push rfl fun block' hblock' => ?_
    simp only [takeSlot, FunctionTable.insert, List.mem_cons] at hblock' ⊢
    rcases hblock' with rfl | rfl | hblock'
    · exact ⟨_, .inl rfl, .inl rfl⟩
    · exact ⟨block, .inr (.inl rfl), .inr rfl⟩
    · exact ⟨_, .inr (.inr hblock'), .inl rfl⟩

theorem NamedBy.insertLevel (h : table.NamedBy globals) (name : String) :
    (table.takeSlot.insertLevel ⟨name, .global, table.slots⟩).NamedBy (globals.push name) := by
  obtain ⟨blocks, level, slots, captured⟩ := table
  refine h.push rfl fun block' hblock' => ?_
  simp only [takeSlot, FunctionTable.insertLevel, List.mem_cons] at hblock' ⊢
  rcases hblock' with rfl | hblock'
  · exact ⟨level, .inl rfl, .inr rfl⟩
  · exact ⟨_, .inr hblock', .inl rfl⟩

/-- Blocks may be opened or closed. -/
theorem NamedBy.of_blocks {blocks : List Block} (h : table.NamedBy globals)
    (hblocks : ∀ block ∈ blocks, block = ∅ ∨ block ∈ table.blocks) :
    ({ table with blocks } : FunctionTable).NamedBy globals where
  size := h.size
  slot block hblock name symbol hsymbol hkind := by
    rcases List.mem_cons.mp hblock with rfl | hblock
    · exact h.slot _ List.mem_cons_self name symbol hsymbol hkind
    · rcases hblocks block hblock with rfl | hmem
      · simp at hsymbol
      · exact h.slot block (List.mem_cons_of_mem _ hmem) name symbol hsymbol hkind

end NamedBy

end FunctionTable

namespace Symbols

open FunctionTable

theorem topOf_defineLast (name : String) (table : FunctionTable) (outer : List FunctionTable) :
    (defineLast name table outer).2.1.topOf (defineLast name table outer).2.2
      = (table.topOf outer).takeSlot.insertLevel ⟨name, .global, (table.topOf outer).slots⟩ := by
  induction outer generalizing table with
  | nil => rfl
  | cons next outer ih => exact ih next

/-- Nothing is captured from outside of the top level. -/
theorem topOf_resolveIn {name : String} {table table' : FunctionTable}
    {outer outer' : List FunctionTable} {symbol : Symbol}
    (h : resolveIn name table outer = some (symbol, table', outer')) :
    table'.topOf outer' = table.topOf outer := by
  induction outer generalizing table table' outer' symbol with
  | nil =>
    rw [resolveIn] at h
    split at h
    · cases h
      rfl
    · cases h
  | cons next outer ih =>
    rw [resolveIn] at h
    split at h
    · cases h
      rfl
    · simp only at h
      split at h
      · cases h
      · rename_i hnext
        have htop := ih hnext
        split at h <;> (cases h; exact htop)

/-! ## Growing names

Names are only ever added at the end, so the name of a slot does not change. -/

theorem globals_define (symbols : Symbols) (name : String) :
    symbols.globals.toList <+: (symbols.define name).2.globals.toList := by
  obtain ⟨table, outer, globals⟩ := symbols
  unfold define
  simp only
  split
  · exact List.prefix_refl _
  · cases outer <;> simp

theorem globals_defineGlobal (symbols : Symbols) (name : String) :
    symbols.globals.toList <+: (symbols.defineGlobal name).2.globals.toList := by
  obtain ⟨table, outer, globals⟩ := symbols
  simp [defineGlobal]

theorem globals_resolve (symbols : Symbols) (name : String) :
    symbols.globals.toList <+: (symbols.resolve name).2.globals.toList := by
  obtain ⟨table, outer, globals⟩ := symbols
  unfold resolve
  simp only
  split <;> exact List.prefix_refl _

/-! ## The names of the top level

The invariant on the symbols as a whole, and that every step keeps it. -/

/-- The names of the global slots are those by which the top level knows them. -/
def GlobalsNamed (symbols : Symbols) : Prop :=
  (symbols.table.topOf symbols.outer).NamedBy symbols.globals

namespace GlobalsNamed

variable {symbols : Symbols}

theorem define (h : symbols.GlobalsNamed) (name : String) :
    (symbols.define name).2.GlobalsNamed := by
  obtain ⟨table, outer, globals⟩ := symbols
  unfold Symbols.define
  simp only
  split
  · exact h
  · cases outer with
    | nil => exact NamedBy.insert h name
    | cons next outer => exact h

theorem defineGlobal (h : symbols.GlobalsNamed) (name : String) :
    (symbols.defineGlobal name).2.GlobalsNamed := by
  obtain ⟨table, outer, globals⟩ := symbols
  show ((defineLast name table outer).2.1.topOf (defineLast name table outer).2.2).NamedBy
    (globals.push name)
  rw [topOf_defineLast]
  exact NamedBy.insertLevel h name

theorem resolve (h : symbols.GlobalsNamed) (name : String) :
    (symbols.resolve name).2.GlobalsNamed := by
  obtain ⟨table, outer, globals⟩ := symbols
  unfold Symbols.resolve
  simp only
  split
  · exact h
  · rename_i hfound
    rw [GlobalsNamed, topOf_resolveIn hfound]
    exact h

theorem enterBlock (h : symbols.GlobalsNamed) : symbols.enterBlock.GlobalsNamed := by
  obtain ⟨⟨blocks, level, slots, captured⟩, outer, globals⟩ := symbols
  cases outer with
  | nil => exact h.of_blocks fun block hblock => (List.mem_cons.mp hblock)
  | cons next outer => exact h

theorem leaveBlock (h : symbols.GlobalsNamed) : symbols.leaveBlock.GlobalsNamed := by
  obtain ⟨⟨blocks, level, slots, captured⟩, outer, globals⟩ := symbols
  cases outer with
  | nil => exact h.of_blocks fun block hblock => .inr (List.mem_of_mem_tail hblock)
  | cons next outer => exact h

theorem ofBuiltins (names : List String) : (Symbols.ofBuiltins names).GlobalsNamed := by
  refine ofBuiltins_induction names ⟨rfl, ?_⟩ fun ⟨table, outer, globals⟩ index name h => ?_
  · intro block hblock name symbol hsymbol
    obtain rfl : block = ∅ := by simpa [Symbols.empty, topOf, FunctionTable.empty] using hblock
    exact absurd hsymbol (by simp)
  · cases outer with
    | nil =>
      refine ⟨h.size, fun block hblock other symbol hsymbol hkind => ?_⟩
      rcases List.mem_cons.mp hblock with rfl | hmem
      · change (table.level.insert name ⟨name, .builtin, index⟩)[other]? = some symbol at hsymbol
        rcases holds_insert hsymbol with rfl | hold
        · cases hkind
        · exact h.slot _ List.mem_cons_self other symbol hold hkind
      · exact h.slot block (List.mem_cons_of_mem _ hmem) other symbol hsymbol hkind
    | cons next outer => exact h

/-- **A definition at the top level takes a slot of its name, or has one.** -/
theorem define_slot (h : symbols.GlobalsNamed) (houter : symbols.outer = []) (name : String) :
    (symbols.define name).1.kind = .global
      ∧ (symbols.define name).2.globals[(symbols.define name).1.index]? = some name := by
  obtain ⟨table, outer, globals⟩ := symbols
  obtain rfl : outer = [] := houter
  unfold Symbols.define
  simp only
  split
  · rename_i symbol hsymbol
    obtain ⟨hfound, hkind⟩ := Option.filter_eq_some_iff.mp hsymbol
    have hkind : symbol.kind = .global := of_decide_eq_true hkind
    refine ⟨hkind, ?_⟩
    obtain ⟨blocks, level, slots, captured⟩ := table
    cases blocks with
    | nil => exact h.slot level (by simp [topOf]) name symbol hfound hkind
    | cons block blocks => exact h.slot block (by simp [topOf]) name symbol hfound hkind
  · refine ⟨rfl, ?_⟩
    have hsize : globals.size = table.slots := h.size
    simp [← hsize]

end GlobalsNamed

end Symbols

end Scriptlet
