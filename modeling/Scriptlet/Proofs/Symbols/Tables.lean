import Scriptlet.Proofs.Symbols.Scopes

/-!
# What the tables keep up

`TableStep` lists all that can be done with symbols. Whatever the order, every symbol stands under
its own name and denotes a place that exists, and a function captures no name twice: the free symbol
for a captured name has the index at which the function remembers the symbol of the function around
(`Symbols.Regular`).

That a name is captured once needs an argument. A name is captured only where looking it up has
failed, and from then on it is found: the shortcut stands at the level of the function, or something
has covered it there. Either way the level has the name (`Aligned.known`).
-/

namespace Scriptlet

/-! ## Steps on tables

The compiler defines the built-in functions once, before all else. Here they may become known at any
time and in any function, which asks for more than the compiler needs. -/

/-- A step of the compiler, or a built-in function that becomes known in whatever function is
open. -/
inductive TableStep where
  | scope (step : ScopeStep)
  | defineBuiltin (index : Nat) (name : String)
deriving DecidableEq, Repr

/-- The symbols after a step on the tables. -/
def Symbols.tableStep : TableStep → Symbols → Symbols
  | .scope step, symbols => symbols.step step
  | .defineBuiltin index name, symbols => (symbols.defineBuiltin index name).2

/-! ## Aligned tables

A property of one table alone, so that steps are seen to keep it table by table. -/

/-- **Every symbol of a function stands under its own name**, and the free ones are numbered as the
symbols that the function captures, one for each name. -/
structure FunctionTable.Aligned (table : FunctionTable) : Prop where
  named : ∀ name symbol, table.HoldsFor name symbol → symbol.name = name
  free : ∀ name symbol, table.HoldsFor name symbol → symbol.kind = .free →
    ∃ around, table.captured[symbol.index]? = some around ∧ around.name = name
  known : ∀ around ∈ table.captured, around.name ∈ table.level
  distinct : (table.captured.toList.map Symbol.name).Nodup

namespace FunctionTable.Aligned

variable {table : FunctionTable} {symbol : Symbol}

theorem empty : FunctionTable.empty.Aligned := by
  have hnone : ∀ name symbol, ¬ FunctionTable.empty.HoldsFor name symbol := by
    rintro name symbol ⟨block, hblock, hname⟩
    obtain rfl : block = ∅ := List.mem_singleton.mp hblock
    simp at hname
  exact ⟨fun name symbol h => absurd h (hnone name symbol),
    fun name symbol h => absurd h (hnone name symbol),
    fun around h => absurd h (Array.not_mem_empty around), List.nodup_nil⟩

theorem takeSlot (h : table.Aligned) : table.takeSlot.Aligned :=
  ⟨h.named, h.free, h.known, h.distinct⟩

/-- A symbol that is not free may be entered anywhere. -/
theorem enter {table' : FunctionTable} (h : table.Aligned) (hkind : symbol.kind ≠ .free)
    (hcaptured : table'.captured = table.captured)
    (hholds : ∀ name other, table'.HoldsFor name other →
      name = symbol.name ∧ other = symbol ∨ table.HoldsFor name other)
    (hlevel : ∀ name ∈ table.level, name ∈ table'.level) : table'.Aligned where
  named name other hother := by
    rcases hholds name other hother with ⟨rfl, rfl⟩ | hold
    · rfl
    · exact h.named name other hold
  free name other hother hfree := by
    rw [hcaptured]
    rcases hholds name other hother with ⟨rfl, rfl⟩ | hold
    · exact absurd hfree hkind
    · exact h.free name other hold hfree
  known around haround := by
    rw [hcaptured] at haround
    exact hlevel _ (h.known around haround)
  distinct := by
    rw [hcaptured]
    exact h.distinct

theorem insert (h : table.Aligned) (hkind : symbol.kind ≠ .free) :
    (table.insert symbol).Aligned := by
  refine h.enter hkind ?_ (fun name other => Symbols.holdsFor_of_insert table) fun name hname => ?_
  all_goals obtain ⟨_ | ⟨block, blocks⟩, level, slots, captured⟩ := table
  · rfl
  · rfl
  · exact Std.TreeMap.mem_insert.mpr (.inr hname)
  · exact hname

theorem insertLevel (h : table.Aligned) (hkind : symbol.kind ≠ .free) :
    (table.insertLevel symbol).Aligned := by
  refine h.enter hkind rfl (fun name other => Symbols.holdsFor_of_insertLevel table)
    fun name hname => ?_
  exact Std.TreeMap.mem_insert.mpr (.inr hname)

/-- **A name is captured once: the function knows it from then on.** The name is at its level
afterwards, so looking it up does not fail a second time. -/
theorem capture {around : Symbol} (h : table.Aligned)
    (hmissing : table.lookup? around.name = none) : (table.capture around).2.Aligned := by
  obtain ⟨-, hlevel⟩ := Option.or_eq_none_iff.mp hmissing
  have hnew : ∀ old ∈ table.captured, old.name ≠ around.name := by
    intro old hold hname
    have hmem := h.known old hold
    rw [hname, Std.TreeMap.mem_iff_isSome_getElem?, hlevel] at hmem
    cases hmem
  have hholds : ∀ name other, (table.capture around).2.HoldsFor name other →
      name = around.name ∧ other = ⟨around.name, .free, table.captured.size⟩
        ∨ table.HoldsFor name other :=
    fun name other hother => Symbols.holdsFor_of_insertLevel
      ⟨table.blocks, table.level, table.slots, table.captured.push around⟩ hother
  refine ⟨fun name other hother => ?_, fun name other hother hfree => ?_, fun old hold => ?_, ?_⟩
  · rcases hholds name other hother with ⟨rfl, rfl⟩ | hheld
    · rfl
    · exact h.named name other hheld
  -- a free symbol is the new one or one from before, whose index the new one does not take
  · show ∃ old, (table.captured.push around)[other.index]? = some old ∧ old.name = name
    rcases hholds name other hother with ⟨rfl, rfl⟩ | hheld
    · exact ⟨around, Array.getElem?_push_size, rfl⟩
    · obtain ⟨old, hold, hname⟩ := h.free name other hheld hfree
      exact ⟨old, Symbols.getElem?_push_of_some hold around, hname⟩
  · rcases Array.mem_push.mp hold with hold | rfl
    · exact Std.TreeMap.mem_insert.mpr (.inr (h.known old hold))
    · exact Std.TreeMap.mem_insert_self
  · show ((table.captured.push around).toList.map Symbol.name).Nodup
    rw [Array.toList_push, List.map_append]
    refine List.nodup_append.mpr ⟨h.distinct, List.pairwise_singleton _ _, ?_⟩
    rintro name hname _ hother rfl
    obtain ⟨old, hold, heq⟩ := List.mem_map.mp hname
    exact hnew old (Array.mem_toList_iff.mp hold) (heq.trans (List.mem_singleton.mp hother))

/-- Blocks may be opened or closed. -/
theorem of_blocks {blocks : List Block} (h : table.Aligned)
    (hblocks : ∀ block ∈ blocks, block = ∅ ∨ block ∈ table.blocks) :
    ({ table with blocks } : FunctionTable).Aligned := by
  have hholds : ∀ name symbol, ({ table with blocks } : FunctionTable).HoldsFor name symbol →
      table.HoldsFor name symbol := by
    rintro name symbol ⟨block, hblock, hname⟩
    rcases List.mem_cons.mp hblock with rfl | hblock
    · exact ⟨_, List.mem_cons_self, hname⟩
    · rcases hblocks block hblock with rfl | hblock
      · simp at hname
      · exact ⟨block, List.mem_cons_of_mem _ hblock, hname⟩
  exact ⟨fun name symbol hheld => h.named name symbol (hholds name symbol hheld),
    fun name symbol hheld => h.free name symbol (hholds name symbol hheld), h.known, h.distinct⟩

end FunctionTable.Aligned

namespace Symbols

theorem aligned_defineLast {table : FunctionTable} {outer : List FunctionTable} (name : String)
    (h : ∀ other ∈ table :: outer, other.Aligned) :
    ∀ other ∈ (defineLast name table outer).2.1 :: (defineLast name table outer).2.2,
      other.Aligned := by
  induction outer generalizing table with
  | nil =>
    have htable := h table List.mem_cons_self
    exact List.forall_mem_singleton.mpr (htable.takeSlot.insertLevel SymbolKind.noConfusion)
  | cons next outer ih =>
    obtain ⟨htable, hrest⟩ := List.forall_mem_cons.mp h
    exact List.forall_mem_cons.mpr ⟨htable, ih hrest⟩

/-- **A resolved name is that of its symbol**, and where it has been captured the tables stay
aligned. Induction on the functions around. -/
theorem aligned_resolveIn {name : String} {table table' : FunctionTable}
    {outer outer' : List FunctionTable} {symbol : Symbol}
    (hfound : resolveIn name table outer = some (symbol, table', outer'))
    (h : ∀ other ∈ table :: outer, other.Aligned) :
    symbol.name = name ∧ ∀ other ∈ table' :: outer', other.Aligned := by
  induction outer generalizing table table' outer' symbol with
  | nil =>
    rw [resolveIn] at hfound
    split at hfound
    · rename_i hlookup
      cases hfound
      exact ⟨(h _ List.mem_cons_self).named _ _ (holdsFor_of_lookup hlookup), h⟩
    · cases hfound
  | cons next outer ih =>
    rw [resolveIn] at hfound
    split at hfound
    · rename_i hlookup
      cases hfound
      exact ⟨(h _ List.mem_cons_self).named _ _ (holdsFor_of_lookup hlookup), h⟩
    · rename_i hmissing
      simp only at hfound
      split at hfound
      · cases hfound
      · rename_i around next' outer'' hnext
        obtain ⟨htable, hrest⟩ := List.forall_mem_cons.mp h
        -- found further out, under the same name; what is captured is missing here, so it is
        -- captured once
        obtain ⟨rfl, hrest'⟩ := ih hnext hrest
        split at hfound
        · cases hfound
          exact ⟨rfl, List.forall_mem_cons.mpr ⟨htable, hrest'⟩⟩
        · cases hfound
          exact ⟨rfl, List.forall_mem_cons.mpr ⟨htable, hrest'⟩⟩
        all_goals
          cases hfound
          exact ⟨rfl, List.forall_mem_cons.mpr ⟨htable.capture hmissing, hrest'⟩⟩

/-! ## Regular symbols

Bounds, names of globals and alignment together: what every sequence of steps keeps up. -/

/-- **Regular symbols.** All symbols denote places that exist, every global slot has a name, and
captured names are known by the free symbols that stand for them. -/
structure Regular (symbols : Symbols) : Prop where
  bounded : ∃ builtins, Bounded builtins symbols.tables
  named : symbols.Named
  aligned : ∀ table ∈ symbols.tables, table.Aligned

/-- A larger table of built-in functions leaves all symbols within bounds. -/
theorem Bounded.mono {builtins builtins' : Nat} (hle : builtins ≤ builtins') :
    {tables : List FunctionTable} → Bounded builtins tables → Bounded builtins' tables
  | [], _ => trivial
  | _ :: _, ⟨hholds, hcaptured, houter⟩ => by
    refine ⟨fun symbol hsymbol => ?_, hcaptured, Bounded.mono hle houter⟩
    have hwithin := hholds symbol hsymbol
    unfold Symbol.Within at hwithin ⊢
    split at hwithin
    case h_2 => exact Nat.lt_of_lt_of_le hwithin hle
    all_goals exact hwithin

namespace Regular

variable {symbols symbols' : Symbols}

/-- A step that keeps all symbols within bounds. -/
theorem evolves (h : symbols.Regular) (hstep : ∀ builtins, Evolves builtins symbols symbols')
    (haligned : ∀ table ∈ symbols'.tables, table.Aligned) : symbols'.Regular := by
  obtain ⟨builtins, hbounded⟩ := h.bounded
  exact ⟨⟨builtins, (hstep builtins).bounded hbounded⟩, (hstep builtins).named h.named, haligned⟩

theorem define (h : symbols.Regular) (name : String) : (symbols.define name).2.Regular := by
  refine h.evolves (define_evolves · symbols name) ?_
  obtain ⟨table, outer, globals⟩ := symbols
  obtain ⟨htable, hrest⟩ := List.forall_mem_cons.mp h.aligned
  unfold Symbols.define
  simp only
  split
  · exact h.aligned
  · refine List.forall_mem_cons.mpr ⟨htable.takeSlot.insert ?_, hrest⟩
    cases outer <;> exact SymbolKind.noConfusion

theorem defineGlobal (h : symbols.Regular) (name : String) :
    (symbols.defineGlobal name).2.Regular :=
  h.evolves (defineGlobal_evolves · symbols name) (aligned_defineLast name h.aligned)

theorem resolve (h : symbols.Regular) (name : String) : (symbols.resolve name).2.Regular := by
  refine h.evolves (resolve_evolves · symbols name) ?_
  obtain ⟨table, outer, globals⟩ := symbols
  unfold Symbols.resolve
  simp only
  split
  · exact h.aligned
  · rename_i hfound
    exact (aligned_resolveIn hfound h.aligned).2

theorem enterBlock (h : symbols.Regular) : symbols.enterBlock.Regular := by
  refine h.evolves (enterBlock_evolves · symbols) ?_
  obtain ⟨htable, hrest⟩ := List.forall_mem_cons.mp h.aligned
  exact List.forall_mem_cons.mpr
    ⟨htable.of_blocks fun block hblock => List.mem_cons.mp hblock, hrest⟩

theorem leaveBlock (h : symbols.Regular) : symbols.leaveBlock.Regular := by
  refine h.evolves (leaveBlock_evolves · symbols) ?_
  obtain ⟨htable, hrest⟩ := List.forall_mem_cons.mp h.aligned
  exact List.forall_mem_cons.mpr
    ⟨htable.of_blocks fun block hblock => .inr (List.mem_of_mem_tail hblock), hrest⟩

theorem enterFunction (h : symbols.Regular) : symbols.enterFunction.Regular := by
  obtain ⟨builtins, hbounded⟩ := h.bounded
  exact ⟨⟨builtins, bounded_enterFunction hbounded⟩, h.named,
    List.forall_mem_cons.mpr ⟨.empty, h.aligned⟩⟩

theorem leaveFunction (h : symbols.Regular) :
    (symbols.leaveFunction?.getD symbols).Regular := by
  obtain ⟨table, _ | ⟨next, outer⟩, globals⟩ := symbols
  · exact h
  · obtain ⟨builtins, hbounded⟩ := h.bounded
    exact ⟨⟨builtins, hbounded.2.2⟩, h.named, (List.forall_mem_cons.mp h.aligned).2⟩

theorem defineBuiltin (h : symbols.Regular) (index : Nat) (name : String) :
    (symbols.defineBuiltin index name).2.Regular := by
  obtain ⟨table, outer, globals⟩ := symbols
  obtain ⟨htable, hrest⟩ := List.forall_mem_cons.mp h.aligned
  obtain ⟨builtins, hbounded⟩ := h.bounded
  have hmore : Bounded (max builtins (index + 1)) (table :: outer) :=
    hbounded.mono (Nat.le_max_left _ _)
  have hstep : EvolvesAll (max builtins (index + 1)) (table :: outer)
      (table.insertLevel ⟨name, .builtin, index⟩ :: outer) :=
    evolves_table ⟨name, .builtin, index⟩ ⟨Nat.le_refl _, List.prefix_refl _⟩ rfl
      (fun other h => holds_of_insertLevel table h)
      (Nat.lt_of_succ_le (Nat.le_max_right builtins (index + 1)))
  refine ⟨⟨_, hstep.bounded hmore⟩, ?_,
    List.forall_mem_cons.mpr ⟨htable.insertLevel SymbolKind.noConfusion, hrest⟩⟩
  have hnamed := h.named
  cases outer <;> exact hnamed

theorem empty : Symbols.empty.Regular := by
  refine ⟨⟨0, fun symbol hsymbol => ?_, fun around haround => absurd haround ?_, trivial⟩, rfl,
    List.forall_mem_singleton.mpr .empty⟩
  · obtain ⟨block, hblock, name, hname⟩ := hsymbol
    obtain rfl : block = ∅ := List.mem_singleton.mp hblock
    simp at hname
  · exact Array.not_mem_empty around

end Regular

end Symbols

end Scriptlet
