import Scriptlet.Proofs.Agreement.Names
import Scriptlet.Proofs.Names.Echo

/-!
# The sources of code

A function of the text, or the whole text, is the source of the code that echoes it. For every
executable of the compiler that of the main code is the program (`Compilation.program_describes`);
from there on the source of a function is found in the text of the one around it. What one
instruction of a code does to variables is what stands at its place in the source (`Executes`).

`Echoes` is about a whole list of instructions; a run of the machine executes one at a time, in an
order of its own. So here the echo is broken up: each instruction of a described code either does
nothing to variables, or it reads or writes a place of a name that occurs in the source, or it makes
a closure of a function of the source. Operands are those that the machine reads back from the
bytes, so this is also where the width of an operand comes in.
-/

namespace Scriptlet

/-- A function of the text: its parameters, its body, the names that are fixed in it, and the places
that its code refers to. The top level is one without parameters. -/
structure Source where
  params : List String
  body : List Stmt
  fixed : Fixed
  places : Places

/-- Code that echoes a text. -/
structure Source.Describes (source : Source) (builtins : List String) (constants : Array Value)
    (fn : FunctionCode) : Prop where
  echoes : ∃ instrs, Tiles fn.code 0 fn.code.size instrs
    ∧ Echoes constants source.fixed source.places (Stmt.occurrencesAll source.body) instrs
  builtins : source.places.builtins = builtins
  free : fn.captures.length = source.places.free.length
  free_lt : fn.captures.length < Compilation.maxLocals
  locals : fn.locals = source.places.slots.length
  locals_le : fn.locals ≤ Compilation.maxLocals
  arity : fn.params = source.params.length
  distinct : source.params.Nodup → source.params <+: source.places.slots
  keeps : source.places.Keeps source.fixed
  /-- Only parameters are fixed to slots. -/
  own : ∀ name, source.fixed name = some .slot → name ∈ source.params ∧ source.params.Nodup

/-- A function of the text of another one, with the variables that its code captures. -/
structure Source.Encloses (source inner : Source) (captures : List Capture) : Prop where
  made : MakesFunction inner.params inner.body (Stmt.occurrencesAll source.body)
  captured : captures.map source.places.captured? = inner.places.free.map some
  fixed : inner.fixed = source.fixed.inside inner.params inner.body
  unhidden : ∀ name kind, source.fixed name = some kind → name ∉ inner.params

/-- The functions of a text, at any depth, and the text itself. -/
inductive Source.Contains (top : Source) : Source → Prop
  | self : top.Contains top
  | inner {source inner : Source} {captures : List Capture} :
    top.Contains source → source.Encloses inner captures → top.Contains inner

/-- A parameter that is the only one of its name and not rebound. -/
structure Source.Passes (source : Source) (name : String) : Prop where
  mem : name ∈ source.params
  nodup : source.params.Nodup
  kept : Stmt.rebindsAny name source.body = false

/-- What an instruction may do to variables, by the source of its code. An index in a table of
built-in functions that is too long says nothing. -/
inductive Source.Executes (source : Source) (builtins : List String) (constants : Array Value) :
    Op → List Nat → Prop
  | plain {op : Op} {operands : List Nat} :
    op.names = false → source.Executes builtins constants op operands
  | read {op : Op} {kind : SymbolKind} {index : Nat} {name : String} :
    op.reads? = some kind → source.places.name? kind index = some name →
    (∀ kind', source.fixed name = some kind' → kind = kind') →
    source.Executes builtins constants op [index]
  | readBuiltin {index : Nat} :
    Compilation.maxLocals < builtins.length →
    source.Executes builtins constants .getBuiltin [index]
  | write {op : Op} {kind : SymbolKind} {index : Nat} {name : String} :
    op.writes? = some kind → source.places.name? kind index = some name →
    source.fixed name = none → source.Executes builtins constants op [index]
  | closure {inner : Source} {index : Nat} {id : Identity} {fn : FunctionCode} :
    constants[index]? = some (.compiled id fn) → inner.Describes builtins constants fn →
    source.Encloses inner fn.captures →
    source.Executes builtins constants .closure [index, fn.captures.length]

theorem Op.reads?_of_writes {op : Op} {kind : SymbolKind} (h : op.writes? = some kind) :
    op.reads? = none := by
  cases op <;> first | rfl | cases h

namespace Source.Executes

variable {source : Source} {builtins : List String} {constants : Array Value} {op : Op}
  {kind : SymbolKind} {index count : Nat}

/-- What is read has a name, and is where the name is fixed. -/
theorem read_inv (h : source.Executes builtins constants op [index]) (hop : op.reads? = some kind)
    (hfew : kind = .builtin → builtins.length ≤ Compilation.maxLocals) :
    ∃ name, source.places.name? kind index = some name
      ∧ ∀ kind', source.fixed name = some kind' → kind = kind' := by
  cases h with
  | plain hplain =>
    rw [Op.names, hop] at hplain
    cases hplain
  | read hop' hname hkind =>
    obtain rfl := Option.some.inj (hop.symm.trans hop')
    exact ⟨_, hname, hkind⟩
  | readBuiltin hlong =>
    obtain rfl := Option.some.inj hop
    exact absurd (hfew rfl) (Nat.not_le_of_lt hlong)
  | write hop' =>
    rw [Op.reads?_of_writes hop'] at hop
    cases hop

/-- What is written has a name that is not fixed. -/
theorem write_inv (h : source.Executes builtins constants op [index])
    (hop : op.writes? = some kind) :
    ∃ name, source.places.name? kind index = some name ∧ source.fixed name = none := by
  cases h with
  | plain hplain =>
    rw [Op.names, hop, Option.isSome_some, Bool.or_true] at hplain
    cases hplain
  | read hop' =>
    rw [Op.reads?_of_writes hop] at hop'
    cases hop'
  | readBuiltin => cases hop
  | write hop' hname hfixed =>
    obtain rfl := Option.some.inj (hop.symm.trans hop')
    exact ⟨_, hname, hfixed⟩

/-- The code of a new closure has a source. -/
theorem closure_inv (h : source.Executes builtins constants .closure [index, count]) :
    ∃ inner id fn, constants[index]? = some (.compiled id fn) ∧ count = fn.captures.length
      ∧ inner.Describes builtins constants fn ∧ source.Encloses inner fn.captures := by
  cases h with
  | plain hplain => cases hplain
  | closure hconst hdescribes hencloses => exact ⟨_, _, _, hconst, rfl, hdescribes, hencloses⟩

end Source.Executes

/-- Only a parameter is fixed to a slot. -/
theorem Fixed.inside_slot {fixed : Fixed} {params : List String} {body : List Stmt} {name : String}
    (h : fixed.inside params body name = some .slot) : name ∈ params ∧ params.Nodup := by
  unfold Fixed.inside Fixed.passed at h
  split at h
  · rename_i hparam
    exact ⟨hparam.1, hparam.2.1⟩
  · split at h
    · cases h
    · obtain ⟨kind, -, hkind⟩ := Option.map_eq_some_iff.mp h
      cases kind <;> cases hkind

/-- What is fixed around a function, and not hidden by a parameter, is fixed inside. -/
theorem Source.Encloses.fixed_inner {source inner : Source} {captures : List Capture}
    (h : source.Encloses inner captures) {name : String} {kind : SymbolKind}
    (hname : source.fixed name = some kind) : inner.fixed name = some kind.inside := by
  have hhidden := h.unhidden name kind hname
  rw [h.fixed, Fixed.inside, if_neg fun hparam => hhidden hparam.1, Fixed.passed,
    if_neg hhidden, hname]
  rfl

/-- A parameter of a function around is free inside. -/
theorem Source.Encloses.fixed_free_iff {source inner : Source} {captures : List Capture}
    (h : source.Encloses inner captures) (name : String) :
    inner.fixed name = some .free
      ↔ source.fixed name = some .slot ∨ source.fixed name = some .free := by
  constructor
  · intro hname
    rw [h.fixed, Fixed.inside] at hname
    split at hname
    · cases hname
    · unfold Fixed.passed at hname
      split at hname
      · cases hname
      · obtain ⟨kind, hkind, hinside⟩ := Option.map_eq_some_iff.mp hname
        cases kind with
        | slot => exact .inl hkind
        | free => exact .inr hkind
        | global | builtin => cases hinside
  · rintro (hname | hname) <;> exact h.fixed_inner hname

/-- The names of built-in functions that are fixed in a text are fixed in all its functions. -/
theorem Source.Contains.fixed_builtin {top source : Source} (h : top.Contains source)
    {name : String} (hname : top.fixed name = some .builtin) :
    source.fixed name = some .builtin := by
  induction h with
  | self => exact hname
  | inner _ hinner ih => exact hinner.fixed_inner ih

/-- A parameter that is passed is fixed to its slot. -/
theorem Source.Contains.fixed_slot {top source : Source} (h : top.Contains source)
    (hparams : top.params = []) {name : String} (hname : source.Passes name) :
    source.fixed name = some .slot := by
  cases h with
  | self =>
    have hmem := hname.mem
    rw [hparams] at hmem
    cases hmem
  | inner _ hinner =>
    rw [hinner.fixed, Fixed.inside, if_pos ⟨hname.mem, hname.nodup, hname.kept⟩]

section Describes

variable {source : Source} {builtins : List String} {constants : Array Value} {fn : FunctionCode}

/-- What an instruction reads or writes is what its bytes say, if the index has room in them. -/
theorem Op.readBack_index {op : Op} {kind : SymbolKind} {index : Nat}
    (hop : op.reads? = some kind ∨ op.writes? = some kind)
    (hglobal : kind = .global → index < Compilation.maxGlobals)
    (hindex : kind ≠ .global → index < Compilation.maxLocals) :
    readBack op.widths [index] = [index] := by
  have hbyte : index < Compilation.maxLocals → readBack [1] [index] = [index] := fun h =>
    congrArg (fun n => [n]) (Nat.mod_eq_of_lt h)
  have hword : index < Compilation.maxGlobals → readBack [2] [index] = [index] := fun h =>
    congrArg (fun n => [n]) (Nat.mod_eq_of_lt h)
  rcases hop with hop | hop
  all_goals
    cases op <;> cases hop
    all_goals first
      | exact hword (hglobal rfl)
      | exact hbyte (hindex (by decide))

/-- An index that has a name stands in one byte, unless it is that of a global or the table of
built-in functions is too long. -/
theorem Places.index_lt {places : Places} {kind : SymbolKind} {index : Nat} {name : String}
    (hname : places.name? kind index = some name)
    (hslots : places.slots.length ≤ Compilation.maxLocals)
    (hfree : places.free.length ≤ Compilation.maxLocals)
    (hbuiltins : kind = .builtin → places.builtins.length ≤ Compilation.maxLocals)
    (hkind : kind ≠ .global) : index < Compilation.maxLocals := by
  cases kind with
  | global => exact absurd rfl hkind
  | slot => exact Nat.lt_of_lt_of_le (List.getElem?_eq_some_iff.mp hname).1 hslots
  | free => exact Nat.lt_of_lt_of_le (List.getElem?_eq_some_iff.mp hname).1 hfree
  | builtin => exact Nat.lt_of_lt_of_le (List.getElem?_eq_some_iff.mp hname).1 (hbuiltins rfl)

/-- A function that is made somewhere in a text is the source of its code. -/
theorem Places.Inside.describes {fixed : Fixed} {places inner : Places} {params : List String}
    {body : List Stmt} {fn : FunctionCode} {constants : Array Value} {own : List Instruction}
    (h : places.Inside fixed params body fn inner) (htiles : Tiles fn.code 0 fn.code.size own)
    (hechoes : Echoes constants (fixed.inside params body) inner (Stmt.occurrencesAll body) own) :
    Source.Describes ⟨params, body, fixed.inside params body, inner⟩ places.builtins constants
      fn where
  echoes := ⟨own, htiles, hechoes⟩
  builtins := h.builtins
  free := by
    have hlength := congrArg List.length h.captured
    rwa [List.length_map, List.length_map] at hlength
  free_lt := h.captures_lt
  locals := h.locals
  locals_le := h.locals_le
  arity := h.arity
  distinct := h.distinct
  keeps := h.keeps
  own _ hname := Fixed.inside_slot hname

/-- Code that echoes a text does to variables what the text says. -/
theorem Echoes.executes {fixed : Fixed} {places : Places} {constants : Array Value}
    {occurrences : List Occurrence} {instrs : List Instruction} (params : List String)
    {body : List Stmt} (h : Echoes constants fixed places occurrences instrs)
    (hmade : ∀ params' body', MakesFunction params' body' occurrences →
      MakesFunction params' body' (Stmt.occurrencesAll body))
    (hslots : places.slots.length ≤ Compilation.maxLocals)
    (hfree : places.free.length ≤ Compilation.maxLocals) :
    ∀ i ∈ instrs, Source.Executes ⟨params, body, fixed, places⟩ places.builtins constants i.op
      (readBack i.op.widths i.operands) := by
  induction h with
  | nil => exact fun _ hi => absurd hi List.not_mem_nil
  | plain hop _ ih => exact List.forall_mem_cons.mpr ⟨.plain hop, ih hmade hslots hfree⟩
  | @read fixed places name occurrences p index op kind instrs hop hname hglobal hkind _ ih =>
    refine List.forall_mem_cons.mpr ⟨?_, ih (fun _ _ h => hmade _ _ (.later h)) hslots hfree⟩
    -- an operand is read back as it was written if it fits a byte, and all indices do but those of
    -- a table of too many builtin functions
    by_cases hlong : kind = .builtin ∧ Compilation.maxLocals < places.builtins.length
    · obtain ⟨rfl, hlong⟩ := hlong
      -- of that read the source says only that a builtin function is read
      obtain rfl : op = .getBuiltin := by cases op <;> first | rfl | cases hop
      exact .readBuiltin hlong
    · have hback : readBack op.widths [index] = [index] :=
        Op.readBack_index (.inl hop) hglobal (places.index_lt hname hslots hfree
          fun hbuiltin => Nat.le_of_not_lt fun hlt => hlong ⟨hbuiltin, hlt⟩)
      show Source.Executes _ _ _ op (readBack op.widths [index])
      rw [hback]
      exact .read hop hname hkind
  | @write fixed places name occurrences p index op kind instrs hop hname hglobal hfixed _ ih =>
    refine List.forall_mem_cons.mpr ⟨?_, ih (fun _ _ h => hmade _ _ (.later h)) hslots hfree⟩
    have hback : readBack op.widths [index] = [index] :=
      Op.readBack_index (.inr hop) hglobal (places.index_lt hname hslots hfree fun hbuiltin => by
        subst hbuiltin
        cases op <;> cases hop)
    show Source.Executes _ _ _ op (readBack op.widths [index])
    rw [hback]
    exact .write hop hname hfixed
  | @function inner fixed places params' body' _ p index id fn own instrs hindex hconst hinside
      htiles hown _ _ ih =>
    refine List.forall_mem_cons.mpr ⟨?_, ih (fun _ _ h => hmade _ _ (.later h)) hslots hfree⟩
    have hback : readBack Op.closure.widths [index, fn.captures.length]
        = [index, fn.captures.length] :=
      congrArg₂ (fun index count => [index, count]) (Nat.mod_eq_of_lt hindex)
        (Nat.mod_eq_of_lt hinside.captures_lt)
    show Source.Executes _ _ _ .closure (readBack Op.closure.widths _)
    rw [hback]
    exact .closure hconst (hinside.describes htiles hown)
      ⟨hmade _ _ .here, hinside.captured, rfl, hinside.unhidden⟩
  | quoted _ ih => exact ih (fun _ _ h => hmade _ _ (.later h)) hslots hfree
  | called _ ih =>
    refine ih (fun _ _ h => hmade _ _ ?_) hslots hfree
    cases h with
    | later h => exact h.append_cases.elim .argument .later

end Describes

/-! ## Programs -/

/-- What is known of the names in a program from the start: that of a built-in function is fixed if
the program does not rebind it. -/
def Program.fixed (table : BuiltinTable) (program : Program) : Fixed := fun name =>
  if name ∈ table.map Builtin.name ∧ program.rebinds name = false then some .builtin else none

/-- A program as the source of the main code of an executable. -/
def Program.source (table : BuiltinTable) (exe : Executable) (program : Program) : Source :=
  ⟨[], program, program.fixed table, ⟨table.map Builtin.name, exe.globals.toList, [], []⟩⟩

theorem Program.fixed_eq {table : BuiltinTable} {prog : Program} {name : String}
    {kind : SymbolKind} (h : Program.fixed table prog name = some kind) :
    kind = .builtin ∧ name ∈ table.map Builtin.name ∧ Program.rebinds name prog = false := by
  unfold Program.fixed at h
  split at h
  · rename_i hname
    exact ⟨(Option.some.inj h).symm, hname⟩
  · cases h

/-- The symbols of an empty program are labelled, and names of built-in functions may be fixed. -/
theorem Symbols.labelled_ofBuiltins (names : List String) {fixed : Fixed}
    (hfixed : ∀ name kind, fixed name = some kind → kind = .builtin ∧ name ∈ names) :
    (Symbols.ofBuiltins names).Labelled names [⟨fixed, []⟩] := by
  have hnamed : ∀ table ∈ (Symbols.ofBuiltins names).tables, table.Aligned := by
    refine Symbols.ofBuiltins_induction
      (motive := fun symbols => ∀ table ∈ symbols.tables, table.Aligned) names
      (fun table htable => ?_) fun ⟨table, outer, globals⟩ index name h => ?_
    · rw [List.mem_singleton.mp htable]
      exact FunctionTable.Aligned.empty
    · obtain ⟨htable, houter⟩ := List.forall_mem_cons.mp h
      exact List.forall_mem_cons.mpr ⟨htable.insertLevel SymbolKind.noConfusion, houter⟩
  obtain ⟨level, heq, honly, hthere⟩ := Symbols.ofBuiltins_level names
  rw [heq] at hnamed ⊢
  refine .top rfl rfl (fun name symbol hsymbol => ⟨?_, ?_⟩) fun name kind hname => ?_
  · exact (hnamed _ List.mem_cons_self).named name symbol hsymbol
  · obtain ⟨block, hblock, hheld⟩ := hsymbol
    obtain rfl : block = level := List.mem_singleton.mp hblock
    obtain ⟨hkind, hindex⟩ := honly name symbol hheld
    rw [hkind]
    exact hindex
  · obtain ⟨rfl, hmem⟩ := hfixed name kind hname
    exact ⟨rfl, Std.TreeMap.mem_iff_isSome_getElem?.mpr (hthere name hmem), List.not_mem_nil⟩

/-- The main code of an executable comes from the program. -/
theorem Compilation.program_describes {table : BuiltinTable} {prog : Program} {exe : Executable}
    (h : Compilation.program table prog = .ok exe) :
    (Program.source table exe prog).Describes (table.map Builtin.name) exe.constants
      ⟨exe.code, 0, 0, []⟩ := by
  obtain ⟨symbols, hglobals, houter, hlaid⟩ := Compilation.program_laid h
  have hlabelled := Symbols.labelled_ofBuiltins (table.map Builtin.name)
    fun name kind (hname : Program.fixed table prog name = some kind) =>
      ⟨(Program.fixed_eq hname).1, (Program.fixed_eq hname).2.1⟩
  have hechoed := @StmtsAt.echoed ⟨table.map Builtin.name, exe.constants⟩ exe.code none prog .drop 0
    _ _ hlaid _ hlabelled fun name kind hname =>
      Stmt.noneRebinds_all name prog (Program.fixed_eq hname).2.2
  obtain ⟨layers, instrs, hlabels, htiles, hechoes⟩ := hechoed
  obtain ⟨last, outer, globals⟩ := symbols
  obtain rfl : outer = [] := houter
  have hlast : LabelledAll _ _ layers [last] := hlabels.labelled
  have hplaces : placesOf (table.map Builtin.name) globals.toList layers [last]
      = (Program.source table exe prog).places := by
    rw [Program.source, hglobals]
    cases hlast with
    | top hcaptured =>
      simp [placesOf, FunctionTable.freeNames, hcaptured]
    | nested _ _ _ _ hnone => cases hnone
  -- no slot and no captured variable has a name
  refine ⟨⟨instrs, htiles, hechoes _ ?_⟩, rfl, rfl, Nat.zero_lt_succ _, rfl, Nat.zero_le _, rfl,
    fun _ => List.prefix_refl _, ⟨?_, ?_, ?_⟩, ?_⟩
  · exact hplaces ▸ .refl _
  · exact fun name kind _ hmem => absurd hmem List.not_mem_nil
  · exact fun name kind _ hmem => absurd hmem List.not_mem_nil
  · exact fun name _ i j hi => absurd hi (by simp [Program.source])
  · intro name hname
    cases (Program.fixed_eq hname).1

end Scriptlet
