import Scriptlet.Proofs.Layout.Compiled
import Scriptlet.Proofs.Layout.Decoding
import Scriptlet.Proofs.Layout.Reach
import Scriptlet.Proofs.Names.Labels

/-!
# Code echoes the names of its text

The instructions that read and write variables are, in order, the reads and writes of the text that
the code was compiled from, and each refers to a place of the name that stands in the text
(`Echoes`). Where the text has a function, the code makes a closure: the code of that function
echoes the body in turn, and what the closure captures goes by the same names inside and outside. A
name that is fixed is read from its place wherever it stands in the text, and never written.
`StmtsAt.echoed` finds all this in the layout of a code.

The statement about a part is that its code echoes its occurrences whenever the symbols at its start
are labelled (`Context.Echoed`). Parts compose like lists, since both the occurrences of a text and
the instructions of a code are concatenated. The names of places are only complete when the function
has been compiled, so the echo is asked for with all places that may still be added.
-/

namespace Scriptlet

/-! ## Echoes

The relation between a list of occurrences and a list of instructions. Instructions that have
nothing to do with variables are skipped; each other one goes with the next occurrence. For a call
of the name `quote` both readings are allowed, as data and as a call. -/

/-- The kind of the places that an instruction reads. -/
def Op.reads? : Op → Option SymbolKind
  | .getGlobal => some .global
  | .getLocal => some .slot
  | .getBuiltin => some .builtin
  | .getFree => some .free
  | _ => none

/-- The kind of the places that an instruction writes. -/
def Op.writes? : Op → Option SymbolKind
  | .setGlobal => some .global
  | .setLocal => some .slot
  | .setFree => some .free
  | _ => none

/-- Whether an instruction has to do with variables. -/
def Op.names (op : Op) : Bool :=
  op.reads?.isSome || op.writes?.isSome || op == .closure

/-- The places of a function keep to what is fixed in it: a fixed name stands in one list only, and
a slot of that name is the only one. -/
structure Places.Keeps (fixed : Fixed) (places : Places) : Prop where
  slots : ∀ name kind, fixed name = some kind → name ∈ places.slots → kind = .slot
  free : ∀ name kind, fixed name = some kind → name ∈ places.free → kind = .free
  once : ∀ name, fixed name = some .slot →
    ∀ i j : Nat, places.slots[i]? = some name → places.slots[j]? = some name → i = j

/-- **The places in a function that is made where others are in use.** Besides the names of what it
captures, the numbers that its constant holds are fixed here: slots, parameters and captures are as
many as the places say. -/
structure Places.Inside (fixed : Fixed) (places : Places) (params : List String)
    (body : List Stmt) (fn : FunctionCode) (inner : Places) : Prop where
  builtins : inner.builtins = places.builtins
  globals : inner.globals = places.globals
  /-- What is captured has the same name inside and outside. -/
  captured : fn.captures.map places.captured? = inner.free.map some
  captures_lt : fn.captures.length < Compilation.maxLocals
  locals : fn.locals = inner.slots.length
  locals_le : fn.locals ≤ Compilation.maxLocals
  arity : fn.params = params.length
  /-- The arguments of a call are the values of the parameters of their indices. -/
  distinct : params.Nodup → params <+: inner.slots
  keeps : inner.Keeps (fixed.inside params body)
  /-- What is fixed around is not hidden by a parameter. -/
  unhidden : ∀ name kind, fixed name = some kind → name ∉ params

/-- **Instructions read and write the variables of a text in order, and make its functions.** -/
inductive Echoes (constants : Array Value) :
    Fixed → Places → List Occurrence → List Instruction → Prop
  | nil {fixed : Fixed} {places : Places} : Echoes constants fixed places [] []
  | plain {fixed : Fixed} {places : Places} {occurrences : List Occurrence} {i : Instruction}
    {instrs : List Instruction} :
    i.op.names = false → Echoes constants fixed places occurrences instrs →
    Echoes constants fixed places occurrences (i :: instrs)
  | read {fixed : Fixed} {places : Places} {name : String} {occurrences : List Occurrence}
    {p index : Nat} {op : Op} {kind : SymbolKind} {instrs : List Instruction} :
    op.reads? = some kind → places.name? kind index = some name →
    (kind = .global → index < Compilation.maxGlobals) →
    (∀ kind', fixed name = some kind' → kind = kind') →
    Echoes constants fixed places occurrences instrs →
    Echoes constants fixed places (.read name :: occurrences) (⟨p, op, [index]⟩ :: instrs)
  | write {fixed : Fixed} {places : Places} {name : String} {occurrences : List Occurrence}
    {p index : Nat} {op : Op} {kind : SymbolKind} {instrs : List Instruction} :
    op.writes? = some kind → places.name? kind index = some name →
    (kind = .global → index < Compilation.maxGlobals) → fixed name = none →
    Echoes constants fixed places occurrences instrs →
    Echoes constants fixed places (.write name :: occurrences) (⟨p, op, [index]⟩ :: instrs)
  /-- The code of a function echoes its body. -/
  | function (inner : Places) {fixed : Fixed} {places : Places} {params : List String}
    {body : List Stmt} {occurrences : List Occurrence} {p index : Nat} {id : Identity}
    {fn : FunctionCode} {own instrs : List Instruction} :
    index < Compilation.maxConstants → constants[index]? = some (.compiled id fn) →
    places.Inside fixed params body fn inner →
    Tiles fn.code 0 fn.code.size own →
    Echoes constants (fixed.inside params body) inner (Stmt.occurrencesAll body) own →
    Echoes constants fixed places occurrences instrs →
    Echoes constants fixed places (.function params body :: occurrences)
      (⟨p, .closure, [index, fn.captures.length]⟩ :: instrs)
  /-- The argument of `quote` is data. -/
  | quoted {fixed : Fixed} {places : Places} {args : List Expr} {occurrences : List Occurrence}
    {instrs : List Instruction} :
    Echoes constants fixed places occurrences instrs →
    Echoes constants fixed places (.quote args :: occurrences) instrs
  /-- The name `quote` means something else. -/
  | called {fixed : Fixed} {places : Places} {args : List Expr} {occurrences : List Occurrence}
    {instrs : List Instruction} :
    Echoes constants fixed places
      (.read "quote" :: (Expr.occurrencesAll args ++ occurrences)) instrs →
    Echoes constants fixed places (.quote args :: occurrences) instrs

namespace Echoes

variable {constants : Array Value} {fixed : Fixed} {places places' : Places}
  {occurrences more : List Occurrence} {instrs rest : List Instruction}

theorem append (h : Echoes constants fixed places occurrences instrs)
    (h' : Echoes constants fixed places more rest) :
    Echoes constants fixed places (occurrences ++ more) (instrs ++ rest) := by
  induction h with
  | nil => exact h'
  | plain hop _ ih => exact .plain hop (ih h')
  | read hop hname hindex hkind _ ih => exact .read hop hname hindex hkind (ih h')
  | write hop hname hindex hfixed _ ih => exact .write hop hname hindex hfixed (ih h')
  | function inner hindex hconst hinside htiles hown _ _ ih =>
    exact .function inner hindex hconst hinside htiles hown (ih h')
  | quoted _ ih => exact .quoted (ih h')
  | called _ ih =>
    have hcalled := ih h'
    rw [List.cons_append, List.append_assoc] at hcalled
    exact .called hcalled

end Echoes

/-! ## Parts of a layout

One lemma for each combinator, as for the other statements about layouts. The order of the
occurrences is that of the code, which for `<` is not that of the text; `Expr.occurrences` has it in
the same order. -/

/-- No occurrence rebinds a fixed name. -/
def Fixed.Respects (fixed : Fixed) (occurrences : List Occurrence) : Prop :=
  ∀ name kind, fixed name = some kind → NoneRebinds name occurrences

/-- What all parts have in common: the built-in functions and the constants. -/
structure Context where
  builtins : List String
  constants : Array Value

/-- **The code from `a` to `b` echoes the occurrences of a text**, and the symbols at `b` are
labelled if those at `a` are. More places may be added behind `b`. -/
def Context.EchoedFrom (c : Context) (layers : List Layer) (code : Code) (a b : Point)
    (occurrences : List Occurrence) : Prop :=
  ∃ layers' instrs, Symbols.Labels c.builtins layers layers' a.symbols b.symbols
    ∧ Tiles code a.position b.position instrs
    ∧ ∀ places, (b.symbols.places c.builtins layers').Grows places →
      Echoes c.constants (fixedIn layers) places occurrences instrs

/-- A part does so wherever the symbols are labelled, if it rebinds no fixed name. -/
def Context.Echoed (c : Context) (code : Code) (a b : Point) (occurrences : List Occurrence) :
    Prop :=
  ∀ layers, a.symbols.Labelled c.builtins layers → (fixedIn layers).Respects occurrences →
    c.EchoedFrom layers code a b occurrences

section Parts

variable {c : Context} {layers : List Layer} {code : Code} {a b m : Point}
  {occurrences more : List Occurrence}

theorem Fixed.Respects.left {fixed : Fixed} (h : fixed.Respects (occurrences ++ more)) :
    fixed.Respects occurrences :=
  fun name kind hname o ho => h name kind hname o (List.mem_append_left _ ho)

theorem Fixed.Respects.right {fixed : Fixed} (h : fixed.Respects (occurrences ++ more)) :
    fixed.Respects more :=
  fun name kind hname o ho => h name kind hname o (List.mem_append_right _ ho)

/-- What is written is not fixed. -/
theorem Fixed.Respects.write {fixed : Fixed} {name : String} (h : fixed.Respects [.write name]) :
    fixed name = none := by
  cases hname : fixed name with
  | none => rfl
  | some kind =>
    exact absurd (h name kind hname _ List.mem_cons_self) (by simp [Occurrence.rebinds])

theorem Context.EchoedFrom.trans {layers' : List Layer}
    (hlabels : Symbols.Labels c.builtins layers layers' a.symbols m.symbols)
    {instrs : List Instruction} (htiles : Tiles code a.position m.position instrs)
    (hechoes : ∀ places, (m.symbols.places c.builtins layers').Grows places →
      Echoes c.constants (fixedIn layers) places occurrences instrs)
    (h : c.EchoedFrom layers' code m b more) :
    c.EchoedFrom layers code a b (occurrences ++ more) := by
  obtain ⟨layers'', rest, hlabels', htiles', hechoes'⟩ := h
  refine ⟨layers'', instrs ++ rest, hlabels.trans hlabels', htiles.append htiles',
    fun places hgrows => (hechoes places (hlabels'.grows.trans hgrows)).append ?_⟩
  rw [← hlabels.fixed]
  exact hechoes' places hgrows

/-- Two parts in turn. The places at the end of the first one have grown at the end of the second,
which its echo allows. -/
theorem Context.Echoed.trans (h : c.Echoed code a m occurrences)
    (h' : c.Echoed code m b more) : c.Echoed code a b (occurrences ++ more) := by
  intro layers hlabelled hfixed
  obtain ⟨layers', instrs, hlabels, htiles, hechoes⟩ := h layers hlabelled hfixed.left
  refine .trans hlabels htiles hechoes (h' layers' hlabels.labelled ?_)
  rw [hlabels.fixed]
  exact hfixed.right

/-- Nothing is emitted, and the symbols stay labelled. -/
theorem echoed_nil (hposition : b.position = a.position)
    (h : ∀ layers, a.symbols.Labelled c.builtins layers →
      Symbols.Labels c.builtins layers layers a.symbols b.symbols) :
    c.Echoed code a b [] :=
  fun layers hlabelled _ => ⟨layers, [], h layers hlabelled, hposition.symm, fun _ _ => .nil⟩

theorem Context.Echoed.refl (c : Context) (code : Code) (a : Point) : c.Echoed code a a [] :=
  echoed_nil rfl fun _ h => h.refl

/-- Only the symbols change. -/
theorem echoed_withSymbols {symbols : Symbols}
    (h : ∀ layers, a.symbols.Labelled c.builtins layers →
      Symbols.Labels c.builtins layers layers a.symbols symbols) :
    c.Echoed code a (a.withSymbols symbols) [] :=
  echoed_nil rfl h

theorem Context.Echoed.trans_nil (h : c.Echoed code a m occurrences)
    (h' : c.Echoed code m b []) : c.Echoed code a b occurrences := by
  have htrans := h.trans h'
  rwa [List.append_nil] at htrans

theorem Context.EchoedFrom.after {layers' : List Layer} {symbols : Symbols}
    (hlabels : Symbols.Labels c.builtins layers layers' a.symbols symbols)
    (h : c.EchoedFrom layers' code (a.withSymbols symbols) b occurrences) :
    c.EchoedFrom layers code a b occurrences :=
  have htiles : Tiles code a.position (a.withSymbols symbols).position [] := rfl
  .trans hlabels htiles (fun _ _ => .nil) h

/-- One instruction. -/
theorem OpAt.echoedFrom {op : Op} {operands : List Nat} (h : OpAt code op operands a b)
    (hlabelled : a.symbols.Labelled c.builtins layers)
    (hechoes : ∀ places, (a.symbols.places c.builtins layers).Grows places →
      Echoes c.constants (fixedIn layers) places occurrences [⟨a.position, op, operands⟩]) :
    c.EchoedFrom layers code a b occurrences := by
  obtain ⟨hinstr, rfl⟩ := h
  exact ⟨layers, [⟨a.position, op, operands⟩], hlabelled.refl, ⟨rfl, hinstr, rfl⟩, hechoes⟩

theorem OpAt.echoed {op : Op} {operands : List Nat} (h : OpAt code op operands a b)
    (hop : op.names = false := by rfl) : c.Echoed code a b [] :=
  fun _ hlabelled _ => h.echoedFrom hlabelled fun _ _ => .plain hop .nil

theorem ConstAt.echoed {value : Value} (h : ConstAt code c.constants value a b) :
    c.Echoed code a b [] := by
  have hechoed : c.Echoed code a.addConstant b [] := h.2.2.echoed
  exact hechoed

/-- A place of a name is read. -/
theorem LoadAt.echoedFrom {symbol : Symbol} {name : String} (h : LoadAt code symbol a b)
    (hlabelled : a.symbols.Labelled c.builtins layers)
    (hdenotes : symbol.Denotes (a.symbols.places c.builtins layers) name)
    (hfixed : ∀ kind, fixedIn layers name = some kind → symbol.kind = kind) :
    c.EchoedFrom layers code a b [.read name] := by
  have hread : ∀ {op : Op}, op.reads? = some symbol.kind →
      (symbol.kind = .global → symbol.index < Compilation.maxGlobals) →
      OpAt code op [symbol.index] a b → c.EchoedFrom layers code a b [.read name] :=
    fun hop hindex h => h.echoedFrom hlabelled fun _ hgrows =>
      .read hop (hgrows.name? hdenotes.2) hindex hfixed .nil
  unfold LoadAt at h
  split at h <;> rename_i hkind
  · exact hread (by rw [hkind]; rfl) (fun _ => h.1) h.2
  all_goals exact hread (by rw [hkind]; rfl) (by rw [hkind]; exact nofun) h

/-- A place of a name is written. The name of a built-in function gets a global, which then is the
place that is written. -/
theorem StoreAt.echoedFrom {symbol : Symbol} {name : String} (h : StoreAt code symbol a b)
    (hlabelled : a.symbols.Labelled c.builtins layers)
    (hdenotes : symbol.Denotes (a.symbols.places c.builtins layers) name)
    (hname : fixedIn layers name = none) :
    c.EchoedFrom layers code a b [.write name] := by
  have hwrite : ∀ {op : Op}, op.writes? = some symbol.kind →
      (symbol.kind = .global → symbol.index < Compilation.maxGlobals) →
      OpAt code op [symbol.index] a b → c.EchoedFrom layers code a b [.write name] :=
    fun hop hindex h => h.echoedFrom hlabelled fun _ hgrows =>
      .write hop (hgrows.name? hdenotes.2) hindex hname .nil
  unfold StoreAt at h
  split at h <;> rename_i hkind
  · exact hwrite (by rw [hkind]; rfl) (fun _ => h.1) h.2
  · exact hwrite (by rw [hkind]; rfl) (by rw [hkind]; exact nofun) h.2
  · exact hwrite (by rw [hkind]; rfl) (by rw [hkind]; exact nofun) h
  · obtain ⟨rfl, -⟩ := hdenotes
    obtain ⟨hlabels, -, hplace⟩ := hlabelled.defineGlobal hname
    have hindex : (a.symbols.defineGlobal symbol.name).1.index < Compilation.maxGlobals := h.1
    have hop : OpAt code .setGlobal [(a.symbols.defineGlobal symbol.name).1.index]
      (a.withSymbols (a.symbols.defineGlobal symbol.name).2) b := h.2
    rw [Symbols.defineGlobal_symbol] at hplace hop hindex
    exact .after hlabels <| hop.echoedFrom hlabels.labelled fun _ hgrows =>
      .write rfl (hgrows.name? hplace) (fun _ => hindex) hname .nil

/-- A variable is read, wherever it is found. -/
theorem echoed_ident {name : String}
    (h : LoadAt code (a.symbols.require name).1 (a.withSymbols (a.symbols.require name).2) b) :
    c.Echoed code a b [.read name] := by
  intro layers hlabelled _
  obtain ⟨hlabels, hdenotes, hkind⟩ := hlabelled.require name
  exact .after hlabels (h.echoedFrom hlabels.labelled hdenotes hkind)

/-- A variable is written, wherever it is found. -/
theorem echoed_assign {name : String}
    (h : StoreAt code (a.symbols.require name).1 (a.withSymbols (a.symbols.require name).2) b) :
    c.Echoed code a b [.write name] := by
  intro layers hlabelled hfixed
  obtain ⟨hlabels, hdenotes, -⟩ := hlabelled.require name
  exact .after hlabels (h.echoedFrom hlabels.labelled hdenotes hfixed.write)

/-- A variable is bound and written. -/
theorem echoed_bind {name : String}
    (h : StoreAt code (a.symbols.define name).1 (a.withSymbols (a.symbols.define name).2) b) :
    c.Echoed code a b [.write name] := by
  intro layers hlabelled hfixed
  obtain ⟨layers', hlabels, hdenotes, -⟩ := hlabelled.define hfixed.write
  have hname := hfixed.write
  rw [← hlabels.fixed] at hname
  exact .after hlabels (h.echoedFrom hlabels.labelled hdenotes hname)

/-- A variable is bound before the value that is written to it is computed, as for a function that
may call itself. So its place is known while the value is compiled, and it is written behind. -/
theorem echoed_bind_before {name : String}
    (h : c.Echoed code (a.withSymbols (a.symbols.define name).2) m occurrences)
    (hstore : StoreAt code (a.symbols.define name).1 m b) :
    c.Echoed code a b (occurrences ++ [.write name]) := by
  intro layers hlabelled hfixed
  have hname := hfixed.right.write
  obtain ⟨layers₁, hlabels, hdenotes, -⟩ := hlabelled.define hname
  have hleft := hfixed.left
  rw [← hlabels.fixed] at hleft hname
  obtain ⟨layers₂, instrs, hlabels', htiles, hechoes⟩ := h layers₁ hlabels.labelled hleft
  rw [← hlabels'.fixed] at hname
  have hwrite := hstore.echoedFrom hlabels'.labelled (hlabels'.grows.denotes hdenotes) hname
  exact .after hlabels (.trans hlabels' htiles hechoes hwrite)

theorem PopsAt.echoed {count : Nat} (h : PopsAt code count a b) : c.Echoed code a b [] := by
  induction count generalizing a with
  | zero =>
    obtain rfl : b = a := h
    exact .refl c code _
  | succ count ih =>
    obtain ⟨m, hop, hrest⟩ := h
    exact hop.echoed.trans (ih hrest)

theorem EndAt.echoed {ending : Ending} (h : EndAt code ending a b) : c.Echoed code a b [] := by
  cases ending with
  | keep =>
    obtain rfl : b = a := h
    exact .refl c code _
  | drop | give => exact OpAt.echoed h

theorem BranchAt.echoed {closing : Closing} {body : Ending → Point → Point → Prop}
    (hbody : ∀ ending b, body ending a b → c.Echoed code a b occurrences)
    (h : BranchAt code closing body a b) : c.Echoed code a b occurrences := by
  unfold BranchAt at h
  split at h
  · exact hbody _ _ h
  · obtain ⟨m, hm, hop⟩ := h
    exact (hbody _ _ hm).trans_nil hop.echoed

theorem BodyAt.echoed {closing : Closing} {body : Ending → Point → Point → Prop}
    (hbody : ∀ ending b, body ending a b → c.Echoed code a b occurrences)
    (h : BodyAt code closing body a b) : c.Echoed code a b occurrences := by
  unfold BodyAt at h
  split at h
  · exact hbody _ _ h
  · exact hbody _ _ h
  · obtain ⟨m, hm, hop⟩ := h
    exact (hbody _ _ hm).trans_nil hop.echoed

/-- The occurrences of the three parts, in the order of the code. -/
theorem CondAt.echoed {test yes no : Point → Point → Prop}
    {first second third : List Occurrence}
    (htest : ∀ b, test a b → c.Echoed code a b first)
    (hyes : ∀ a b, yes a b → c.Echoed code a b second)
    (hno : ∀ a b, no a b → c.Echoed code a b third)
    (h : CondAt code test yes no a b) :
    c.Echoed code a b (first ++ (second ++ third)) := by
  obtain ⟨m, n, ht, hbranch, hy, hjump, -, -, hn⟩ := h
  exact (htest _ ht).trans (hbranch.echoed.trans
    ((hyes _ _ hy).trans (hjump.echoed.trans (hno _ _ hn))))

theorem LoopAt.echoed {init test post : Point → Point → Prop}
    {body : (onBreak onContinue : Nat) → Point → Point → Prop}
    {first second third fourth : List Occurrence}
    (hinit : ∀ b, init a b → c.Echoed code a b first)
    (htest : ∀ a b, test a b → c.Echoed code a b second)
    (hbody : ∀ onBreak onContinue a b, body onBreak onContinue a b → c.Echoed code a b third)
    (hpost : ∀ a b, post a b → c.Echoed code a b fourth)
    (h : LoopAt code init test post body a b) :
    c.Echoed code a b (first ++ (second ++ (third ++ fourth))) := by
  obtain ⟨m₁, m₂, m₃, m₄, h₁, h₂, hleave, h₃, h₄, hback, -, -, hnull⟩ := h
  have hend : c.Echoed code m₄ b [] := hback.echoed.trans hnull.echoed
  exact (hinit _ h₁).trans ((htest _ _ h₂).trans
    (hleave.echoed.trans ((hbody _ _ _ _ h₃).trans ((hpost _ _ h₄).trans_nil hend))))

theorem ExitAt.echoed {target : Exit → Nat} {exit : Option Exit} {d : Nat}
    (h : ExitAt code target exit d a b) : c.Echoed code a b [] := by
  obtain ⟨exit', m, -, hpops, hop, -⟩ := h
  exact hpops.echoed.trans hop.echoed

/-- **The code of a function echoes its body, and stands elsewhere.** The body is compiled from the
symbols behind the parameters; when it is left, its places are those that its layer has, and what it
has captured has the same names around it. -/
theorem FunctionAt.echoed {params : List String} {stmts : List Stmt}
    {body : Code → Point → Point → Prop}
    (hreach : ∀ code a b, body code a b → a.Reaches 0 b)
    (hbody : ∀ code a b, body code a b → c.Echoed code a b (Stmt.occurrencesAll stmts))
    (h : FunctionAt code c.constants params body a b) :
    c.Echoed code a b [.function params stmts] := by
  intro layers hlabelled hfixed
  obtain ⟨i, id, fn, inner, hindex, hconst, hcode, hlocals, hlocals_le, harity, hcaptures,
    hcaptures_lt, symbols, hleave, hop⟩ := h
  -- what is fixed around is neither bound by the parameters nor rebound in the body
  have hkept : ∀ name kind, fixedIn layers name = some kind →
      name ∉ params ∧ Stmt.rebindsAny name stmts = false := by
    intro name kind hname
    obtain ⟨hparams, hstmts⟩ :=
      Bool.or_eq_false_iff.mp (hfixed name kind hname _ List.mem_cons_self)
    exact ⟨fun hmem => by simp [hmem] at hparams, hstmts⟩
  have hunhidden : ∀ name kind, fixedIn layers name = some kind → name ∉ params :=
    fun name kind hname => (hkept name kind hname).1
  obtain ⟨names, hnames, hglobals, hdistinct⟩ := hlabelled.params params stmts hunhidden
  obtain ⟨layers', own, hlabels, htiles, hechoes⟩ := hbody _ _ _ hcode _ hnames
    fun name kind hname => Stmt.noneRebinds_all name stmts
      (Fixed.inside_kept (fun kind hname => (hkept name kind hname).2) hname)
  obtain ⟨names', rfl⟩ := hlabels.eq_cons
  obtain ⟨hleft, hslots, hcaptured, hkeeps⟩ := hlabels.labelled.leaveFunction hleave
  -- the functions around have captured more, and there are more globals
  have hevolves := (Symbols.leaveFunction_evolves ((Symbols.defineAll_evolves 0 _ params).trans
    (hreach _ _ _ hcode).symbols) hleave).1
  have hsymbols : symbols.globals = inner.globals := Symbols.globals_leaveFunction hleave
  have hfree : (a.symbols.places c.builtins layers).free
      <+: (symbols.places c.builtins layers).free := by
    cases hevolves.extends_ with
    | cons hext _ => exact hext.captured.map Symbol.name
  have hgrows : (a.symbols.places c.builtins layers).Grows
      (symbols.places c.builtins layers) := by
    refine ⟨rfl, ?_, List.prefix_refl _, hfree⟩
    show a.symbols.globals.toList <+: symbols.globals.toList
    rw [hsymbols]
    exact hglobals.trans hlabels.grows.globals
  refine .after ⟨hleft, rfl, rfl, rfl, hgrows⟩ (hop.echoedFrom hleft fun known hknown => ?_)
  rw [← hcaptures] at hcaptured
  refine .function ⟨known.builtins, known.globals, names', inner.table.freeNames⟩ hindex hconst
    ⟨rfl, rfl, hknown.map_captured? hcaptured, hcaptures_lt, hlocals.trans hslots, hlocals_le,
      harity, fun hnodup => ?_,
      ⟨hkeeps.slots, hkeeps.free, fun name hname => (hkeeps.own name hname).2⟩, hunhidden⟩ htiles
    (hechoes _ ⟨hknown.builtins, ?_, List.prefix_refl _, List.prefix_refl _⟩) .nil
  · have hprefix : names <+: names' := hlabels.grows.slots
    rwa [hdistinct hnodup] at hprefix
  · show inner.globals.toList <+: known.globals
    rw [← hsymbols]
    exact hknown.globals

end Parts

/-! ## Layouts

The recursion over the syntax, one case for each constructor. The lemmas about operators say that
none of their instructions has to do with variables. -/

/-- Operators have nothing to do with variables. -/
theorem names_infixOp? {op : Token} {o : Op} (h : Compilation.infixOp? op = some o) :
    o.names = false := by
  cases op <;> simp [Compilation.infixOp?] at h <;> subst h <;> rfl

theorem names_prefixOp? {op : Token} {o : Op} (h : Compilation.prefixOp? op = some o) :
    o.names = false := by
  cases op <;> simp [Compilation.prefixOp?] at h <;> subst h <;> rfl

/-- A call asks for `quote` if it calls that name. -/
theorem Symbols.quotes_name {symbols symbols' : Symbols} {callee : Expr}
    (h : symbols.quotes callee = (true, symbols')) : callee.isQuoteName = true := by
  unfold Symbols.quotes at h
  split at h
  · rfl
  · cases h

section Layout

variable {c : Context}

theorem echoed_quotes {code : Code} {a : Point} {callee : Expr} :
    c.Echoed code a (a.withSymbols (a.symbols.quotes callee).2) [] := by
  refine echoed_withSymbols fun layers hlabelled => ?_
  unfold Symbols.quotes
  split
  · exact (hlabelled.resolve "quote").1
  · exact hlabelled.refl

/-- Something that is called by the name `quote` is called like everything else. -/
theorem Context.Echoed.called {code : Code} {a b : Point} {callee : Expr} {args : List Expr}
    (h : c.Echoed code a b (callee.occurrences ++ Expr.occurrencesAll args)) :
    c.Echoed code a b (Expr.call callee args).occurrences := by
  rw [Expr.occurrences]
  split
  · rename_i hquote
    intro layers hlabelled hfixed
    cases callee <;> try cases hquote
    rename_i name
    obtain rfl : name = "quote" := eq_of_beq hquote
    obtain ⟨layers', instrs, hlabels, htiles, hechoes⟩ := h layers hlabelled fun name kind hname =>
      (noneRebinds_single rfl).append
        (Expr.noneRebinds_all name args (hfixed name kind hname _ List.mem_cons_self))
    refine ⟨layers', instrs, hlabels, htiles, fun places hgrows => .called ?_⟩
    rw [List.append_nil]
    exact hechoes places hgrows
  · exact h

mutual

/-- **The code of an expression echoes its occurrences.** -/
theorem ExprAt.echoed {code : Code} {exit : Option Exit} : (e : Expr) → ∀ {d : Nat} {a b : Point},
    ExprAt code c.constants exit d e a b → c.Echoed code a b e.occurrences
  | .int _, _, _, _, h | .float _, _, _, _, h | .str _, _, _, _, h => ConstAt.echoed h
  | .bool v, _, _, _, h => OpAt.echoed h (by cases v <;> rfl)
  | .ident name, _, _, _, h => echoed_ident h
  | .infixOp left op right, d, a, b, h => by
    rw [ExprAt] at h
    rw [Expr.occurrences]
    split at h
    -- the operands of `<` stand in reverse
    · rename_i hlt
      rw [if_pos hlt]
      obtain ⟨m, n, hright, hleft, hop⟩ := h
      exact ((ExprAt.echoed right hright).trans (ExprAt.echoed left hleft)).trans_nil hop.echoed
    · rename_i hlt
      rw [if_neg hlt]
      obtain ⟨o, m, n, ho, hleft, hright, hop⟩ := h
      exact ((ExprAt.echoed left hleft).trans (ExprAt.echoed right hright)).trans_nil
        (hop.echoed (names_infixOp? ho))
  | .prefixOp op operand, d, a, b, h => by
    obtain ⟨o, m, ho, hoperand, hop⟩ := h
    exact (ExprAt.echoed operand hoperand).trans_nil (hop.echoed (names_prefixOp? ho))
  | .cond test yes no, d, a, b, h => by
    cases no with
    | none =>
      exact CondAt.echoed (fun _ h => ExprAt.echoed test h)
        (fun _ _ h => BranchAt.echoed (fun _ _ h => StmtsAt.echoed yes h) h)
        (fun _ _ h => OpAt.echoed h) h
    | some no =>
      exact CondAt.echoed (fun _ h => ExprAt.echoed test h)
        (fun _ _ h => BranchAt.echoed (fun _ _ h => StmtsAt.echoed yes h) h)
        (fun _ _ h => BranchAt.echoed (fun _ _ h => StmtsAt.echoed no h) h) h
  | .array elements, d, a, b, h => by
    obtain ⟨m, helements, -, hop⟩ := h
    exact (ExprsAt.echoed elements helements).trans_nil hop.echoed
  | .hash pairs, d, a, b, h => by
    obtain ⟨m, hpairs, -, hop⟩ := h
    exact (PairsAt.echoed pairs hpairs).trans_nil hop.echoed
  | .index left subscript, d, a, b, h => by
    obtain ⟨m, n, hleft, hsubscript, hop⟩ := h
    exact ((ExprAt.echoed left hleft).trans (ExprAt.echoed subscript hsubscript)).trans_nil
      hop.echoed
  | .fn params body, d, a, b, h =>
    FunctionAt.echoed (fun _ _ _ h => BodyAt.reaches 0 (fun _ _ h => StmtsAt.reaches 0 body h) h)
      (fun _ _ _ h => BodyAt.echoed (fun _ _ h => StmtsAt.echoed body h) h) h
  | .call callee args, d, a, b, h => by
    have hquotes : c.Echoed code a (a.withSymbols (a.symbols.quotes callee).2) [] := echoed_quotes
    rw [ExprAt] at h
    split at h
    -- a quote is a constant
    · rename_i symbols hq
      obtain ⟨id, e, -, hconst⟩ := h
      rw [Expr.occurrences, if_pos (Symbols.quotes_name hq)]
      rw [hq] at hquotes
      intro layers hlabelled hfixed
      obtain ⟨layers', instrs, hlabels, htiles, hechoes⟩ :=
        hquotes.trans hconst.echoed layers hlabelled fun _ _ _ => noneRebinds_nil
      exact ⟨layers', instrs, hlabels, htiles, fun places hgrows => .quoted (hechoes places hgrows)⟩
    · rename_i symbols hq
      obtain ⟨m, n, hcallee, hargs, -, hop⟩ := h
      rw [hq] at hquotes
      exact .called ((hquotes.trans (ExprAt.echoed callee hcallee)).trans
        ((ExprsAt.echoed args hargs).trans_nil hop.echoed))

theorem ExprsAt.echoed {code : Code} {exit : Option Exit} : (es : List Expr) →
    ∀ {d : Nat} {a b : Point},
    ExprsAt code c.constants exit d es a b → c.Echoed code a b (Expr.occurrencesAll es)
  | [], _, a, _, h => by
    obtain rfl : _ = a := h
    exact .refl c code _
  | e :: rest, _, _, _, h => by
    obtain ⟨m, he, hrest⟩ := h
    exact (ExprAt.echoed e he).trans (ExprsAt.echoed rest hrest)

theorem PairsAt.echoed {code : Code} {exit : Option Exit} : (pairs : List (Expr × Expr)) →
    ∀ {d : Nat} {a b : Point}, PairsAt code c.constants exit d pairs a b →
      c.Echoed code a b (Expr.occurrencesPairs pairs)
  | [], _, a, _, h => by
    obtain rfl : _ = a := h
    exact .refl c code _
  | (key, value) :: rest, _, _, _, h => by
    obtain ⟨m, n, hkey, hvalue, hrest⟩ := h
    exact (ExprAt.echoed key hkey).trans
      ((ExprAt.echoed value hvalue).trans (PairsAt.echoed rest hrest))

/-- **The code of a statement echoes its occurrences.** A `let` writes its name behind the value,
whether the name was defined before or after it. -/
theorem StmtAt.echoed {code : Code} {exit : Option Exit} : (s : Stmt) →
    ∀ {ending : Ending} {d : Nat} {a b : Point},
    StmtAt code c.constants exit ending d s a b → c.Echoed code a b s.occurrences
  | .expr value, _, _, _, _, h => by
    obtain ⟨m, hvalue, hend⟩ := h
    exact (ExprAt.echoed value hvalue).trans_nil hend.echoed
  | .bind name value, ending, d, a, b, h => by
    have ih := @ExprAt.echoed code exit value d a
    -- a function is defined before it is compiled, every other value afterwards
    cases value with
    | fn params body =>
      obtain ⟨m, hfunction, hstore⟩ := h
      exact echoed_bind_before (FunctionAt.echoed
        (fun _ _ _ h => BodyAt.reaches 0 (fun _ _ h => StmtsAt.reaches 0 body h) h)
        (fun _ _ _ h => BodyAt.echoed (fun _ _ h => StmtsAt.echoed body h) h) hfunction) hstore
    | _ =>
      obtain ⟨m, hvalue, hstore⟩ := h
      exact (ih hvalue).trans (echoed_bind hstore)
  | .assign name value, _, _, _, _, h => by
    obtain ⟨m, hvalue, hstore⟩ := h
    exact (ExprAt.echoed value hvalue).trans (echoed_assign hstore)
  | .ret value, _, _, _, _, h => by
    obtain ⟨m, hvalue, hop⟩ := h
    exact (ExprAt.echoed value hvalue).trans_nil hop.echoed
  | .block body, _, _, a, _, h => by
    obtain ⟨m, hbody, rfl⟩ := h
    have hopen : c.Echoed code a (a.withSymbols a.symbols.enterBlock) [] :=
      echoed_withSymbols fun _ hlabelled => hlabelled.enterBlock
    have hclose : c.Echoed code m (m.withSymbols m.symbols.leaveBlock) [] :=
      echoed_withSymbols fun _ hlabelled => hlabelled.leaveBlock
    exact hopen.trans ((StmtsAt.echoed body hbody).trans_nil hclose)
  | .loop init test post body, _, _, a, _, h => by
    obtain ⟨m, hloop, hend⟩ := h
    have hopen : c.Echoed code a (a.withSymbols a.symbols.enterBlock) [] :=
      echoed_withSymbols fun _ hlabelled => hlabelled.enterBlock
    have hclose : c.Echoed code m (m.withSymbols m.symbols.leaveBlock) [] :=
      echoed_withSymbols fun _ hlabelled => hlabelled.leaveBlock
    exact hopen.trans ((LoopAt.echoed (fun _ h => StmtAt.echoed init h)
      (fun _ _ h => ExprAt.echoed test h) (fun _ _ _ _ h => StmtsAt.echoed body h)
      (fun _ _ h => StmtAt.echoed post h) hloop).trans_nil (hclose.trans hend.echoed))
  | .breakLoop, _, _, _, _, h => ExitAt.echoed h
  | .continueLoop, _, _, _, _, h => ExitAt.echoed h

theorem StmtsAt.echoed {code : Code} {exit : Option Exit} : (body : List Stmt) →
    ∀ {ending : Ending} {d : Nat} {a b : Point},
    StmtsAt code c.constants exit ending d body a b →
      c.Echoed code a b (Stmt.occurrencesAll body)
  | [], _, _, a, _, h => by
    obtain rfl : _ = a := h
    exact .refl c code _
  | s :: rest, _, _, _, _, h => by
    obtain ⟨m, h⟩ := h
    split at h
    · exact (StmtAt.echoed s h.1).trans (StmtsAt.echoed rest h.2)
    · exact (StmtAt.echoed s h.1).trans (StmtsAt.echoed rest h.2)

end

end Layout

end Scriptlet
