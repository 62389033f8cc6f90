import Scriptlet.Proofs.Names.Calls

/-!
# What names mean in a run

In the run of a compiled program every instruction that reads a variable stands for a name of the
text, and what it reads is what the text says of that name (`Machine.run_builtins`,
`Machine.run_parameters`). The name of a built-in function that the program does not rebind means
that function, wherever it is read. A parameter means the argument of its call, in the function
itself and in those inside that have captured it, if no other parameter has the name and the body
does not rebind it.

Neither condition can be left out: of two parameters of one name the machine reads the first, and in
a table that is longer than a byte can count the index of a built-in function is cut.

A machine has no names. So a run is accompanied by a list of calls, one for each activation, with
the text of the function that was called and the arguments it was given (`Call`), and what an
instruction reads is looked up there: in the text for the name, and in the arguments for the value.
-/

namespace Scriptlet

/-- The name that stands in a text where an instruction of its code reads. -/
def Source.nameRead? (source : Source) (op : Op) (index : Nat) : Option String :=
  op.reads?.bind fun kind => source.places.name? kind index

/-- The arguments of a call lie within the locals of its function. -/
theorem Source.Describes.params_le {source : Source} {builtins : List String}
    {constants : Array Value} {fn : FunctionCode} (h : source.Describes builtins constants fn)
    (hnodup : source.params.Nodup) : fn.params ≤ fn.locals := by
  rw [h.arity, h.locals]
  exact (h.distinct hnodup).length_le

/-- The built-in function at an index of a table is the one that evaluation finds by its name. -/
theorem BuiltinTable.find?_eq {table : BuiltinTable} {builtin : Builtin} (h : builtin ∈ table) :
    table.find? builtin.name = some builtin := by
  cases hfind : table.find? builtin.name with
  | none => exact absurd (List.find?_eq_none.mp hfind builtin h) (by simp)
  | some other =>
    obtain rfl : other = builtin := Symbols.name_injective (by simpa using List.find?_some hfind)
    rfl

namespace Machine

/-- **The next instruction, if it reads a variable, stands for a name of the text**; that of a
built-in function, if the program does not rebind it, gives the function of the table. -/
structure ReadsBuiltins (table : BuiltinTable) (prog : Program) (calls : Nat → Call) (h : History)
    (m : Machine) : Prop where
  named : ∀ op index, m.instruction? = some (op, [index]) → op.reads?.isSome →
    ∃ name, (calls h.running.number).source.nameRead? op index = some name
  builtin : ∀ op index name, m.instruction? = some (op, [index]) →
    (calls h.running.number).source.nameRead? op index = some name →
    name ∈ table.map Builtin.name → prog.rebinds name = false →
    ∃ builtin, table.find? name = some builtin
      ∧ step m = push (.builtin builtin) (m.advance op.size)

/-- **The next instruction, if it reads a parameter, gives the argument.** -/
structure ReadsParameters (calls : Nat → Call) (h : History) (m : Machine) : Prop where
  /-- In the function itself a parameter means the argument of its call. -/
  own : ∀ op index name, m.instruction? = some (op, [index]) →
    (calls h.running.number).source.nameRead? op index = some name →
    (calls h.running.number).source.Passes name →
    (calls h.running.number).source.params[index]? = some name
      ∧ ∃ value, (calls h.running.number).args[index]? = some value
        ∧ step m = push value (m.advance op.size)
  /-- A captured parameter means the argument of the call that it was captured in. -/
  captured : ∀ index name, m.instruction? = some (.getFree, [index]) →
    (calls h.running.number).source.nameRead? .getFree index = some name →
    ∃ var, h.running.free[index]? = some var ∧
      ((calls var.activation).source.Passes name →
        (calls var.activation).source.params[var.slot]? = some name
          ∧ ∃ value, (calls var.activation).args[var.slot]? = some value
            ∧ step m = push value (m.advance Op.getFree.size))
  /-- All arguments lie inside of the locals. -/
  room : (calls h.running.number).source.params.Nodup → m.frame.code.params ≤ m.frame.code.locals

section

variable {exact : Prop} {table : BuiltinTable} {prog : Program} {exe : Executable} {m : Machine}
  {h : History} {calls : Nat → Call} {home : Var → Option CellId} {op : Op} {index : Nat}
  {name : String}

/-- What an instruction reads has a name, and is where the name is fixed. -/
theorem Recorded.reads {maps : StartMaps exact table.length exe} {top : Source}
    (hr : Recorded table exe top calls h m) (hs : Sound maps.toDepthMaps m)
    (hfew : table.length ≤ Compilation.maxLocals)
    (hinstruction : m.instruction? = some (op, [index])) {kind : SymbolKind}
    (hop : op.reads? = some kind) :
    ∃ name, (calls h.running.number).source.places.name? kind index = some name
      ∧ ∀ kind', (calls h.running.number).source.fixed name = some kind' → kind = kind' :=
  (hs.executes hr.running.describes hinstruction).read_inv hop
    fun _ => by rwa [List.length_map]

/-- A name that is fixed is read from a place of its kind. -/
theorem Recorded.reads_fixed {maps : StartMaps exact table.length exe} {top : Source}
    (hr : Recorded table exe top calls h m) (hs : Sound maps.toDepthMaps m)
    (hfew : table.length ≤ Compilation.maxLocals)
    (hinstruction : m.instruction? = some (op, [index]))
    (hname : (calls h.running.number).source.nameRead? op index = some name) {kind : SymbolKind}
    (hfixed : (calls h.running.number).source.fixed name = some kind) :
    op.reads? = some kind
      ∧ (calls h.running.number).source.places.name? kind index = some name := by
  obtain ⟨kind', hop, hplace⟩ := Option.bind_eq_some_iff.mp hname
  obtain ⟨other, hother, hkind⟩ := hr.reads hs hfew hinstruction hop
  obtain rfl : other = name := Option.some.inj (hother.symm.trans hplace)
  obtain rfl := hkind kind hfixed
  exact ⟨hop, hplace⟩

theorem Sound.getBuiltin_eq {maps : DepthMaps exact table.length exe} (hs : Sound maps m)
    (hinstruction : m.instruction? = some (.getBuiltin, [index])) {builtin : Builtin}
    (hbuiltin : table[index]? = some builtin) :
    step m = push (.builtin builtin) (m.advance Op.getBuiltin.size) := by
  obtain ⟨d, operands, -, hd, hstep, -⟩ := hs.instr_eq hinstruction
  have hget : (m.advance Op.getBuiltin.size).builtins[index]? = some builtin := by
    rw [(hd.advance Op.getBuiltin.size).builtins, hbuiltin]
  rw [hstep m rfl]
  simp only [perform]
  rw [bind_ok get_eq, hget]

/-- A built-in function is read by its index in the table, where its name stands. -/
theorem Recorded.readsBuiltins {maps : StartMaps exact table.length exe}
    (hr : Recorded table exe (prog.source table exe) calls h m) (hs : Sound maps.toDepthMaps m)
    (hfew : table.length ≤ Compilation.maxLocals) : ReadsBuiltins table prog calls h m where
  named op index hinstruction hreads := by
    obtain ⟨kind, hop⟩ := Option.isSome_iff_exists.mp hreads
    obtain ⟨name, hname, -⟩ := hr.reads hs hfew hinstruction hop
    exact ⟨name, Option.bind_eq_some_iff.mpr ⟨kind, hop, hname⟩⟩
  builtin op index name hinstruction hname hmem hkept := by
    have hfixed := hr.running.inside.fixed_builtin
      (show Program.fixed table prog name = some .builtin from if_pos ⟨hmem, hkept⟩)
    obtain ⟨hop, hplace⟩ := hr.reads_fixed hs hfew hinstruction hname hfixed
    obtain rfl : op = .getBuiltin := by cases op <;> first | rfl | cases hop
    rw [Places.name?, hr.running.describes.builtins, List.getElem?_map] at hplace
    obtain ⟨builtin, hbuiltin, rfl⟩ := Option.map_eq_some_iff.mp hplace
    exact ⟨builtin, BuiltinTable.find?_eq (List.mem_of_getElem? hbuiltin),
      hs.getBuiltin_eq hinstruction hbuiltin⟩

/-- **A parameter is read from its slot**, or from the cell that a closure has captured it in; both
are fixed to it, so that nothing but the argument has been written there. -/
theorem Recorded.readsParameters {maps : StartMaps exact table.length exe}
    (hr : Recorded table exe (prog.source table exe) calls h m) (ht : Tracked home h m)
    (hs : Sound maps.toDepthMaps m) (hfew : table.length ≤ Compilation.maxLocals) :
    ReadsParameters calls h m where
  own op index name hinstruction hname hpasses := by
    have hfixed := hr.running.inside.fixed_slot rfl hpasses
    obtain ⟨hop, hplace⟩ := hr.reads_fixed hs hfew hinstruction hname hfixed
    obtain rfl : op = .getLocal := by cases op <;> first | rfl | cases hop
    obtain ⟨hparam, value, harg, hlast⟩ := hr.given ⟨h.running.number, index⟩ name
      (ht.assigned.number_lt List.mem_cons_self) hplace hfixed
    exact ⟨hparam, value, harg, ht.getLocal_eq hs hinstruction hlast⟩
  captured index name hinstruction hname := by
    obtain ⟨var, hvar, hread⟩ := ht.getFree_eq hs hinstruction
    refine ⟨var, hvar, fun hpasses => ?_⟩
    have hstarted := hr.running.refers.started var (List.mem_of_getElem? hvar)
    obtain ⟨hslot, -⟩ := hr.running.refers.owner index var name hvar hname
    obtain ⟨hparam, value, harg, hlast⟩ := hr.given var name hstarted hslot
      ((hr.inside _ hstarted).fixed_slot rfl hpasses)
    exact ⟨hparam, value, harg, hread value hlast⟩
  room := hr.running.describes.params_le

end

section

variable {table : BuiltinTable} {prog : Program} {exe : Executable}

/-- **The names of built-in functions mean them.** The calls of a run of a compiled program, each of
a function of its text, are such that every instruction that reads stands for a name of the text,
and the name of a built-in function that the program does not rebind is read as that function. -/
theorem run_builtins (hcompiled : Compilation.program table prog = .ok exe)
    (hfew : table.length ≤ Compilation.maxLocals) (host : Host) (steps : Nat) :
    ∃ calls : Nat → Call, Chronicle table exe host (prog.source table exe) calls steps
      ∧ ∀ n ≤ steps, ∀ m h, trace exe table host n = some (m, h) →
        ReadsBuiltins table prog calls h m := by
  obtain ⟨maps⟩ := exists_startMaps False hcompiled False.elim
  obtain ⟨calls, hcalls⟩ := exists_calls maps (Compilation.program_describes hcompiled) rfl rfl host
    steps
  refine ⟨calls, hcalls, fun n hn m h htrace => ?_⟩
  obtain ⟨hs, -⟩ := (homes maps.toDepthMaps host n).2.tracked m h htrace
  exact (hcalls.recorded n hn m h htrace).readsBuiltins hs hfew

/-- The program `len` reads the function of that name. -/
theorem run_builtins_len :
    ∃ exe m h, Compilation.program [.len] [.expr (.ident "len")] = .ok exe
      ∧ [Builtin.len].length ≤ Compilation.maxLocals ∧ trace exe [.len] ⟨0, 0, ""⟩ 0 = some (m, h)
      ∧ step m = push (.builtin .len) (m.advance Op.getBuiltin.size) := by
  have hcompiled : ∃ exe, Compilation.program [.len] [.expr (.ident "len")] = .ok exe
      ∧ (load exe [.len] ⟨0, 0, ""⟩).instruction? = some (.getBuiltin, [0]) := ⟨_, rfl, rfl⟩
  obtain ⟨exe, hexe, hinstruction⟩ := hcompiled
  have hfew : [Builtin.len].length ≤ Compilation.maxLocals := by decide
  refine ⟨exe, _, _, hexe, hfew, rfl, ?_⟩
  obtain ⟨calls, hcalls, hreads⟩ := run_builtins hexe hfew ⟨0, 0, ""⟩ 0
  have hplaces : (calls 0).source.places.builtins = _ :=
    (hcalls.recorded 0 (Nat.le_refl 0) _ _ rfl).running.describes.builtins
  have hname : (calls 0).source.nameRead? .getBuiltin 0 = some "len" := by
    show (calls 0).source.places.builtins[0]? = some "len"
    rw [hplaces]
    rfl
  obtain ⟨builtin, hfind, hstep⟩ := (hreads 0 (Nat.le_refl 0) _ _ rfl).builtin .getBuiltin 0 "len"
    hinstruction hname (by decide) (by decide)
  obtain rfl : Builtin.len = builtin := Option.some.inj hfind
  exact hstep

/-- **Parameters mean the arguments.** The calls of a run of a compiled program, each of a function
of its text with its arguments, are such that a parameter that has its name alone and is not rebound
is read as the argument, in the function and in those inside of it that have captured it. -/
theorem run_parameters (hcompiled : Compilation.program table prog = .ok exe)
    (hfew : table.length ≤ Compilation.maxLocals) (host : Host) (steps : Nat) :
    ∃ calls : Nat → Call, Chronicle table exe host (prog.source table exe) calls steps
      ∧ ∀ n ≤ steps, ∀ m h, trace exe table host n = some (m, h) → ReadsParameters calls h m := by
  obtain ⟨maps⟩ := exists_startMaps False hcompiled False.elim
  obtain ⟨calls, hcalls⟩ := exists_calls maps (Compilation.program_describes hcompiled) rfl rfl host
    steps
  refine ⟨calls, hcalls, fun n hn m h htrace => ?_⟩
  obtain ⟨hs, ht⟩ := (homes maps.toDepthMaps host n).2.tracked m h htrace
  exact (hcalls.recorded n hn m h htrace).readsParameters ht hs hfew

end

/-- The program `fn(x) { x }(7)`. -/
def callsIdentity : Program :=
  [.expr (.call (.fn ["x"] [.expr (.ident "x")]) [.int 7])]

theorem eq_of_makesFunction {params params' : List String} {body body' : List Stmt}
    (h : MakesFunction params body [.function params' body']) :
    params = params' ∧ body = body' := by
  cases h with
  | here => exact ⟨rfl, rfl⟩
  | later h => cases h

/-- The text of a call of its function is that function. -/
theorem params_of_contains {exe : Executable} {source : Source}
    (h : (Program.source [] exe callsIdentity).Contains source) :
    source.params = [] ∧ source.body = callsIdentity
      ∨ source.params = ["x"] ∧ source.body = [.expr (.ident "x")] := by
  induction h with
  | self => exact .inl ⟨rfl, rfl⟩
  | inner _ hencloses ih =>
    have hmade := hencloses.made
    rcases ih with ⟨-, hbody⟩ | ⟨-, hbody⟩
    · rw [hbody] at hmade
      exact .inr (eq_of_makesFunction hmade)
    · rw [hbody] at hmade
      cases hmade with
      | later h => cases h

/-- The arguments of the call that an event is. -/
def Event.args? : Event → Option (List Value)
  | .enters _ args => some args
  | _ => none

theorem Event.eq_enters {event : Event} {args : List Value} (h : event.args? = some args) :
    ∃ id, event = .enters id args := by
  cases event with
  | enters id args' =>
    cases h
    exact ⟨id, rfl⟩
  | _ => cases h

/-- In the call `x` is read as the argument. -/
theorem run_parameters_identity :
    ∃ exe m h, Compilation.program [] callsIdentity = .ok exe
      ∧ ([] : BuiltinTable).length ≤ Compilation.maxLocals
      ∧ trace exe [] ⟨0, 0, ""⟩ 3 = some (m, h) ∧ m.instruction? = some (.getLocal, [0])
      ∧ step m = push (.int 7) (m.advance Op.getLocal.size) := by
  have hcheck : ((Compilation.program [] callsIdentity).toOption.any fun exe =>
      (trace exe [] ⟨0, 0, ""⟩ 2).any (fun s => s.2.started == 1
        && s.1.event.args?.any fun args => args[0]?.any (Value.int 7).same)
      && (trace exe [] ⟨0, 0, ""⟩ 3).any fun s => s.1.instruction? == some (.getLocal, [0])
        && s.2.running.number == 1 && s.1.frame.code.params == 1) = true := by
    decide +kernel
  obtain ⟨exe, hexe, hcheck⟩ := exists_compiled hcheck
  rw [Bool.and_eq_true] at hcheck
  obtain ⟨⟨m₀, h₀⟩, hbefore, hentered⟩ := (Option.any_eq_true _ _).mp hcheck.1
  obtain ⟨⟨m, h⟩, htrace, hreads⟩ := (Option.any_eq_true _ _).mp hcheck.2
  simp only [Bool.and_eq_true, beq_iff_eq] at hentered hreads
  obtain ⟨⟨hinstruction, hnumber⟩, harity⟩ := hreads
  have hfew : ([] : BuiltinTable).length ≤ Compilation.maxLocals := by decide
  refine ⟨exe, m, h, hexe, hfew, htrace, hinstruction, ?_⟩
  obtain ⟨calls, hcalls, hparameters⟩ := run_parameters hexe hfew ⟨0, 0, ""⟩ 3
  -- the function that is running is the one of the text
  have hrunning := (hcalls.recorded 3 (Nat.le_refl 3) m h htrace).running
  rw [hnumber] at hrunning
  have hdescribes := hrunning.describes
  have hsource : (calls 1).source.params = ["x"]
      ∧ (calls 1).source.body = [.expr (.ident "x")] := by
    refine (params_of_contains hrunning.inside).resolve_left fun htop => ?_
    have hparams := hdescribes.arity
    rw [harity, htop.1] at hparams
    cases hparams
  obtain ⟨hparams, hbody⟩ := hsource
  have hnodup : (calls 1).source.params.Nodup := by
    rw [hparams]
    exact List.nodup_singleton _
  have hname : (calls 1).source.nameRead? .getLocal 0 = some "x" := by
    obtain ⟨rest, hslots⟩ := hdescribes.distinct hnodup
    show (calls 1).source.places.slots[0]? = some "x"
    rw [← hslots, hparams]
    rfl
  have hpasses : (calls 1).source.Passes "x" :=
    ⟨by rw [hparams]; exact List.mem_singleton_self _, hnodup, by rw [hbody]; rfl⟩
  -- its argument is the one that it was entered with
  have hargs : (calls 1).args[0]? = some (.int 7) := by
    obtain ⟨hstarted, hevent⟩ := hentered
    obtain ⟨args, heq, hfirst⟩ := (Option.any_eq_true _ _).mp hevent
    obtain ⟨v, hv, hsame⟩ := (Option.any_eq_true _ _).mp hfirst
    obtain ⟨id, heq⟩ := Event.eq_enters heq
    have hgiven := hcalls.entered 2 (by decide) m₀ h₀ _ hbefore htrace id args heq
    rw [hstarted] at hgiven
    rw [hgiven, ← Value.eq_of_same_int hsame]
    exact hv
  obtain ⟨-, value, hvalue, hstep⟩ := (hparameters 3 (Nat.le_refl 3) m h htrace).own .getLocal 0 "x"
    hinstruction (by rwa [hnumber]) (by rwa [hnumber])
  rw [hnumber, hargs] at hvalue
  cases hvalue
  exact hstep

end Machine

end Scriptlet
