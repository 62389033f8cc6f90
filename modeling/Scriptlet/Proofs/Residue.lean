import Scriptlet.Proofs.Residue.MainCode
import Scriptlet.Proofs.Variables

/-!
# What is left in unused slots

The machine does not clear the slots of a function when it enters it, so a local holds whatever was
left in its slot until it is set. A program that reads no variable before it is set never sees this:
it runs in the same way on any stack, whatever values are on it (`run_residue`). A program that does
read one, past a `let` that has been skipped, has the residue as its result (`reads_residue`).

The proof runs the program on a clean stack and on the used one at the same time (`Paired`). The
history of variables tells which of them have been set. Both machines keep to the same history, so
both read the same, and what they do from there on is the same too (`Paired.parallel`).

The used stack may hold anything, also closures that were made by another program, whose cells do
not exist in this one. So the second machine is not sound by itself: nothing is known of it but what
it has in common with the first one. That is why `Paired` asks for soundness on one side only, and
why every fact about the second machine is read off the first.

One place is left where a machine looks at a slot that is not an operand: the result of the whole
program is the value in the slot above the top of the stack. That it is the same in both needs the
code of the top level, which ends by dropping it there (`AtTopLevel`).
-/

namespace Scriptlet.Machine

/-! ## Reading what has been set

Whether a variable has been set is a question to the history, which both machines share. It is asked
of the instruction that comes next, for every state of the run on the clean stack; nothing is
assumed about the other run. -/

/-- **The next instruction reads no variable that has not been set.** Globals are not concerned,
since the machine checks for itself whether they are set. -/
def ReadsSet (h : History) (m : Machine) : Bool :=
  match m.instruction? with
  | some (.getLocal, [index]) => (h.last ⟨h.running.number, index⟩).isSome
  | some (.getFree, [index]) => (h.running.free[index]?.bind h.last).isSome
  | _ => true

/-- A run in which no variable is read before it is set. -/
def SetsFirst (exe : Executable) (table : BuiltinTable) (host : Host) : Prop :=
  ∀ steps m h, trace exe table host steps = some (m, h) → ReadsSet h m = true

/-- The machine before it runs an executable, on a stack that has been used. -/
def loadOn (stack : Memory Value) (exe : Executable) (table : BuiltinTable) (host : Host) :
    Machine :=
  { load exe table host with stack }

section

variable {exact : Prop} {table : BuiltinTable} {exe : Executable}
  {maps : DepthMaps exact table.length exe} {m m' m₁ m₁' : Machine} {h : History}

/-! ## Pairs

The invariant of the two runs, and one step of both. -/

/-- **The machine on the clean stack and the one on the used stack, behind so many steps of both.**
All that is known of the second one is what it has in common with the first: the operands, the
variables that have been set, and everything outside of the stack. -/
structure Paired (maps : DepthMaps exact table.length exe) (h : History) (m m' : Machine) :
    Prop where
  sound : Sound maps m
  twins : ∃ home, Twins home h m m'

theorem Paired.alike (hp : Paired maps h m m') : Alike (Common m m') m m' := by
  obtain ⟨home, ht⟩ := hp.twins
  exact ht.alike

/-- **A step of both machines** either goes on in both or stops in both, in the same way. The
instruction is the same, since both frames are. The two operations that read a local slot or a cell
are looked at by themselves: the value is that of the history. All others only look at operands,
which are the same. -/
theorem Paired.parallel (hp : Paired maps h m m') (hreads : ReadsSet h m = true)
    (hsize : m.frame.position < m.frame.code.code.size)
    (hnull : m.callers = [] → ∀ operands, m.instruction? ≠ some (.returnNull, operands)) :
    ∃ op operands, m.instruction? = some (op, operands)
      ∧ Parallel (Common m m') (Flow op operands (m.advance op.size)) (step m) (step m') := by
  obtain ⟨d, op, operands, hd, hinstr, hfits⟩ := hp.sound.instr hsize
  obtain ⟨home, ht⟩ := hp.twins
  have hinstruction := instruction?_eq hinstr
  have halike := ht.alike.advance op.size
  refine ⟨op, _, hinstruction, ?_⟩
  -- a variable that is read has been set: both machines hold its last value
  by_cases hlocal : op = .getLocal
  · subst hlocal
    match operands, hfits with
    | [index], hfits =>
      rw [readBack_of_fits hfits (by decide)] at hinstruction ⊢
      simp only [ReadsSet, hinstruction] at hreads
      obtain ⟨value, hlast⟩ := Option.isSome_iff_exists.mp hreads
      rw [ht.tracked.getLocal_eq hp.sound hinstruction hlast,
        ht.getLocal_eq hp.sound hinstruction hlast]
      exact halike.push value (.next ⟨rfl, rfl⟩)
  by_cases hfree : op = .getFree
  · subst hfree
    match operands, hfits with
    | [index], hfits =>
      rw [readBack_of_fits hfits (by decide)] at hinstruction ⊢
      obtain ⟨var, hvar, heq⟩ := ht.tracked.getFree_eq hp.sound hinstruction
      obtain ⟨var', hvar', heq'⟩ := ht.getFree_eq hp.sound hinstruction
      obtain rfl := Option.some.inj (hvar.symm.trans hvar')
      simp only [ReadsSet, hinstruction, hvar, Option.bind_some] at hreads
      obtain ⟨value, hlast⟩ := Option.isSome_iff_exists.mp hreads
      rw [heq value hlast, heq' value hlast]
      exact halike.push value (.next ⟨rfl, rfl⟩)
  -- all other instructions only look at operands
  · have hstep' : step m' = perform op (readBack op.widths operands) (m'.advance op.size) :=
      step_eq_perform (by rwa [ht.alike.frame])
    rw [step_eq_perform hinstr, hstep']
    refine halike.perform (hd.advance _) hfits ⟨hlocal, hfree⟩ fun hc => ?_
    rintro rfl
    exact hnull hc _ hinstruction

/-- The pair goes on, with what the step does to variables. -/
theorem Paired.next (hp : Paired maps h m m') (halike : Alike (Common m m') m₁ m₁')
    (hstep : step m = .ok () m₁) (hstep' : step m' = .ok () m₁') :
    Paired maps (h.after m.event) m₁ m₁' := by
  obtain ⟨home, ht⟩ := hp.twins
  have hends := step_ends hp.sound
  rw [hstep] at hends
  obtain ⟨home₁, -, hnext⟩ := ht.step hp.sound hstep hstep' halike fun place hplace =>
    (halike.common place hplace).eq
  exact ⟨hends.1, home₁, hnext⟩

/-! ## The frame of the top level

The invariant that carries the result of the program. While functions run, the top level waits at
the instruction behind its call; when it runs itself, each step leads to an instruction again, or to
the end of the code behind the last `pop`. -/

/-- The frame of the top level, which is the last one to go on: the last of the callers, or the
running one if there are none. -/
def bottom (m : Machine) : Frame :=
  m.callers.getLastD m.frame

/-- The top level stands at one of its instructions, or at its end with the value that it has
dropped, which is the same on both stacks. -/
def AtTopLevel (code : Code) (instrs : List Instruction) (m m' : Machine) : Prop :=
  m.bottom.position ∈ starts instrs
    ∨ (m.callers = [] ∧ m.frame.position = code.size ∧ m'.stack.read m.top = m.stack.read m.top)

section AtTopLevel

variable {instrs : List Instruction} {op : Op} {operands : List Nat}

theorem bottom_of_nil (hcallers : m.callers = []) : m.bottom = m.frame := by
  rw [bottom, hcallers]
  rfl

theorem bottom_cons {caller : Frame} {callers : List Frame}
    (hcallers : m.callers = caller :: callers) : m.bottom = callers.getLastD caller := by
  rw [bottom, hcallers, List.getLastD_cons]

/-- The instruction that the machine is about to execute at the top level. -/
theorem instruction_mem (hmain : MainCode exe.code instrs)
    (hcode : m.frame.code.code = exe.code) (hposition : m.frame.position ∈ starts instrs)
    (hinstruction : m.instruction? = some (op, operands)) :
    ∃ i ∈ instrs, i.position = m.frame.position ∧ i.op = op ∧ i.operands = operands := by
  obtain ⟨i, hi, heq⟩ := List.mem_map.mp hposition
  have hinstr := hmain.tiles.instrAt hi
  rw [heq, ← hcode] at hinstr
  have hread := (instruction?_eq hinstr).symm.trans hinstruction
  rw [hmain.stored i hi] at hread
  cases hread
  exact ⟨i, hi, heq, rfl, rfl⟩

theorem Paired.code_eq (hp : Paired maps h m m') (hcallers : m.callers = []) :
    m.frame.code.code = exe.code := by
  obtain ⟨d, hd, -⟩ := hp.sound
  have hcode := hd.valid.code
  rw [hcallers] at hcode
  rw [show m.frame.code = ⟨exe.code, 0, 0, []⟩ from hcode]

/-- Dropping a value leaves it in the slot above the top of the stack. -/
theorem Paired.pop (hp : Paired maps h m m')
    (hinstruction : m.instruction? = some (.pop, operands)) (hstep : step m = .ok () m₁)
    (hstep' : step m' = .ok () m₁') : m₁'.stack.read m₁.top = m₁.stack.read m₁.top := by
  obtain ⟨d, operands', hoperands, hd, hperform, hfits⟩ := hp.sound.instr_eq hinstruction
  match operands', hfits with
  | [], hfits =>
    subst hoperands
    have halike := hp.alike.advance 1
    have htop := hd.top
    have h1 := hfits.1
    have hpop : (Machine.pop >>= fun _ => pure () : Step Unit) (m.advance 1) = .ok () m₁ :=
      (hperform m rfl).symm.trans hstep
    have hpop' : (Machine.pop >>= fun _ => pure () : Step Unit) (m'.advance 1) = .ok () m₁' :=
      (hperform m' hp.alike.frame).symm.trans hstep'
    rw [bind_ok ((hd.advance 1).pop_eq h1)] at hpop
    rw [bind_ok (halike.pop_eq (hd.top_pos h1))] at hpop'
    cases hpop
    cases hpop'
    exact hp.alike.operand (by show _ ≤ m.top - 1; omega) (by show m.top - 1 < _; omega)

/-- **A step keeps the top level at its instructions.** By where the top level is: if it runs, then
the instruction is one of the list, and its successors are known by how control flows; if it waits,
then only a return changes that, and it goes on where it was. -/
theorem AtTopLevel.step (hmain : MainCode exe.code instrs) (hp : Paired maps h m m')
    (hat : AtTopLevel exe.code instrs m m') (hsize : m.frame.position < m.frame.code.code.size)
    (hinstruction : m.instruction? = some (op, operands))
    (hflow : Flow op operands (m.advance op.size) m₁) (hstep : Machine.step m = .ok () m₁)
    (hstep' : Machine.step m' = .ok () m₁') : AtTopLevel exe.code instrs m₁ m₁' := by
  cases hcallers : m.callers with
  -- the top level itself runs
  | nil =>
    have hcode := hp.code_eq hcallers
    have hposition : m.frame.position ∈ starts instrs := by
      rcases hat with hin | ⟨-, hend, -⟩
      · rwa [bottom_of_nil hcallers] at hin
      · rw [hcode, hend] at hsize
        exact absurd hsize (Nat.lt_irrefl _)
    obtain ⟨i, hi, hpos, rfl, rfl⟩ := instruction_mem hmain hcode hposition hinstruction
    have hbehind := hmain.tiles.next hi
    rw [hpos] at hbehind
    cases hflow with
    | next hremains =>
      have hcallers₁ : m₁.callers = [] := hremains.1.trans hcallers
      have hposition₁ : m₁.frame.position = m.frame.position + i.op.size := hremains.2
      rcases hbehind with hin | hend
      · left
        rwa [bottom_of_nil hcallers₁, hposition₁]
      -- nothing but the last `pop` leads to the end
      · have hpop := hmain.last i hi (by rwa [hpos])
        rw [hpop] at hinstruction
        exact .inr ⟨hcallers₁, hposition₁.trans hend, hp.pop hinstruction hstep hstep'⟩
    | jumps target hop hoperands hcallers₁ hposition₁ =>
      left
      rw [bottom_of_nil (hcallers₁.trans hcallers), hposition₁]
      refine hmain.jumps i hi target ?_
      unfold Instruction.target?
      rcases hop with hop | hop <;> rw [hop, hoperands]
    | enters hop hcallers₁ =>
      left
      rw [bottom_cons hcallers₁]
      show ((m.callers.getLastD (m.advance i.op.size).frame)).position ∈ _
      rw [hcallers]
      refine hbehind.resolve_right fun hend => ?_
      have hpop := hmain.last i hi (by rwa [hpos])
      rw [hop] at hpop
      cases hpop
    | leaves hleaves =>
      rw [show (m.advance i.op.size).callers = [] from hcallers] at hleaves
      cases hleaves
  -- a function runs, and the top level waits where it was
  | cons caller callers =>
    have hin : (callers.getLastD caller).position ∈ starts instrs := by
      rcases hat with hin | ⟨hnil, -⟩
      · rwa [bottom_cons hcallers] at hin
      · rw [hnil] at hcallers
        cases hcallers
    left
    cases hflow with
    | next hremains => rwa [bottom_cons (hremains.1.trans hcallers)]
    | jumps target hop hoperands hcallers₁ hposition₁ =>
      rwa [bottom_cons (hcallers₁.trans hcallers)]
    | enters hop hcallers₁ =>
      rw [bottom_cons hcallers₁]
      show (m.callers.getLastD _).position ∈ _
      rwa [hcallers, List.getLastD_cons]
    | leaves hleaves =>
      have heq : caller :: callers = m₁.frame :: m₁.callers := hcallers.symm.trans hleaves
      cases heq
      exact hin

/-- The end of a code is reached at the top level only: a function ends with an instruction that
returns. -/
theorem Sound.callers_eq (hs : Sound maps m) (hend : m.frame.code.code.size ≤ m.frame.position) :
    m.callers = [] := by
  obtain ⟨d, hd, k, hk, -⟩ := hs
  have hcode := hd.valid.code
  cases hcallers : m.callers with
  | nil => rfl
  | cons caller callers =>
    rw [hcallers] at hcode hk
    -- functions end by returning, so no depth is known at the end of their code
    have hinside : maps.inside m.frame.code m.frame.position = some k := hk
    have hle := (maps.inside_mapped _ hcode).inside _ _ hinside
    have hnone := maps.inside_end _ hcode
    rw [Nat.le_antisymm hend hle, hinside] at hnone
    cases hnone

/-- The top level ends with the same value on both stacks. -/
theorem AtTopLevel.finish (hmain : MainCode exe.code instrs) (hp : Paired maps h m m')
    (hat : AtTopLevel exe.code instrs m m')
    (hend : m.frame.code.code.size ≤ m.frame.position) : m'.lastPopped = m.lastPopped := by
  have hcallers := hp.sound.callers_eq hend
  rcases hat with hin | ⟨-, -, hslot⟩
  · rw [bottom_of_nil hcallers] at hin
    obtain ⟨i, hi, hpos⟩ := List.mem_map.mp hin
    have hle := hmain.tiles.end_le hi
    have hsize := i.op.size_pos
    rw [hp.code_eq hcallers] at hend
    omega
  · unfold lastPopped
    rw [hp.alike.top, hslot]

/-- No instruction of the top level returns `null`. -/
theorem AtTopLevel.not_returnNull (hmain : MainCode exe.code instrs) (hp : Paired maps h m m')
    (hat : AtTopLevel exe.code instrs m m') (hsize : m.frame.position < m.frame.code.code.size)
    (hcallers : m.callers = []) (operands : List Nat) :
    m.instruction? ≠ some (.returnNull, operands) := by
  intro hinstruction
  have hcode := hp.code_eq hcallers
  rcases hat with hin | ⟨-, hend, -⟩
  · rw [bottom_of_nil hcallers] at hin
    obtain ⟨i, hi, -, hop, -⟩ := instruction_mem hmain hcode hin hinstruction
    exact hmain.plain i hi hop
  · rw [hcode, hend] at hsize
    exact absurd hsize (Nat.lt_irrefl _)

end AtTopLevel

/-! ## Runs

The induction over the steps. It goes along the trace of the run on the clean stack, because the
hypothesis about variables is about that trace. -/

/-- **Two runs end in the same way**: with the same fault or the same value, and what they have
printed is the same. -/
structure SameEnd (result result' : Outcome × Machine) : Prop where
  outcome : result'.1 = result.1
  host : result'.2.host = result.2.host
  value : result.1 = .stopped .finished → result'.2.lastPopped = result.2.lastPopped

theorem Paired.run {host : Host} {instrs : List Instruction} (hmain : MainCode exe.code instrs)
    (hset : SetsFirst exe table host) {steps : Nat}
    (htrace : trace exe table host steps = some (m, h)) (hp : Paired maps h m m')
    (hat : AtTopLevel exe.code instrs m m') (fuel : Nat) :
    SameEnd (Machine.run fuel m) (Machine.run fuel m') := by
  -- on the number of steps; the trace says which variables have been set by now
  induction fuel generalizing steps m m' h with
  | zero => exact ⟨rfl, hp.alike.host, fun h => by cases h⟩
  | succ fuel ih =>
    unfold Machine.run
    by_cases hend : m.frame.code.code.size ≤ m.frame.position
    · rw [step_finished hend, step_finished (by rwa [hp.alike.frame])]
      exact ⟨rfl, hp.alike.host, fun _ => hat.finish hmain hp hend⟩
    · have hsize := Nat.lt_of_not_le hend
      obtain ⟨op, operands, hinstruction, hparallel⟩ := hp.parallel (hset _ _ _ htrace) hsize
        (hat.not_returnNull hmain hp hsize)
      cases hstep : step m with
      | ok _ m₁ =>
        cases hstep' : step m' with
        | ok _ m₁' =>
          rw [hstep, hstep'] at hparallel
          have hnext : trace exe table host (steps + 1) = some (m₁, h.after m.event) := by
            rw [trace, htrace]
            simp only [hstep]
          exact ih hnext (hp.next hparallel.1 hstep hstep')
            (hat.step hmain hp hsize hinstruction hparallel.2 hstep hstep')
        | error stop' m₁' =>
          rw [hstep, hstep'] at hparallel
          exact absurd hparallel id
      | error stop m₁ =>
        cases hstep' : step m' with
        | ok _ m₁' =>
          rw [hstep, hstep'] at hparallel
          exact absurd hparallel id
        | error stop' m₁' =>
          rw [hstep, hstep'] at hparallel
          obtain ⟨rfl, hhost, hvalue⟩ := hparallel
          exact ⟨rfl, hhost, fun h => hvalue (by cases h; rfl)⟩

/-- No variable has been written before a program runs, so nothing is asked of the stack. -/
theorem twins_load (exe : Executable) (table : BuiltinTable) (host : Host)
    (stack : Memory Value) :
    Twins (fun _ => none) .start (load exe table host) (loadOn stack exe table host) where
  alike := ⟨rfl, rfl, ⟨fun i _ hi => absurd hi (Nat.not_lt_zero i), trivial⟩,
    fun _ hplace => hplace⟩
  tracked := tracked_load exe table host
  stored :=
    ⟨fun _ _ _ hc => (nomatch hc), .cons (fun _ hi => absurd hi (Nat.not_lt_zero _)) .nil⟩

end

/-- A program that reads no variable before it is set, and that ends with the value of a statement,
runs in the same way whatever has been left on the stack. -/
theorem run_residue {table : BuiltinTable} {prog : Program} {exe : Executable} {host : Host}
    (h : Compilation.program table prog = .ok exe) (hvalue : Stmt.closingList prog = .value)
    (hset : SetsFirst exe table host) (stack : Memory Value) (fuel : Nat) :
    SameEnd (run fuel (load exe table host)) (run fuel (loadOn stack exe table host)) := by
  obtain ⟨maps⟩ := exists_depthMaps False h False.elim
  obtain ⟨instrs, hmain⟩ := Compilation.exists_mainCode h hvalue
  have hp : Paired maps .start (load exe table host) (loadOn stack exe table host) :=
    ⟨sound_load maps host, _, twins_load exe table host stack⟩
  have hat : AtTopLevel exe.code instrs (load exe table host) (loadOn stack exe table host) :=
    .inl hmain.start
  exact hp.run hmain hset (show trace exe table host 0 = _ from rfl) hat fuel

/-- Nothing comes behind the end of a run. -/
theorem trace_none {exe : Executable} {table : BuiltinTable} {host : Host} {n k : Nat}
    (h : trace exe table host n = none) (hle : n ≤ k) : trace exe table host k = none := by
  induction hle with
  | refl => exact h
  | step _ ih => rw [trace, ih]

/-- A run that ends can be checked step by step. -/
theorem setsFirst_of_trace {exe : Executable} {table : BuiltinTable} {host : Host} {n : Nat}
    (hend : trace exe table host n = none)
    (hall : ∀ k < n, (trace exe table host k).all (fun s => ReadsSet s.2 s.1) = true) :
    SetsFirst exe table host := by
  intro steps m h htrace
  have hlt : steps < n := by
    refine Nat.lt_of_not_le fun hle => ?_
    rw [trace_none hend hle] at htrace
    cases htrace
  have hread := hall steps hlt
  rwa [htrace] at hread

/-- The program `fn(x) { let y = x + 1; fn() { y } }(1)()`. -/
def capturingLet : Program :=
  [.expr (.call (.call (.fn ["x"] [.bind "y" (.infixOp (.ident "x") .plus (.int 1)),
    .expr (.fn [] [.expr (.ident "y")])]) [.int 1]) [])]

theorem run_residue_captured :
    ∃ exe, Compilation.program [] capturingLet = .ok exe
      ∧ SetsFirst exe [] ⟨0, 0, ""⟩
      ∧ ∀ fuel, SameEnd (run fuel (load exe [] ⟨0, 0, ""⟩))
        (run fuel (loadOn ⟨.int 7, #[]⟩ exe [] ⟨0, 0, ""⟩)) := by
  have hcheck : ((Compilation.program [] capturingLet).toOption.any fun exe =>
      (trace exe [] ⟨0, 0, ""⟩ 20).isNone && (List.range 20).all fun k =>
        (trace exe [] ⟨0, 0, ""⟩ k).all fun s => ReadsSet s.2 s.1) = true := by
    decide +kernel
  obtain ⟨exe, hexe, hcheck⟩ := exists_compiled hcheck
  obtain ⟨hend, hall⟩ := (Bool.and_eq_true _ _).mp hcheck
  have hset : SetsFirst exe [] ⟨0, 0, ""⟩ :=
    setsFirst_of_trace (Option.isNone_iff_eq_none.mp hend) fun k hk =>
      List.all_eq_true.mp hall k (List.mem_range.mpr hk)
  exact ⟨exe, hexe, hset, run_residue hexe rfl hset _⟩

/-- The program `fn(c) { if (c) { let x = 1; } x }(false)`. -/
def skippedLet : Program :=
  [.expr (.call (.fn ["c"] [.expr (.cond (.ident "c") [.bind "x" (.int 1)] none),
    .expr (.ident "x")]) [.bool false])]

/-- The `let` is skipped, and the result is what was in the slot before. -/
theorem reads_residue :
    ∃ exe, Compilation.program [] skippedLet = .ok exe
      ∧ ¬ SameEnd (run 20 (load exe [] ⟨0, 0, ""⟩))
        (run 20 (loadOn ⟨.int 7, #[]⟩ exe [] ⟨0, 0, ""⟩)) := by
  have hcheck : ((Compilation.program [] skippedLet).toOption.any fun exe =>
      (run 20 (load exe [] ⟨0, 0, ""⟩)).1 = .stopped .finished
        && (run 20 (load exe [] ⟨0, 0, ""⟩)).2.lastPopped.same .null
        && (run 20 (loadOn ⟨.int 7, #[]⟩ exe [] ⟨0, 0, ""⟩)).2.lastPopped.same (.int 7)) = true :=
      by
    decide +kernel
  obtain ⟨exe, hexe, hcheck⟩ := exists_compiled hcheck
  obtain ⟨hcheck, hseven⟩ := (Bool.and_eq_true _ _).mp hcheck
  obtain ⟨hfinished, hnull⟩ := (Bool.and_eq_true _ _).mp hcheck
  refine ⟨exe, hexe, fun hsame => ?_⟩
  rw [hsame.value (of_decide_eq_true hfinished)] at hseven
  cases hlast : (run 20 (load exe [] ⟨0, 0, ""⟩)).2.lastPopped <;> rw [hlast] at hnull hseven <;>
    first | cases hseven | cases hnull

end Scriptlet.Machine
