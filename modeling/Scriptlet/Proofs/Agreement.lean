import Scriptlet.Proofs.Agreement.Mirror
import Scriptlet.Proofs.Agreement.Simulation
import Scriptlet.Proofs.Layout.Compiled

/-!
# Both backends agree

A plain program comes to the same in both backends, once every `a < b` is read as `b > a`:
`Machine.run_answers` compares the value or the fault and what has been printed, and
`Machine.run_variables` the variables at the end. What a name means in an iteration of a loop shows
in these: a program can print it or store it in a variable outside of the loop.

Programs that are not plain may differ. A name that is read in a loop above the `let` that binds it
is found by the evaluation in the scope of the loop from the second iteration on, and by the machine
in the slot of the outer variable (`reads_outer_slot`). Keys of a hash are looked at before its
values by the evaluation and behind them by the machine (`checks_keys_late`). Closures that capture
the variable of a loop share it with all executions of the loop in one call of a function for the
machine, but not for the evaluation (`shares_loop_variable`).
-/

namespace Scriptlet

open Evaluation

/-- What a program comes to, and what it leaves of its surroundings. -/
structure Answer where
  result : Except Halt Value
  host : Host

/-- The integer that a program comes to. -/
def Answer.int? : Answer → Option Int64
  | ⟨.ok (.int i), _⟩ => some i
  | _ => none

/-- The answer of an evaluation. -/
def Evaluation.answer? : EStateM.Result Signal World Value → Option Answer
  | .ok value world | .error (.returned value) world => some ⟨.ok value, world.host⟩
  | .error (.halted halt) world => some ⟨.error halt, world.host⟩
  | .error .breakLoop world => some ⟨.error (.fault .breakOutsideLoop), world.host⟩
  | .error .continueLoop world => some ⟨.error (.fault .continueOutsideLoop), world.host⟩
  | .error .outOfFuel _ => none

/-- The answer of a run. -/
def Machine.answer? : Machine.Outcome × Machine → Option Answer
  | (.stopped .finished, m) => some ⟨.ok m.lastPopped, m.host⟩
  | (.stopped (.halted halt), m) => some ⟨.error halt, m.host⟩
  | _ => none

/-- The answer of evaluating a program with so much fuel. -/
def Evaluation.answerOf (table : BuiltinTable) (fuel : Nat) (host : Host) (prog : Program) :
    Option Answer :=
  answer? (stmts table fuel .root .null prog (.initial host))

/-- The answer of running a program for so many steps. -/
def Machine.answerOf (table : BuiltinTable) (fuel : Nat) (host : Host) (prog : Program) :
    Option Answer :=
  (Compilation.program table prog).toOption.bind fun exe => answer? (run fuel (load exe table host))

section

variable {table : BuiltinTable} {prog : Program} {exe : Executable} {symbols : Symbols}
  {constants fuel : Nat} {host : Host}

/-- Where the statements of a program stand. -/
def Setting.outermost : Setting :=
  ⟨true, [], none, []⟩

/-- Before a program runs, no variable is bound. -/
theorem agrees_initial (top : Block) (host : Host) :
    Agrees top (World.initial host).scopes ⟨none, #[]⟩ [] [] := by
  refine .root Nat.zero_lt_one fun name => ?_
  have hunset : Symbol.value? ⟨none, #[]⟩ = fun _ => none := by
    funext symbol
    unfold Symbol.value?
    split <;> rfl
  rw [Block.value?, hunset]
  cases top[name]? <;> simp [World.initial, Scopes.bound?]

/-- The machine follows the evaluation of a program from its start. -/
theorem program_follows (hplain : prog.plain table) (haligned : prog.aligned)
    (hfew : table.length ≤ 256) (hglobals : exe.globals = symbols.globals)
    (hlaid : StmtsAt exe.code exe.constants none .drop 0 prog
      ⟨0, .ofBuiltins (table.map Builtin.name), 0⟩ ⟨exe.code.size, symbols, constants⟩)
    (fuel : Nat) (host : Host) : Simulates exe table symbols none (Machine.load exe table host)
      (stmts table fuel .root .null prog.mirrored (.initial host))
      fun value => Ended exe table symbols .drop (Stmt.closingList prog) .null value exe.code.size
        [] [] [] := by
  have hflat := Symbols.flat_ofBuiltins table
  have hblocks : (Symbols.ofBuiltins (table.map Builtin.name)).table.blocks = [] := by
    obtain ⟨level, heq, -⟩ := Symbols.ofBuiltins_level (table.map Builtin.name)
    rw [heq]
  have hwidens := StmtsAt.widens prog hplain (fun _ => hblocks) hflat hlaid
  -- no loop is open and no operand is waiting, so what the setting asks for is there at the start
  have hat : Setting.outermost.At table symbols 0 false false []
      ⟨0, .ofBuiltins (table.map Builtin.name), 0⟩ :=
    { flat := hflat
      root := fun _ => hblocks
      covers := fun _ h => absurd h (by simp [Setting.outermost])
      counted := .outside 0 0 false false
      suffix := fun _ h => absurd h (by simp [Setting.outermost])
      leaves := fun _ h => absurd h (by simp [Setting.outermost])
      nested := fun h => absurd rfl h }
  have hfollows := (follows_all hglobals hfew fuel).stmts prog .outermost _ _ .drop 0 false false
    [] .null (.initial host) (Machine.load exe table host) hplain haligned (by decide) hat
    (.refl hwidens.grows.flat) hlaid
  rw [show Point.blocks ⟨0, .ofBuiltins (table.map Builtin.name), 0⟩ = [] from hblocks] at hfollows
  exact hfollows ⟨_, Machine.topLevel_load exe table host, agrees_initial _ host⟩

namespace Machine

/-! ## Answers -/

theorem Halts.answers {m : Machine} {stop : Stop} {goal : Machine → Prop} {answer : Answer}
    (h : m.Halts stop goal) (h' : ∀ m', goal m' → answer? (.stopped stop, m') = some answer) :
    m.Overflows ∨ ∃ n, answer? (run n m) = some answer := by
  rcases h with hover | ⟨n, m', hrun, hgoal⟩
  · exact .inl hover
  · exact .inr ⟨n, by rw [hrun, h' m' hgoal]⟩

/-- A run comes to the same as the evaluation of the mirrored program, which has the same fault and
has printed the same, unless the machine runs out of room or a key of a hash is refused. -/
theorem run_answers (h : Compilation.program table prog = .ok exe)
    (hplain : prog.plain table = true) (haligned : prog.aligned = true)
    (hfew : table.length ≤ 256) (hvalue : Stmt.closingList prog = .value) {answer : Answer}
    (heval : Evaluation.answerOf table fuel host prog.mirrored = some answer)
    (hkey : ∀ kind, answer.result ≠ .error (.fault (.unusableKey kind))) :
    (load exe table host).Overflows ∨ ∃ n, answer? (run n (load exe table host)) = some answer := by
  obtain ⟨symbols, hglobals, -, hlaid⟩ := Compilation.program_laid h
  have hsim := program_follows hplain haligned hfew hglobals hlaid fuel host
  unfold Evaluation.answerOf at heval
  unfold Simulates at hsim
  split at hsim
  -- the end of the program, or one of the ways to leave it
  · rename_i value world hresult
    rw [hresult] at heval
    cases heval
    rw [hvalue] at hsim
    have hhalts : (load exe table host).Halts .finished fun m' => m'.lastPopped = value
        ∧ m'.host = world.host := by
      refine Arrives.halts hsim fun m' hm' => .inr ?_
      obtain ⟨⟨globals, htop, -⟩, hread⟩ := hm'
      exact htop.finishes ⟨htop.lastPopped_eq (by decide) hread, htop.host⟩
    exact hhalts.answers fun m' hm' => by rw [answer?, hm'.1, hm'.2]
  · rename_i signal world hresult
    rw [hresult] at heval
    cases signal with
    | outOfFuel => cases heval
    | returned value =>
      cases heval
      have hsim : Halts _ _ _ := hsim
      refine hsim.answers fun m' hm' => ?_
      obtain ⟨⟨p, ops, globals, htop, -⟩, hlast⟩ := hm'
      rw [answer?, hlast, htop.host]
    | halted halt =>
      cases heval
      rcases hsim with ⟨kind, rfl⟩ | hsim
      · exact absurd rfl (hkey kind)
      · exact hsim.answers fun m' hm' => by rw [answer?, hm']
    | breakLoop | continueLoop =>
      rcases hsim with hover | ⟨m', -, target, htarget, -⟩
      · exact .inl hover
      · cases htarget

/-- The program `puts([1 + 2, "x"][0]); puts(4) - 5 / 0`, whose last statement prints before it
divides. -/
def printingSum : Program :=
  [.expr (.call (.ident "puts")
      [.index (.array [.infixOp (.int 1) .plus (.int 2), .str "x"]) (.int 0)]),
    .expr (.infixOp (.call (.ident "puts") [.int 4]) .minus
      (.infixOp (.int 5) .slash (.int 0)))]

theorem run_answers_printing :
    ∃ exe answer, Compilation.program .standard printingSum = .ok exe
      ∧ Evaluation.answerOf .standard 20 ⟨0, 0, ""⟩ printingSum = some answer
      ∧ answer.result = .error (.fault .divisionByZero)
      ∧ ((load exe .standard ⟨0, 0, ""⟩).Overflows
        ∨ ∃ n, answer? (run n (load exe .standard ⟨0, 0, ""⟩)) = some answer) :=
  ⟨_, _, rfl, rfl, rfl, @run_answers .standard printingSum _ 20 ⟨0, 0, ""⟩ rfl rfl rfl (by decide)
    rfl _ rfl fun _ h => by cases h⟩

/-- The program `{[]: missing}`. -/
def unusableKey : Program :=
  [.expr (.hash [(.array [], .ident "missing")])]

/-- The evaluation refuses the key, and the machine the value. -/
theorem checks_keys_late :
    ∃ answer answer', Evaluation.answerOf [] 20 ⟨0, 0, ""⟩ unusableKey = some answer
      ∧ answerOf [] 20 ⟨0, 0, ""⟩ unusableKey = some answer'
      ∧ answer.result = .error (.fault (.unusableKey .array))
      ∧ answer'.result = .error (.fault (.unbound "missing")) :=
  ⟨_, _, rfl, rfl, rfl, rfl⟩

/-! ## Variables -/

/-- A run leaves the same variables as the evaluation of the program, has printed the same and has
the same value, unless the machine runs out of room. -/
theorem run_variables {state : Compilation.State}
    (h : Compilation.extend prog (.initial table) = (.ok (), state))
    (hplain : prog.plain table = true) (haligned : prog.aligned = true)
    (hsteady : prog.steady = true) (hfew : table.length ≤ 256) {value : Value} {world : World}
    (heval : stmts table fuel .root .null prog (.initial host) = .ok value world) :
    (load state.executable table host).Halts .finished fun m =>
      m.host = world.host ∧ m.top = 0
        ∧ (∀ name, state.symbols.table.level.value? m.globals name
          = world.scopes.lookup? name .root)
        ∧ (Stmt.closingList prog = .value → m.lastPopped = value) := by
  obtain ⟨hglobals, -, hlaid⟩ := Compilation.extend_laid h
  -- the program has a value, so it does what its mirror image does
  have hmirrored := ((mirrored_all table fuel).stmts .root .null prog hsteady).ok heval
  have hsim := program_follows hplain haligned hfew hglobals hlaid fuel host
  rw [show stmts table fuel .root .null prog.mirrored (.initial host) = .ok value world
    from hmirrored] at hsim
  have hsim : Arrives _ _ := hsim
  refine hsim.halts fun m hm => .inr ?_
  obtain ⟨globals, htop, hagrees⟩ := hm.stands (.inl rfl)
  refine htop.finishes ⟨htop.host, htop.top, fun name => ?_, fun hclosing => ?_⟩
  · rw [htop.globals, Env.root, Scopes.lookup?_root, hagrees.bound_root]
  · rw [hclosing] at hm
    exact htop.lastPopped_eq (by decide) hm.2

/-- The program `let x = 1; let seen = [];
for (let i = 0; i < 3; i = i + 1) { let x = i * 2; seen = push(seen, x); } seen`. -/
def shadowingLoop : Program :=
  [.bind "x" (.int 1), .bind "seen" (.array []),
    .loop (.bind "i" (.int 0)) (.infixOp (.ident "i") .lt (.int 3))
      (.assign "i" (.infixOp (.ident "i") .plus (.int 1)))
      [.bind "x" (.infixOp (.ident "i") .asterisk (.int 2)),
        .assign "seen" (.call (.ident "push") [.ident "seen", .ident "x"])],
    .expr (.ident "seen")]

theorem run_variables_shadowing :
    ∃ state value world,
      Compilation.extend shadowingLoop (.initial .standard) = (.ok (), state)
      ∧ stmts .standard 30 .root .null shadowingLoop (.initial ⟨0, 0, ""⟩) = .ok value world
      ∧ (load state.executable .standard ⟨0, 0, ""⟩).Halts .finished fun m =>
        m.host = world.host ∧ m.top = 0
          ∧ (∀ name, state.symbols.table.level.value? m.globals name
            = world.scopes.lookup? name .root)
          ∧ (Stmt.closingList shadowingLoop = .value → m.lastPopped = value) :=
  ⟨_, _, _, rfl, rfl, @run_variables .standard shadowingLoop 30 ⟨0, 0, ""⟩ _ rfl rfl rfl rfl
    (by decide) _ _ rfl⟩

/-- The program `let x = 1; let s = 0;
for (let i = 0; i < 2; i = i + 1) { s = s + x; let x = 10; } s`. -/
def readingLoop : Program :=
  [.bind "x" (.int 1), .bind "s" (.int 0),
    .loop (.bind "i" (.int 0)) (.infixOp (.ident "i") .lt (.int 2))
      (.assign "i" (.infixOp (.ident "i") .plus (.int 1)))
      [.assign "s" (.infixOp (.ident "s") .plus (.ident "x")), .bind "x" (.int 10)],
    .expr (.ident "s")]

/-- In the second iteration the evaluation reads the variable of the loop, and the machine the one
around it. -/
theorem reads_outer_slot :
    (Evaluation.answerOf [] 30 ⟨0, 0, ""⟩ readingLoop).bind Answer.int? = some 11
      ∧ (answerOf [] 100 ⟨0, 0, ""⟩ readingLoop).bind Answer.int? = some 2 := by
  decide +kernel

/-- The program `let f = fn() { let fs = []; for (let i = 0; i < 2; i = i + 1) {
for (let j = i; j < i + 1; j = j + 1) { fs = push(fs, fn() { j }); } } fs }; f()[0]()`. -/
def capturingLoop : Program :=
  [.bind "f" (.fn [] [.bind "fs" (.array []),
      .loop (.bind "i" (.int 0)) (.infixOp (.ident "i") .lt (.int 2))
        (.assign "i" (.infixOp (.ident "i") .plus (.int 1)))
        [.loop (.bind "j" (.ident "i"))
          (.infixOp (.ident "j") .lt (.infixOp (.ident "i") .plus (.int 1)))
          (.assign "j" (.infixOp (.ident "j") .plus (.int 1)))
          [.assign "fs" (.call (.ident "push") [.ident "fs", .fn [] [.expr (.ident "j")]])]],
      .expr (.ident "fs")]),
    .expr (.call (.index (.call (.ident "f") []) (.int 0)) [])]

/-- The evaluation has the variable of the inner loop anew in each of its executions, the machine
once for both: the closure that the first one made sees what the second one wrote. -/
theorem shares_loop_variable :
    (Evaluation.answerOf .standard 60 ⟨0, 0, ""⟩ capturingLoop).bind Answer.int? = some 1
      ∧ (answerOf .standard 200 ⟨0, 0, ""⟩ capturingLoop).bind Answer.int? = some 2 := by
  decide +kernel

/-- The program `fn(a, a) { a }(1, 2)`. -/
def repeatedParameter : Program :=
  [.expr (.call (.fn ["a", "a"] [.expr (.ident "a")]) [.int 1, .int 2])]

/-- Of two parameters of one name the evaluation reads the last and the machine the first. -/
theorem reads_first_argument :
    (Evaluation.answerOf [] 20 ⟨0, 0, ""⟩ repeatedParameter).bind Answer.int? = some 2
      ∧ (answerOf [] 100 ⟨0, 0, ""⟩ repeatedParameter).bind Answer.int? = some 1 := by
  decide +kernel

/-- The program `first([7, 8])`. -/
def firstElement : Program :=
  [.expr (.call (.ident "first") [.array [.int 7, .int 8]])]

/-- The index of a built-in function is cut to one byte: with 256 functions in front of it, the
machine calls the first of them. -/
theorem truncates_builtin_index :
    (Evaluation.answerOf (List.replicate 256 .len ++ [.first]) 20 ⟨0, 0, ""⟩ firstElement).bind
        Answer.int? = some 7
      ∧ (answerOf (List.replicate 256 .len ++ [.first]) 100 ⟨0, 0, ""⟩ firstElement).bind
        Answer.int? = some 2 := by
  decide +kernel

end Machine

end

end Scriptlet
