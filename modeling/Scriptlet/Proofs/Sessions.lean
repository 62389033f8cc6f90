import Scriptlet.Proofs.Sessions.Compiled

/-!
# Sessions

A session compiles one program behind the other, and goes on where one fails. `session_nesting`:
behind every program the compiler is outside of all functions, blocks and loops again.
`session_appends`: nothing that an earlier program has left is ever changed.

Both are an induction over the programs (`State.after_induction`) with `extend_kept` as its step,
which holds for accepted and for refused programs alike.
-/

namespace Scriptlet

/-- **All that an executable has is the start of what another one has**: its code, its constants and
the names of its globals. -/
structure Executable.Precedes (before behind : Executable) : Prop where
  code : before.code.toList <+: behind.code.toList
  constants : before.constants.toList <+: behind.constants.toList
  globals : before.globals.toList <+: behind.globals.toList

namespace Compilation

/-- The state after some programs have been compiled in turn. Each of them may have failed, and what
is compiled next starts where the failure has left the compiler. -/
def State.after (table : BuiltinTable) (programs : List Program) : State :=
  programs.foldl (fun state program => (extend program state).2) (.initial table)

/-- Outside of all functions, blocks and loops. -/
structure State.AtTopLevel (s : State) : Prop where
  enclosing : s.enclosing = []
  outer : s.symbols.outer = []
  blocks : s.symbols.table.blocks = []
  loops : s.segment.loops = []

/-! ## One more program

A program is compiled with the whole code there is as the bound, so all of it is kept. -/

section Extend

variable {s t : State}

/-- What `stmts_steps` says of the statements of a program, in terms of how the program ends. -/
theorem extend_compiles (program : Program) (s : State) :
    Kept s.segment.code.size s (extend program s).2
      ∧ (∀ jump, (extend program s).1 = .error (LoopJump.error jump) →
        Stmt.straysAny jump s.inLoop program = true)
      ∧ ((extend program s).1 = .ok () → ∀ jump, Stmt.straysAny jump s.inLoop program = true →
        program.mentions "quote" = true) := by
  have hsteps := stmts_steps program s.segment.code.size _ s (Nat.le_refl _) (Nat.le_refl _)
  unfold extend
  cases hr : stmts program s with
  | ok a t =>
    rw [hr] at hsteps
    exact ⟨hsteps.1, nofun, fun _ => hsteps.2⟩
  | error error t =>
    rw [hr] at hsteps
    exact ⟨hsteps.1, fun jump h => hsteps.2 jump (Except.error.inj h), nofun⟩

/-- A program keeps what was there before, whether it fails or not. -/
theorem extend_kept (program : Program) (s : State) :
    Kept s.segment.code.size s (extend program s).2 :=
  (extend_compiles program s).1

/-- A program fails on a jump only if one strays. -/
theorem strays_of_error {program : Program} {jump : LoopJump}
    (h : (extend program s).1 = .error jump.error) :
    Stmt.straysAny jump s.inLoop program = true :=
  (extend_compiles program s).2.1 jump h

/-- **A program in which a jump strays is not accepted**, unless the jump may have been quoted. -/
theorem not_strays_of_ok {program : Program} (hquote : program.mentions "quote" = false)
    (h : (extend program s).1 = .ok ()) (jump : LoopJump) :
    Stmt.straysAny jump s.inLoop program = false := by
  refine Bool.eq_false_iff.mpr fun hstrays => ?_
  have hmentions := (extend_compiles program s).2.2 h jump hstrays
  rw [hquote] at hmentions
  cases hmentions

theorem Kept.atTopLevel {n : Nat} (h : Kept n s t) (hs : s.AtTopLevel) : t.AtTopLevel := by
  obtain ⟨jumps, -, hloops⟩ := h.loops
  have hnesting : t.symbols.nesting = [0] := by
    rw [h.nesting, Symbols.nesting, Symbols.tables, hs.outer, List.map_singleton, hs.blocks]
    rfl
  have houter := (List.cons.inj hnesting).2
  refine ⟨h.enclosing.trans hs.enclosing, List.map_eq_nil_iff.mp houter,
    List.eq_nil_of_length_eq_zero (List.cons.inj hnesting).1, ?_⟩
  rw [hloops, hs.loops]
  rfl

end Extend

/-! ## Every program of a session

Whatever holds at the start and survives `Kept` holds in every state of a session. -/

theorem atTopLevel_initial (table : BuiltinTable) : (State.initial table).AtTopLevel :=
  ⟨rfl, Symbols.outer_ofBuiltins _, Symbols.blocks_ofBuiltins _, rfl⟩

/-- What holds before anything is compiled and survives every program holds after every session. -/
theorem State.after_induction {motive : State → Prop} {table : BuiltinTable}
    (programs : List Program) (hinitial : motive (.initial table))
    (hkept : ∀ n s t, Kept n s t → motive s → motive t) : motive (.after table programs) := by
  unfold State.after
  generalize State.initial table = s at hinitial
  induction programs generalizing s with
  | nil => exact hinitial
  | cons program programs ih => exact ih _ (hkept _ _ _ (extend_kept program s) hinitial)

theorem atTopLevel_after (table : BuiltinTable) (programs : List Program) :
    (State.after table programs).AtTopLevel :=
  State.after_induction programs (atTopLevel_initial table) fun _ _ _ => Kept.atTopLevel

theorem globalsNamed_after (table : BuiltinTable) (programs : List Program) :
    (State.after table programs).symbols.GlobalsNamed :=
  State.after_induction (motive := fun s => s.symbols.GlobalsNamed) programs
    (Symbols.GlobalsNamed.ofBuiltins _) fun _ _ _ => Kept.named

/-! ## Later statements

What being at the top level is good for: names that are defined there are globals, and jumps there
have no loop to leave. Both are said of any state at the top level, hence of a compiler that has
gone through any number of failures. -/

section Later

variable {s t : State}

theorem store_global {symbol : Symbol} {r : Unit} (hkind : symbol.kind = .global)
    (h : store symbol s = .ok r t) : t = s.emit .setGlobal [symbol.index] := by
  unfold store at h
  rw [hkind] at h
  exact (storeGlobal_leaves symbol.index h).2

theorem stmt_of_extend {st : Stmt} (h : extend [st] s = (.ok (), t)) : stmt st s = .ok () t := by
  unfold extend at h
  split at h
  · rename_i u hu
    obtain rfl := (Prod.mk.inj h).2
    obtain ⟨_, v, hv, hnil⟩ := bind_ok.mp hu
    obtain ⟨-, rfl⟩ := pure_ok.mp hnil
    exact hv
  · cases (Prod.mk.inj h).1

/-- **A `let` at the top level stores into a global slot of its name.** For a function the name is
defined before the value is compiled, for all others behind it; either way the slot is the one that
bears the name in the end, since names of globals are kept. -/
theorem let_global {name : String} {value : Expr} (hs : s.AtTopLevel)
    (hnamed : s.symbols.GlobalsNamed) (h : extend [.bind name value] s = (.ok (), t)) :
    ∃ (code : Code) (index : Nat), t.segment.code = code ++ Op.setGlobal.encode [index]
      ∧ t.symbols.globals[index]? = some name := by
  have hstmt := stmt_of_extend h
  have hvalue : ∀ u v : State, expr value u = .ok () v → Kept 0 u v := fun u v hv => by
    have hsteps := expr_steps value 0 0 u (Nat.le_refl 0) (Nat.zero_le _)
    rw [hv] at hsteps
    exact hsteps.1
  have hbehind : (do
      expr value
      let symbol ← onSymbols (Symbols.define name)
      store symbol) s = .ok () t → ∃ (code : Code) (index : Nat),
        t.segment.code = code ++ Op.setGlobal.encode [index]
          ∧ t.symbols.globals[index]? = some name := by
    intro h
    simp only [bind_ok, onSymbols_ok] at h
    obtain ⟨_, u, hu, _, _, ⟨rfl, rfl⟩, hstore⟩ := h
    have hkept := hvalue s u hu
    obtain ⟨hkind, hslot⟩ := (hkept.named hnamed).define_slot (hkept.atTopLevel hs).outer name
    obtain rfl := store_global hkind hstore
    exact ⟨u.segment.code, _, rfl, hslot⟩
  cases value with
  | fn params body =>
    -- the name of a function is defined first, and its slot keeps it while the value is compiled
    simp only [stmt, bind_ok, onSymbols_ok] at hstmt
    obtain ⟨_, _, ⟨rfl, rfl⟩, _, u, hu, hstore⟩ := hstmt
    obtain ⟨hkind, hslot⟩ := hnamed.define_slot hs.outer name
    obtain rfl := store_global hkind hstore
    exact ⟨u.segment.code, _, rfl, getElem?_of_prefix_toList (hvalue _ u hu).globals hslot⟩
  | _ => exact hbehind hstmt

/-- A `break` or `continue` outside of all loops is rejected, and nothing is compiled for it. -/
theorem exit_rejected (hs : s.AtTopLevel) (rest : Program) :
    extend (.breakLoop :: rest) s = (.error .breakOutsideLoop, s)
      ∧ extend (.continueLoop :: rest) s = (.error .continueOutsideLoop, s) := by
  obtain ⟨constants, symbols, ⟨code, last, previous, loops, depth⟩, enclosing, fresh⟩ := s
  obtain rfl : loops = [] := hs.loops
  exact ⟨rfl, rfl⟩

end Later

/-- **Behind every program the compiler is at the top level.** Whatever programs have been compiled
before, and however they have failed: a `let` there stores into a global slot of its name, and a
jump out of a loop that strays is rejected, be it a whole statement or anywhere inside of one. -/
theorem session_nesting (table : BuiltinTable) (programs : List Program) :
    (State.after table programs).AtTopLevel
      ∧ (∀ (name : String) (value : Expr) (t : State),
        extend [.bind name value] (State.after table programs) = (.ok (), t) →
          ∃ (code : Code) (index : Nat), t.segment.code = code ++ Op.setGlobal.encode [index]
            ∧ t.symbols.globals[index]? = some name)
      ∧ (∀ rest : Program,
        extend (.breakLoop :: rest) (State.after table programs)
            = (.error .breakOutsideLoop, State.after table programs)
          ∧ extend (.continueLoop :: rest) (State.after table programs)
            = (.error .continueOutsideLoop, State.after table programs))
      ∧ ∀ (program : Program) (jump : LoopJump), program.mentions "quote" = false →
        program.strays jump = true → (extend program (State.after table programs)).1 ≠ .ok () := by
  have hs := atTopLevel_after table programs
  refine ⟨hs, fun name value t h => let_global hs (globalsNamed_after table programs) h,
    exit_rejected hs, fun program jump hquote hstrays hok => ?_⟩
  have hnone := not_strays_of_ok hquote hok jump
  rw [State.inLoop, hs.loops] at hnone
  rw [Program.strays] at hstrays
  exact absurd hstrays (by simpa using hnone)

/-- The program `for (0; true; 0) { fn() { { break; } } }`: the `break` stands in the body of a
loop, but not in one of its own function. It is found when a loop, a function and a block are
open. -/
def brokenFunction : Program :=
  [.loop (.expr (.int 0)) (.bool true) (.expr (.int 0)) [.expr (.fn [] [.block [.breakLoop]])]]

theorem session_nesting_broken :
    (extend brokenFunction (.initial [])).1 = .error .breakOutsideLoop
      ∧ (State.after [] [brokenFunction]).AtTopLevel
      ∧ ∃ t, extend [.bind "x" (.int 1)] (State.after [] [brokenFunction]) = (.ok (), t)
        ∧ (∃ (code : Code) (index : Nat), t.segment.code = code ++ Op.setGlobal.encode [index]
          ∧ t.symbols.globals[index]? = some "x")
        ∧ (extend brokenFunction (State.after [] [brokenFunction])).1 ≠ .ok () := by
  obtain ⟨hs, hlet, -, hstrays⟩ := session_nesting [] [brokenFunction]
  exact ⟨rfl, hs, _, rfl, hlet "x" (.int 1) _ rfl,
    hstrays brokenFunction .breaks (by decide +kernel) rfl⟩

/-- Code of which another one keeps every byte is the start of it. -/
theorem toList_isPrefix {code code' : Code} (h : ∀ i < code.size, code'[i]? = code[i]?) :
    code.toList <+: code'.toList := by
  rw [List.prefix_iff_getElem?]
  intro i hi
  rw [Array.length_toList] at hi
  rw [Array.getElem?_toList, h i hi]
  simp [hi]

theorem Kept.precedes {s t : State} (h : Kept s.segment.code.size s t) (hs : s.AtTopLevel) :
    s.executable.Precedes t.executable := by
  have hglobals : ∀ u : State, u.AtTopLevel → u.executable.globals = u.symbols.globals :=
    fun u hu => by simp [State.executable, Symbols.ownGlobals, Symbols.atTopLevel, hu.outer]
  refine ⟨toList_isPrefix h.code, h.constants, ?_⟩
  rw [hglobals s hs, hglobals t (h.atTopLevel hs)]
  exact h.globals

/-- **Compiling one more program only appends**, whether it fails or not: the code, the constants
and the names of the globals that are there already are the start of those that come to be. -/
theorem session_appends (table : BuiltinTable) (programs : List Program) (program : Program) :
    (State.after table programs).executable.Precedes
      (extend program (State.after table programs)).2.executable :=
  (extend_kept program _).precedes (atTopLevel_after table programs)

end Compilation

end Scriptlet
