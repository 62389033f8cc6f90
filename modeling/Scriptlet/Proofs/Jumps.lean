import Scriptlet.Proofs.Jumps.Evaluated
import Scriptlet.Proofs.Sessions

/-!
# Static and dynamic checks of jumps

The compiler rejects a jump out of a loop by the loops that are open in its function; the evaluation
decides by the scopes around it, those of closures included, and by what comes out of a call. For
programs that do not quote, the two agree: `jumps_agree`.

Neither side is compared with the other directly. What the compiler does is known from
`Proofs/Sessions.lean`, what the evaluator does from `Proofs/Jumps/Evaluated.lean`, and both in
terms of `strays`. What is left to do here is to tell a fault from its wording, since faults that
reach the top are values that only have a message.
-/

namespace Scriptlet

/-! ## Faults and their wording

An evaluation ends with an error value, whose text is all that is left of the fault. The two faults
of jumps can be told by it, because no other message starts with the same words. -/

/-- The wording of a stray jump tells it from all other faults: no other one starts like it. -/
theorem Fault.eq_of_message {fault : Fault} {jump : LoopJump}
    (h : fault.message = jump.fault.message) : fault = jump.fault := by
  have hstart := congrArg (fun text : String => text.toList.take 4) h
  cases fault with
  | breakOutsideLoop =>
    cases jump with
    | breaks => rfl
    | continues => exact absurd hstart (by decide +kernel)
  | continueOutsideLoop =>
    cases jump with
    | breaks => exact absurd hstart (by decide +kernel)
    | continues => rfl
  | _ =>
    cases jump
    all_goals
      -- by `delta`, since the equations of `message` take long to make
      delta Fault.message LoopJump.fault at hstart
      simp (disch := decide +kernel) only [String.append_assoc, String.toList_append,
        List.take_append_of_le_length] at hstart
      exact absurd hstart (by decide +kernel)

namespace Evaluation

/-- Before a program runs no name is bound. -/
theorem sound_initial (host : Host) : (World.initial host).Sound := by
  intro id name v hv
  cases id with
  | zero => simp [World.initial, Scopes.bound?] at hv
  | succ id => simp [World.initial, Scopes.bound?] at hv

/-- **A program in which no jump strays does not end with the fault of one.** -/
theorem program_confined {program : Program} (h : ∀ jump, program.strays jump = false)
    (table : BuiltinTable) (fuel : Nat) (host : Host) (jump : LoopJump) :
    (Evaluation.program table fuel Env.root program (.initial host)).1
      ≠ .value (.error jump.fault.message) := by
  have hruns := (confines table fuel).stmts Env.root false .null program trivial h
    (World.initial host) (sound_initial host) (by simp)
  unfold Evaluation.program
  cases hr : stmts table fuel Env.root .null program (World.initial host) with
  | ok v world =>
    rw [hr] at hruns
    intro heq
    cases heq
    exact hruns.2
  | error signal world =>
    rw [hr] at hruns
    -- nothing is around that a jump could leave, so that only a halt is left to be looked at
    have hsignal : signal.Allowed false := hruns.2
    intro heq
    cases signal with
    | returned v =>
      cases heq
      exact hsignal
    | breakLoop => cases hsignal
    | continueLoop => cases hsignal
    | halted halt =>
      cases halt with
      | fault fault =>
        have hmessage : fault.message = jump.fault.message := by
          simpa [Outcome.ofSignal] using heq
        exact hsignal jump (Fault.eq_of_message hmessage)
      | exit status => cases heq
    | outOfFuel => cases heq

end Evaluation

/-! ## Agreement -/

/-- **The compiler and the evaluator agree on stray jumps.** For a program that does not quote,
whatever has been compiled before it: if the compiler accepts it, no evaluation of it in a new root
ends with the fault of a stray jump, and if the compiler complains about a jump, one strays. -/
theorem Program.jumps_agree (table builtins : BuiltinTable) (earlier : List Program)
    (program : Program) (hquote : program.mentions "quote" = false) :
    ((Compilation.extend program (.after table earlier)).1 = .ok () →
      ∀ (fuel : Nat) (host : Host) (jump : LoopJump),
        (Evaluation.program builtins fuel Env.root program (.initial host)).1
          ≠ .value (.error jump.fault.message))
      ∧ ∀ jump : LoopJump,
        (Compilation.extend program (.after table earlier)).1 = .error jump.error →
          program.strays jump = true := by
  have htop := Compilation.atTopLevel_after table earlier
  have hout : (Compilation.State.after table earlier).inLoop = false := by
    rw [Compilation.State.inLoop, htop.loops]
    rfl
  refine ⟨fun hok fuel host jump => ?_, fun jump herror => ?_⟩
  · have hnone := Compilation.not_strays_of_ok hquote hok
    rw [hout] at hnone
    exact Evaluation.program_confined hnone builtins fuel host jump
  · have hstrays := Compilation.strays_of_error herror
    rwa [hout] at hstrays

/-- The program `for (let i = 0; i < 3; i = i + 1) { let f = fn(x) { for (0; true; 0) { break; } x
}; if (f(i) == 1) { continue; } }`: a `break` in a loop of a function that is made in a loop, and a
`continue` in a branch of the loop outside. -/
def nestedLoops : Program :=
  [.loop (.bind "i" (.int 0)) (.infixOp (.ident "i") .lt (.int 3))
    (.assign "i" (.infixOp (.ident "i") .plus (.int 1)))
    [.bind "f" (.fn ["x"] [.loop (.expr (.int 0)) (.bool true) (.expr (.int 0)) [.breakLoop],
      .expr (.ident "x")]),
      .expr (.cond (.infixOp (.call (.ident "f") [.ident "i"]) .eq (.int 1)) [.continueLoop] none)]]

theorem Program.jumps_agree_nested :
    nestedLoops.mentions "quote" = false
      ∧ (Compilation.extend nestedLoops (.after [] [])).1 = .ok ()
      ∧ ∀ (fuel : Nat) (host : Host) (jump : LoopJump),
        (Evaluation.program [] fuel Env.root nestedLoops (.initial host)).1
          ≠ .value (.error jump.fault.message) := by
  have hquote : nestedLoops.mentions "quote" = false := by decide +kernel
  have hcheck : (Compilation.extend nestedLoops (.after [] [])).1.isOk = true := by decide +kernel
  have hok : (Compilation.extend nestedLoops (.after [] [])).1 = .ok () := by
    cases hresult : (Compilation.extend nestedLoops (.after [] [])).1 with
    | ok value => rfl
    | error error =>
      rw [hresult] at hcheck
      cases hcheck
  exact ⟨hquote, hok, (Program.jumps_agree [] [] [] nestedLoops hquote).1 hok⟩

end Scriptlet
