import Scriptlet.Proofs.Evaluation.Parts

/-!
# Sessions of evaluations

A session evaluates one program behind the other in one environment, and goes on where one fails.
The evaluator that it does so by has no memory but the number of calls that it is inside of. Since
that number is the same behind every part of a program as before it, an evaluator that has seen
other programs is as good as a new one (`session_renewed`).

The number is restored on every way out of a call: by a value, a fault, a jump that has strayed and
a program that exits. A new evaluator in the same world has another `depth` than an old one, if
anything, and `depth_program` says that it has not. -/

namespace Scriptlet.Evaluation

/-- A new evaluator in the same world. -/
def World.renewed (world : World) : World :=
  { world with depth := 0 }

/-- **Evaluates programs one behind the other**, up to one that exits or does not come to an end.
Before each of them, `start` says how the evaluator is prepared: `id` goes on with the one there is,
and `World.renewed` takes a new one. -/
def session (table : BuiltinTable) (fuel : Nat) (env : Env) (start : World → World) :
    List Program → World → List Outcome × World
  | [], world => ([], world)
  | prog :: rest, world =>
    match program table fuel env prog (start world) with
    | (.value value, world) =>
      let (outcomes, world) := session table fuel env start rest world
      (.value value :: outcomes, world)
    | (outcome, world) => ([outcome], world)

section

variable {table : BuiltinTable} {fuel : Nat} {env : Env}

theorem World.renewed_of_depth {world : World} (h : world.depth = 0) : world.renewed = world := by
  obtain ⟨host, scopes, depth⟩ := world
  obtain rfl : depth = 0 := h
  rfl

/-- **A program leaves the evaluator outside of all calls that it has begun.** It is
`Part.depth_behind` for the statements of the program. -/
theorem depth_program (prog : Program) (world : World) :
    (program table fuel env prog world).2.depth = world.depth := by
  have hbehind : (program table fuel env prog world).2
      = behind ((Part.stmts env .null prog).eval table fuel) world := by
    show (program table fuel env prog world).2 = behind (stmts table fuel env .null prog) world
    unfold program behind
    cases stmts table fuel env .null prog world with
    | ok value world' => rfl
    | error signal world' => rfl
  rw [hbehind]
  exact Part.depth_behind table fuel _ world

/-- It makes no difference whether the evaluator is renewed, and at the end it is as good as new.
Induction on the programs; the depth is zero before each of them. -/
theorem session_of_depth (programs : List Program) {world : World} (h : world.depth = 0) :
    session table fuel env id programs world = session table fuel env World.renewed programs world
      ∧ (session table fuel env id programs world).2.depth = 0 := by
  induction programs generalizing world with
  | nil => exact ⟨rfl, h⟩
  | cons prog rest ih =>
    have hbehind : (program table fuel env prog world).2.depth = 0 :=
      (depth_program prog world).trans h
    simp only [session, World.renewed_of_depth h, id]
    cases hprog : program table fuel env prog world with
    | mk outcome world' =>
      rw [hprog] at hbehind
      cases outcome with
      | value value =>
        obtain ⟨hsame, hdepth⟩ := ih hbehind
        exact ⟨by simp only [hsame], hdepth⟩
      | exit status => exact ⟨rfl, hbehind⟩
      | outOfFuel => exact ⟨rfl, hbehind⟩

end

/-- **One evaluator for all programs does what a new one for each does.** Programs that are
evaluated one behind the other have the same outcomes and leave the same world either way: behind
every part of a program, whatever it has come to, the depth is what it was before, and nothing is
evaluated at a depth beyond the limit.

The parts that are reached are those that the evaluator gets to: it runs out of fuel just if it
reaches a part that has none left. That ties `Reaches` to the evaluator, and with it the limit: a
part that was evaluated beyond the limit, but not listed, could run out of fuel unseen. -/
theorem session_renewed (table : BuiltinTable) (fuel : Nat) (env : Env) (programs : List Program)
    (world : World) :
    session table fuel env id programs world.renewed
        = session table fuel env World.renewed programs world.renewed
      ∧ (session table fuel env id programs world.renewed).2.depth = 0
      ∧ (∀ (fuel : Nat) (p : Part) (world : World),
        (behind (p.eval table fuel) world).depth = world.depth)
      ∧ (∀ (fuel fuel' : Nat) (p q : Part) (world world' : World), world.depth ≤ maxCallDepth →
        Reaches table fuel p world fuel' q world' → world'.depth ≤ maxCallDepth)
      ∧ ∀ (fuel : Nat) (p : Part) (world : World), RunsOut (p.eval table fuel) world
        ↔ ∃ q world', Reaches table fuel p world 0 q world' := by
  obtain ⟨hsame, hdepth⟩ := session_of_depth programs (show world.renewed.depth = 0 from rfl)
  refine ⟨hsame, hdepth, fun fuel p world => p.depth_behind table fuel world, ?_, ?_⟩
  · exact fun _ _ _ _ _ _ hle hreaches => hreaches.depth_le hle
  · exact fun _ _ _ => runsOut_iff_reaches

/-- A call from outside of all calls gets to the body of the function, one call deeper. -/
theorem session_renewed_call :
    (World.initial ⟨0, 0, ""⟩).depth ≤ maxCallDepth
      ∧ ∃ world, Reaches .standard 2 (.call (.function 0 [] [] [0]) []) (.initial ⟨0, 0, ""⟩)
          1 (.stmts [1, 0] .null []) world
        ∧ world.depth = 1 ∧ world.depth ≤ maxCallDepth := by
  have houtside : (World.initial ⟨0, 0, ""⟩).depth ≤ maxCallDepth := Nat.zero_le _
  have hreaches : Reaches .standard 2 (.call (.function 0 [] [] [0]) []) (.initial ⟨0, 0, ""⟩)
      1 (.stmts [1, 0] .null [])
      { World.initial ⟨0, 0, ""⟩ with scopes := #[⟨∅, false⟩, ⟨∅, false⟩], depth := 1 } :=
    .inside (List.mem_singleton_self _) (.here 1 _ _)
  obtain ⟨-, -, -, hlimit, -⟩ := session_renewed .standard 2 .root [] (.initial ⟨0, 0, ""⟩)
  exact ⟨houtside, _, hreaches, rfl, hlimit _ _ _ _ _ _ houtside hreaches⟩

end Scriptlet.Evaluation
