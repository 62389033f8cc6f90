import Scriptlet.Proofs.Agreement.Steps
import Scriptlet.Proofs.Agreement.Variables
import Scriptlet.Proofs.Depth.Flow

/-!
# What the machine does for an evaluation

`Simulates` says that the machine does what an evaluation does: if the evaluation has a value, the
machine gets to a state that goes with it; if it ends by a signal, the machine does what the signal
means at that place (`Fails`). Statements about parts are put together with `Simulates.bind`.

The simulation is one of big steps. Its hypothesis is the result of an evaluation with some fuel,
and its conclusion is a run of the machine of some length; nothing relates the two numbers. The
relation between an evaluation and the machine at one moment is `Stands`: the machine is at a
position of the code, the operands are on its stack, and its slots hold what the scopes hold.

Three outcomes are left out. The evaluation may run out of fuel, the machine may run out of room on
its stack, and where the evaluation refuses a key of a hash, the machine first goes on with the
values and keys behind it.
-/

namespace Scriptlet

open Evaluation
open Machine (TopLevel)

/-- Where the jumps out of a loop lead: the targets, with the operands that are left, and the levels
and blocks of the loop. -/
structure Target where
  exit : Exit
  ops : List Value
  levels : List Level
  blocks : List Block

section

variable (exe : Executable) (table : BuiltinTable) (final : Symbols)

/-- The machine stands at a position of the code, and holds in its slots what the scopes of the
evaluation hold. -/
def Stands (p : Nat) (levels : List Level) (blocks : List Block) (ops : List Value) (world : World)
    (m : Machine) : Prop :=
  ∃ globals, TopLevel exe table p ops globals world.host m
    ∧ Agrees final.table.level world.scopes globals levels blocks

/-- **What the machine does for a signal.** A jump out of a loop is a signal for the evaluation and
a jump for the machine, so it ends at the place that the compiler has put into the jump, with the
operands of the loop. A fault of an unusable key is the outcome that is left out; for every other
one the machine stops with the same fault, and its output so far is that of the evaluation. -/
def Fails (target : Option Target) : Signal → World → Machine → Prop
  | .outOfFuel, _, _ => True
  | .halted halt, world, m => (∃ kind, halt = .fault (.unusableKey kind))
    ∨ m.Halts (.halted halt) fun m' => m'.host = world.host
  | .returned value, world, m => m.Halts .finished fun m' =>
    (∃ p ops, Stands exe table final p [] [] ops world m') ∧ m'.lastPopped = value
  | .breakLoop, world, m => m.Arrives fun m' =>
    ∃ t, target = some t ∧ Stands exe table final t.exit.onBreak t.levels t.blocks t.ops world m'
  | .continueLoop, world, m => m.Arrives fun m' => ∃ t, target = some t
    ∧ Stands exe table final t.exit.onContinue t.levels t.blocks t.ops world m'

/-- **The machine does what an evaluation with the given result does.** `goal` is what holds of the
state to which the machine gets for a value. -/
def Simulates {α : Type} (target : Option Target) (m : Machine)
    (result : EStateM.Result Signal World α) (goal : α → World → Machine → Prop) : Prop :=
  match result with
  | .ok value world => m.Arrives (goal value world)
  | .error signal world => Fails exe table final target signal world m

end

section

variable {exe : Executable} {table : BuiltinTable} {final : Symbols} {target : Option Target}
  {m m' : Machine} {world : World} {α β : Type}

/-- Steps of the machine may come before the failure. -/
theorem Fails.before {signal : Signal} (hruns : m.RunsTo m')
    (h : Fails exe table final target signal world m') :
    Fails exe table final target signal world m := by
  cases signal with
  | outOfFuel => trivial
  | halted halt => exact Or.imp id (fun h => h.imp (·.before hruns) (·.before hruns)) h
  | returned value => exact Or.imp (·.before hruns) (·.before hruns) h
  | breakLoop => exact Machine.Arrives.before hruns h
  | continueLoop => exact Machine.Arrives.before hruns h

/-- Running out of room goes with every failure. -/
theorem Fails.overflow {signal : Signal} (h : m.Overflows) :
    Fails exe table final target signal world m := by
  cases signal with
  | outOfFuel => trivial
  | halted halt => exact .inr (.inl h)
  | returned value => exact .inl h
  | breakLoop => exact .inl h
  | continueLoop => exact .inl h

/-- The evaluation ends early, and so does the machine. -/
theorem Fails.halted {halt : Halt}
    (h : m.Stops (.halted halt) fun m' => m'.host = world.host) :
    Fails exe table final target (.halted halt) world m :=
  .inr (.inr h)

section

variable {result : EStateM.Result Signal World α} {goal goal' : α → World → Machine → Prop}

/-- And with every result: it is the outcome of the machine about which nothing is said. -/
theorem Simulates.overflow (h : m.Overflows) : Simulates exe table final target m result goal := by
  cases result with
  | ok _ _ => exact .inl h
  | error _ _ => exact Fails.overflow h

/-- The machine first goes on by itself. -/
theorem Simulates.before {start : Machine → Prop} (h : m.Arrives start)
    (h' : ∀ m', start m' → Simulates exe table final target m' result goal) :
    Simulates exe table final target m result goal := by
  -- whatever the evaluation does, a machine without room does no more
  rcases h with hover | ⟨m', hruns, hm'⟩
  · exact .overflow hover
  · have hsim := h' m' hm'
    cases result with
    | ok value world => exact Machine.Arrives.before hruns hsim
    | error signal world => exact Fails.before hruns hsim

/-- The machine goes on by itself behind the evaluation. -/
theorem Simulates.after (h : Simulates exe table final target m result goal)
    (h' : ∀ value world m', result = .ok value world → goal value world m' →
      m'.Arrives (goal' value world)) :
    Simulates exe table final target m result goal' := by
  cases result with
  | ok value world => exact Machine.Arrives.bind h fun m' hm' => h' value world m' rfl hm'
  | error signal world => exact h

/-- The goal may be weakened, also by what the result of the evaluation was. -/
theorem Simulates.mono (h : Simulates exe table final target m result goal)
    (h' : ∀ value world m', result = .ok value world → goal value world m' →
      goal' value world m') :
    Simulates exe table final target m result goal' :=
  h.after fun value world m' hresult hm' => .here (h' value world m' hresult hm')

end

/-- **One evaluation after the other.** If the first one ends by a signal, then so does the whole,
and what the machine does for the signal is the same; if it has a value, the machine is in a state
of the first goal, from which the rest is followed. -/
theorem Simulates.bind {x : Eval α} {f : α → Eval β} {goal : α → World → Machine → Prop}
    {goal' : β → World → Machine → Prop}
    (h : Simulates exe table final target m (x world) goal)
    (h' : ∀ value world' m', x world = .ok value world' → goal value world' m' →
      Simulates exe table final target m' (f value world') goal') :
    Simulates exe table final target m ((x >>= f) world) goal' := by
  show Simulates exe table final target m (EStateM.bind x f world) goal'
  unfold EStateM.bind
  cases hx : x world with
  | ok value world' =>
    rw [hx] at h
    exact .before h fun m' hm' => h' value world' m' hx hm'
  | error signal world' =>
    rw [hx] at h
    exact h

/-! ## Effects

Both backends call the same functions for operators and for what reaches the host. So these steps
agree as soon as the operands do, and the scopes and slots are not concerned. -/

variable {p : Nat} {levels : List Level} {blocks : List Block} {ops : List Value}
  {globals : Machine.Memory (Option Value)}

/-- An operator and the machine have the same result. -/
theorem Simulates.results {result : Except Fault Value}
    (hagrees : Agrees final.table.level world.scopes globals levels blocks)
    (h : Machine.Results exe table p ops globals world.host m result) :
    Simulates exe table final target m (Evaluation.ofExcept result world) fun value world' m' =>
      Stands exe table final p levels blocks (value :: ops) world' m' := by
  cases result with
  | ok value => exact Machine.Arrives.mono h fun m' hm' => ⟨globals, hm', hagrees⟩
  | error fault =>
    show Fails exe table final target (.halted (.fault fault)) world m
    exact .halted h

/-- An effect on the surroundings is the same for the machine. -/
theorem Simulates.makes {action : HostM Value}
    (hagrees : Agrees final.table.level world.scopes globals levels blocks)
    (h : Machine.Makes exe table p ops globals m (action world.host)) :
    Simulates exe table final target m (Evaluation.onHost action world) fun value world' m' =>
      Stands exe table final p levels blocks (value :: ops) world' m' := by
  obtain ⟨host, scopes, depth⟩ := world
  simp only [Evaluation.onHost]
  cases haction : action host with
  | ok value host' =>
    have h : Machine.Makes exe table p ops globals m (action host) := h
    rw [haction] at h
    exact Machine.Arrives.mono h fun m' hm' => ⟨globals, hm', hagrees⟩
  | error halt host' =>
    have h : Machine.Makes exe table p ops globals m (action host) := h
    rw [haction] at h
    show Fails exe table final target (.halted halt) ⟨host', scopes, depth⟩ m
    exact .halted h

end

end Scriptlet
