import Scriptlet.Proofs.Layout.Decoding
import Scriptlet.Proofs.Machine.Effects

/-!
# The history of variables

What the variables of functions hold, by the order of the writes to them alone. A variable is a slot
of one activation of a function, from the call on and beyond the return: closures that have captured
it go on reading and writing it. `History` records the activations, the variables that each closure
has captured, and the value that was written to each variable last. It knows nothing of the cells in
which the machine keeps captured variables. `trace` runs it along with the machine.

What an instruction does to variables is its event, and the event is read off the instruction and
the operands on the stack. So a history never looks at a slot of a local or at a cell: what it says
they hold is worked out from what has been written.
-/

namespace Scriptlet.Machine

/-- **A variable: a slot of one activation.** Two calls of a function have different variables, and
so have two functions that are called in turn on the same slots of the stack. -/
structure Var where
  activation : Nat
  slot : Nat
deriving DecidableEq, Repr

/-- A function that has been called: which call it is, and the variables that the called closure has
captured. -/
structure Activation where
  number : Nat
  free : List Var
deriving DecidableEq, Repr

/-- The variable that a new closure captures. -/
def Activation.var? (activation : Activation) : Capture → Option Var
  | .slot index => some ⟨activation.number, index⟩
  | .free index => activation.free[index]?

/-- **What has happened to variables so far.** -/
structure History where
  running : Activation
  /-- The activations that wait for the running one to return, innermost first. -/
  waiting : List Activation
  /-- How many activations there have been. -/
  started : Nat
  /-- The variables that a closure has captured. -/
  captured : Identity → List Var
  /-- The value that was written to a variable last. -/
  last : Var → Option Value

namespace History

/-- The activation of the top level, which has no variables. -/
def start : History :=
  ⟨⟨0, []⟩, [], 1, fun _ => [], fun _ => none⟩

/-- A value is written to a variable. -/
def write (h : History) (var : Var) (value : Value) : History :=
  { h with last := fun other => if other = var then some value else h.last other }

end History

/-- What an instruction does to variables. -/
inductive Event where
  | nothing
  | setsLocal (index : Nat) (value : Value)
  | setsFree (index : Nat) (value : Value)
  /-- A closure is called; the arguments are written to the first slots. -/
  | enters (id : Identity) (args : List Value)
  | leaves
  | makes (id : Identity) (captures : List Capture)

namespace History

/-- The history after an event. -/
def after (h : History) : Event → History
  | .nothing => h
  | .setsLocal index value => h.write ⟨h.running.number, index⟩ value
  | .setsFree index value =>
    match h.running.free[index]? with
    | some var => h.write var value
    | none => h
  | .enters id args =>
    { h with
      running := ⟨h.started, h.captured id⟩
      waiting := h.running :: h.waiting
      started := h.started + 1
      last := fun var => if var.activation = h.started then args[var.slot]? else h.last var }
  | .leaves =>
    match h.waiting with
    | [] => h
    | activation :: rest => { h with running := activation, waiting := rest }
  | .makes id captures =>
    { h with captured := fun other =>
        if other = id then captures.filterMap h.running.var? else h.captured other }

end History

/-- The instruction that a machine is about to execute. -/
def instruction? (m : Machine) : Option (Op × List Nat) := do
  let byte ← m.frame.code.code[m.frame.position]?
  let op ← Op.ofByte? byte
  let operands ← op.operands? (m.frame.code.code.toList.drop (m.frame.position + 1))
  return (op, operands)

/-- The call of a closure enters it. -/
def callEvent (m : Machine) (count : Nat) : Event :=
  match m.stack.read (m.top - (count + 1)) with
  | .closure id _ _ => .enters id (m.slots (m.top - count))
  | _ => .nothing

theorem callEvent_closure {m : Machine} {count : Nat} {id : Identity} {code : FunctionCode}
    {cells : Array CellId} (h : m.stack.read (m.top - (count + 1)) = .closure id code cells) :
    m.callEvent count = .enters id (m.slots (m.top - count)) := by
  simp only [callEvent, h]

theorem callEvent_other {m : Machine} {count : Nat}
    (h : ∀ id code cells, m.stack.read (m.top - (count + 1)) ≠ .closure id code cells) :
    m.callEvent count = .nothing := by
  unfold callEvent
  split
  · rename_i id code cells hcallee
    exact absurd hcallee (h id code cells)
  · rfl

/-- A new closure has the next identity. -/
def closureEvent (m : Machine) (index count : Nat) : Event :=
  match m.constants[index]? with
  | some (.compiled _ code) => .makes m.host.fresh (code.captures.take count)
  | _ => .nothing

/-- What an instruction is about to do to variables, from the values on the stack. -/
def eventOf (m : Machine) : Op → List Nat → Event
  | .setLocal, [index] => .setsLocal index m.stackTop
  | .setFree, [index] => .setsFree index m.stackTop
  | .call, [count] => m.callEvent count
  | .returnValue, _ => .leaves
  | .returnNull, _ => .leaves
  | .closure, [index, count] => m.closureEvent index count
  | _, _ => .nothing

/-- What the next step is about to do to variables. -/
def event (m : Machine) : Event :=
  match m.instruction? with
  | some (op, operands) => m.eventOf op operands
  | none => .nothing

/-- **The state that a run of an executable comes to after a number of steps, with its history**;
there is none once the machine has stopped. -/
def trace (exe : Executable) (table : BuiltinTable) (host : Host) :
    (steps : Nat) → Option (Machine × History)
  | 0 => some (load exe table host, .start)
  | steps + 1 =>
    match trace exe table host steps with
    | none => none
    | some (m, h) =>
      match step m with
      | .ok () m' => some (m', h.after m.event)
      | .error _ _ => none

section

variable {exe : Executable} {table : BuiltinTable} {host : Host} {m : Machine} {h : History}

theorem trace_succ {steps : Nat} (htrace : trace exe table host (steps + 1) = some (m, h)) :
    ∃ m₀ h₀, trace exe table host steps = some (m₀, h₀) ∧ step m₀ = .ok () m
      ∧ h = h₀.after m₀.event := by
  rw [trace] at htrace
  cases hbefore : trace exe table host steps with
  | none =>
    rw [hbefore] at htrace
    cases htrace
  | some state =>
    obtain ⟨m₀, h₀⟩ := state
    rw [hbefore] at htrace
    cases hstep : step m₀ with
    | error stop m₁ =>
      simp only [hstep] at htrace
      cases htrace
    | ok _ m₁ =>
      simp only [hstep] at htrace
      cases htrace
      exact ⟨m₀, h₀, rfl, hstep, rfl⟩

/-- **Every state that a run comes to has a history.** A run and a trace take the same steps. -/
theorem exists_trace (fuel : Nat) (hrun : run fuel (load exe table host) = (.running, m)) :
    ∃ h, trace exe table host fuel = some (m, h) := by
  -- a run goes on from any state, a trace only from the start, so the steps before are kept apart
  suffices hfrom : ∀ steps {m₀ h₀}, trace exe table host steps = some (m₀, h₀) →
      run fuel m₀ = (.running, m) → ∃ h, trace exe table host (steps + fuel) = some (m, h) by
    obtain ⟨h, hh⟩ := hfrom 0 rfl hrun
    exact ⟨h, by rwa [Nat.zero_add] at hh⟩
  clear hrun
  intro steps m₀ h₀ htrace hrun
  induction fuel generalizing steps m₀ h₀ with
  | zero =>
    cases hrun
    exact ⟨h₀, htrace⟩
  | succ fuel ih =>
    unfold run at hrun
    cases hstep : step m₀ with
    | ok _ m₁ =>
      rw [hstep] at hrun
      have hnext : trace exe table host (steps + 1) = some (m₁, h₀.after m₀.event) := by
        rw [trace, htrace]
        simp only [hstep]
      obtain ⟨h, hh⟩ := ih (steps + 1) hnext hrun
      exact ⟨h, by rwa [Nat.add_right_comm, Nat.add_assoc] at hh⟩
    | error stop m₁ =>
      rw [hstep] at hrun
      cases hrun

end

/-- The next instruction stands inside of the code. -/
theorem position_lt_of_instruction? {m : Machine} {i : Op × List Nat}
    (h : m.instruction? = some i) : m.frame.position < m.frame.code.code.size := by
  refine Nat.lt_of_not_le fun hend => ?_
  rw [instruction?, Array.getElem?_eq_none hend] at h
  cases h

/-- What stands in the code is the next instruction, with its operands as they are read. -/
theorem instruction?_eq {m : Machine} {op : Op} {operands : List Nat}
    (hinstr : InstrAt m.frame.code.code m.frame.position op operands) :
    m.instruction? = some (op, readBack op.widths operands) := by
  have hdrop := hinstr.drop_eq
  rw [Op.encode, List.cons_append] at hdrop
  have hbehind : m.frame.code.code.toList.drop (m.frame.position + 1)
      = Op.encodeOperands op.widths operands
        ++ m.frame.code.code.toList.drop (m.frame.position + op.size) := by
    rw [← List.tail_drop, hdrop]
    rfl
  have hoperands : op.operands? (m.frame.code.code.toList.drop (m.frame.position + 1))
      = some (readBack op.widths operands) := by
    rw [hbehind]
    exact decodeOperands?_encodeOperands ..
  unfold instruction?
  rw [hinstr.head, Option.bind_eq_bind, Option.bind_some, Op.ofByte?_byte, Option.bind_eq_bind,
    Option.bind_some, hoperands]
  rfl

end Scriptlet.Machine
