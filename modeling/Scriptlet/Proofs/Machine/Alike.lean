import Scriptlet.Proofs.Machine.Preservation
import Scriptlet.Proofs.Variables.History

/-!
# Machines that differ in unused slots

Two runs of one program, on stacks that hold different things from before, go through machines that
are the same but for their stacks and cells. What they are bound to have in common are the operands,
in the running frame and in those that wait, since every one of them has been pushed by the program
itself. A local has a slot from the call on but a value only once the program stores one there: so
what the slots of locals hold is left open, and with it the cells that such slots move into.

`Alike shared` is this relation, for a set of further places, slots or cells, that hold the same in
both machines. Nothing is asked of that set. An instruction that reads no variable writes the same
values to the same places, so it leads from alike machines to alike machines with the same set, or
stops both for the same reason (`Parallel`): machines never part where they have once agreed. How
the instruction goes on in the code and what it does to the frames is recorded with it (`Flow`).

The first machine meets the invariant; of the second one nothing is known but that it is alike. So
each lemma takes what it needs from the first, the bounds in particular, and the second gets it
through the relation.
-/

namespace Scriptlet.Machine

/-! ## Operands

All that lies between the locals of a frame and the start of the next. Frames are taken from the
innermost one outwards, as the machine keeps them. -/

/-- Two stacks have the same operands: those of the innermost frame, which end below `top`, and
those of the frames behind it, which end where the next frame begins. -/
def SameOperands (stack stack' : Memory Value) : (top : Nat) → List Frame → Prop
  | _, [] => True
  | top, frame :: callers =>
    (∀ i, frame.base + frame.code.locals ≤ i → i < top → stack'.read i = stack.read i)
      ∧ SameOperands stack stack' frame.base callers

section SameOperands

variable {stack stack' : Memory Value} {top top' : Nat} {frames : List Frame}

/-- The same value is written to the same slot. -/
theorem SameOperands.write (h : SameOperands stack stack' top frames) (index : Nat)
    (value : Value) :
    SameOperands (stack.write index value) (stack'.write index value) top frames := by
  induction frames generalizing top with
  | nil => trivial
  | cons frame callers ih =>
    refine ⟨fun i hlo hhi => ?_, ih h.2⟩
    rw [Memory.read_write, Memory.read_write]
    split
    · rfl
    · exact h.1 i hlo hhi

/-- Operands are dropped. -/
theorem SameOperands.drop (h : SameOperands stack stack' top frames) (hle : top' ≤ top) :
    SameOperands stack stack' top' frames := by
  cases frames with
  | nil => trivial
  | cons frame callers => exact ⟨fun i hlo hhi => h.1 i hlo (Nat.lt_of_lt_of_le hhi hle), h.2⟩

/-- An operand is added. -/
theorem SameOperands.push (h : SameOperands stack stack' top frames) (value : Value) :
    SameOperands (stack.write top value) (stack'.write top value) (top + 1) frames := by
  have hwritten := h.write top value
  cases frames with
  | nil => trivial
  | cons frame callers =>
    refine ⟨fun i hlo hhi => ?_, hwritten.2⟩
    rcases Nat.lt_succ_iff_lt_or_eq.mp hhi with hlt | rfl
    · exact hwritten.1 i hlo hlt
    · rw [Memory.read_write, Memory.read_write, if_pos rfl, if_pos rfl]

end SameOperands

/-! ## Places

A set of places rather than two of them, so that a slot and the cell that it moves into are treated
alike. -/

/-- A place where a machine keeps a value: a slot of the stack or a cell. -/
inductive Place where
  | slot (index : Nat)
  | cell (id : CellId)

/-- The value in a place. A slot always has one, since the stack is `null` where it ends. -/
def kept? (m : Machine) : Place → Option Value
  | .slot index => some (m.stack.read index)
  | .cell id => m.cells[id]?

/-- **A place of two machines that has the same value in both.** A cell that does not exist in one
of them is not such a place. -/
def Common (m m' : Machine) (place : Place) : Prop :=
  ∃ value, m.kept? place = some value ∧ m'.kept? place = some value

namespace Common

variable {m m' : Machine} {place : Place}

theorem slot {index : Nat} (h : m'.stack.read index = m.stack.read index) :
    Common m m' (.slot index) :=
  ⟨m.stack.read index, rfl, congrArg some h⟩

theorem eq (h : Common m m' place) : m'.kept? place = m.kept? place := by
  obtain ⟨value, hm, hm'⟩ := h
  exact hm'.trans hm.symm

theorem slot_eq {index : Nat} (h : Common m m' (.slot index)) :
    m'.stack.read index = m.stack.read index :=
  Option.some.inj h.eq

/-- The same value is written to the same slot. -/
theorem setSlot (h : Common m m' place) (index : Nat) (value : Value) :
    Common { m with stack := m.stack.write index value }
      { m' with stack := m'.stack.write index value } place := by
  cases place with
  | cell id => exact h
  | slot i =>
    refine .slot ?_
    show (m'.stack.write index value).read i = (m.stack.write index value).read i
    rw [Memory.read_write, Memory.read_write, h.slot_eq]

/-- The same value is written to the same cell. -/
theorem setCell (h : Common m m' place) (id : CellId) (value : Value) :
    Common { m with cells := m.cells.setIfInBounds id value }
      { m' with cells := m'.cells.setIfInBounds id value } place := by
  cases place with
  | slot i => exact h
  | cell c =>
    obtain ⟨v, hm, hm'⟩ := h
    show ∃ v, (m.cells.setIfInBounds id value)[c]? = some v
      ∧ (m'.cells.setIfInBounds id value)[c]? = some v
    by_cases heq : id = c
    · subst heq
      have hlt := (Array.getElem?_eq_some_iff.mp hm).1
      have hlt' := (Array.getElem?_eq_some_iff.mp hm').1
      exact ⟨value, Array.getElem?_setIfInBounds_self_of_lt hlt,
        Array.getElem?_setIfInBounds_self_of_lt hlt'⟩
    · rw [Array.getElem?_setIfInBounds_ne heq, Array.getElem?_setIfInBounds_ne heq]
      exact ⟨v, hm, hm'⟩

/-- New cells change nothing in those that there are. -/
theorem moved (h : Common m m' place) (index : Nat) :
    Common (m.moved index) (m'.moved index) place := by
  cases place with
  | slot i => exact h
  | cell c =>
    obtain ⟨v, hm, hm'⟩ := h
    have hlt := (Array.getElem?_eq_some_iff.mp hm).1
    have hlt' := (Array.getElem?_eq_some_iff.mp hm').1
    refine ⟨v, ?_, ?_⟩
    · show (m.cells.push _)[c]? = some v
      rwa [Array.getElem?_push, if_neg (Nat.ne_of_lt hlt)]
    · show (m'.cells.push _)[c]? = some v
      rwa [Array.getElem?_push, if_neg (Nat.ne_of_lt hlt')]

end Common

/-! ## Alike machines

The relation, and that every effect on machines from `Proofs/Machine/Effects.lean` keeps it. -/

/-- **Alike machines.** They are the same but for their stacks and cells, and have all operands and
the values in the places `shared` in common. -/
structure Alike (shared : Place → Prop) (m m' : Machine) : Prop where
  same : m' = { m with stack := m'.stack, cells := m'.cells }
  cells : m'.cells.size = m.cells.size
  operands : SameOperands m.stack m'.stack m.top (m.frame :: m.callers)
  common : ∀ place, shared place → Common m m' place

namespace Alike

variable {shared : Place → Prop} {m m' : Machine}

theorem constants (h : Alike shared m m') : m'.constants = m.constants := by rw [h.same]

theorem names (h : Alike shared m m') : m'.names = m.names := by rw [h.same]

theorem builtins (h : Alike shared m m') : m'.builtins = m.builtins := by rw [h.same]

theorem top (h : Alike shared m m') : m'.top = m.top := by rw [h.same]

theorem globals (h : Alike shared m m') : m'.globals = m.globals := by rw [h.same]

theorem frame (h : Alike shared m m') : m'.frame = m.frame := by rw [h.same]

theorem callers (h : Alike shared m m') : m'.callers = m.callers := by rw [h.same]

theorem host (h : Alike shared m m') : m'.host = m.host := by rw [h.same]

/-- Whatever set of places is asked for, the machines are alike with all that they share. A caller
may so begin with all the machines have in common, and see what has been added to it afterwards. -/
theorem all (h : Alike shared m m') : Alike (Common m m') m m' :=
  ⟨h.same, h.cells, h.operands, fun _ hplace => hplace⟩

/-- An operand of the running frame. -/
theorem operand (h : Alike shared m m') {i : Nat} (hlo : m.frame.base + m.frame.code.locals ≤ i)
    (hhi : i < m.top) : m'.stack.read i = m.stack.read i :=
  h.operands.1 i hlo hhi

theorem stackTop (h : Alike shared m m') (hroom : m.frame.base + m.frame.code.locals < m.top) :
    m'.stackTop = m.stackTop := by
  unfold Machine.stackTop
  rw [h.top]
  split
  · rfl
  · rename_i top htop
    exact h.operand (by omega) (by omega)

theorem slots (h : Alike shared m m') {start : Nat}
    (hstart : m.frame.base + m.frame.code.locals ≤ start) : m'.slots start = m.slots start := by
  unfold Machine.slots
  rw [h.top]
  refine List.map_congr_left fun i hi => ?_
  have hlt := List.mem_range.mp hi
  exact h.operand (by omega) (by omega)

theorem pop_eq (h : Alike shared m m') (hroom : 0 < m.top) :
    Machine.pop m' = .ok m'.stackTop m'.popped :=
  Machine.pop_eq (by rwa [h.top])

/-! ### Effects on alike machines -/

theorem advance (h : Alike shared m m') (bytes : Nat) :
    Alike shared (m.advance bytes) (m'.advance bytes) :=
  ⟨by rw [h.same]; rfl, h.cells, by rw [h.same]; exact h.operands, h.common⟩

theorem goTo (h : Alike shared m m') (position : Nat) :
    Alike shared (m.goTo position) (m'.goTo position) :=
  ⟨by rw [h.same]; rfl, h.cells, by rw [h.same]; exact h.operands, h.common⟩

theorem withHost (h : Alike shared m m') (host : Host) :
    Alike shared (m.withHost host) (m'.withHost host) :=
  ⟨by rw [h.same]; rfl, h.cells, h.operands, h.common⟩

theorem withTop (h : Alike shared m m') {top : Nat} (hle : top ≤ m.top) :
    Alike shared (m.withTop top) (m'.withTop top) :=
  ⟨by rw [h.same]; rfl, h.cells, h.operands.drop hle, h.common⟩

theorem popped (h : Alike shared m m') : Alike shared m.popped m'.popped := by
  unfold Machine.popped
  rw [h.top]
  exact h.withTop (Nat.sub_le m.top 1)

theorem pushed (h : Alike shared m m') (value : Value) :
    Alike shared (m.pushed value) (m'.pushed value) := by
  refine ⟨by rw [h.same]; rfl, h.cells, ?_, fun place hplace => ?_⟩
  · show SameOperands (m.stack.write m.top value) (m'.stack.write m'.top value) (m.top + 1) _
    rw [h.top]
    exact h.operands.push value
  · have hwritten := (h.common place hplace).setSlot m.top value
    obtain ⟨v, hm, hm'⟩ := hwritten
    refine ⟨v, ?_, ?_⟩
    · cases place <;> exact hm
    · unfold Machine.pushed
      rw [h.top]
      cases place <;> exact hm'

theorem setGlobal (h : Alike shared m m') (index : Nat) (value : Value) :
    Alike shared { m with globals := m.globals.write index (some value) }
      { m' with globals := m'.globals.write index (some value) } :=
  ⟨by rw [h.same], h.cells, h.operands, h.common⟩

theorem setSlot (h : Alike shared m m') (index : Nat) (value : Value) :
    Alike shared { m with stack := m.stack.write index value }
      { m' with stack := m'.stack.write index value } :=
  ⟨by rw [h.same], h.cells, h.operands.write index value, fun place hplace =>
    (h.common place hplace).setSlot index value⟩

theorem setCell (h : Alike shared m m') (id : CellId) (value : Value) :
    Alike shared { m with cells := m.cells.setIfInBounds id value }
      { m' with cells := m'.cells.setIfInBounds id value } := by
  refine ⟨by rw [h.same], ?_, h.operands, fun place hplace =>
    (h.common place hplace).setCell id value⟩
  show (m'.cells.setIfInBounds id value).size = (m.cells.setIfInBounds id value).size
  rw [Array.size_setIfInBounds, Array.size_setIfInBounds, h.cells]

theorem withLocal (h : Alike shared m m') (index : Nat) (value : Value) :
    Alike shared (m.withLocal index value) (m'.withLocal index value) := by
  unfold Machine.withLocal
  rw [h.frame]
  cases m.frame.cell? index with
  | some id =>
    have hcell := h.setCell id value
    rwa [h.frame] at hcell
  | none =>
    have hslot := h.setSlot (m.frame.base + index) value
    rwa [h.frame] at hslot

/-- **A local moves into a new cell, with whatever it holds.** The value may differ in the two
machines, as it did in the slot; the number of the cell does not. -/
theorem moved (h : Alike shared m m') (index : Nat) :
    Alike shared (m.moved index) (m'.moved index) := by
  refine ⟨?_, ?_, by rw [h.same]; exact h.operands, fun place hplace =>
    (h.common place hplace).moved index⟩
  · unfold Machine.moved
    rw [h.cells]
    rw [h.same]
  · show (m'.cells.push _).size = (m.cells.push _).size
    rw [Array.size_push, Array.size_push, h.cells]

theorem entered (h : Alike shared m m') (code : FunctionCode) (cells : Array CellId) {base : Nat}
    (hbase : base ≤ m.top) :
    Alike shared (m.entered code cells base) (m'.entered code cells base) := by
  refine ⟨by rw [h.same]; rfl, h.cells, ⟨fun i hlo hhi => ?_, h.operands.drop hbase⟩, h.common⟩
  exact absurd hhi (Nat.not_lt.mpr hlo)

theorem left (h : Alike shared m m') {caller : Frame} {callers : List Frame}
    (hcallers : m.callers = caller :: callers) (result : Value) :
    Alike shared (m.left caller callers result) (m'.left caller callers result) := by
  have hoperands := h.operands.2
  rw [hcallers] at hoperands
  have hleft : Alike shared { m with frame := caller, callers, top := m.frame.base - 1 }
      { m' with frame := caller, callers, top := m'.frame.base - 1 } :=
    ⟨by rw [h.same], h.cells, hoperands.drop (Nat.sub_le _ _), h.common⟩
  exact hleft.pushed result

end Alike

/-! ## Parallel steps

What is to be shown of each instruction, and the few ways in which instructions end. -/

/-- Two machines get to alike machines, the first of which meets `post`, or stop for the same
reason. Where the program has come to its end, its result is the same. -/
def Parallel (shared : Place → Prop) (post : Machine → Prop) :
    EStateM.Result Stop Machine Unit → EStateM.Result Stop Machine Unit → Prop
  | .ok _ m, .ok _ m' => Alike shared m m' ∧ post m
  | .error stop m, .error stop' m' =>
    stop' = stop ∧ m'.host = m.host ∧ (stop = .finished → m'.lastPopped = m.lastPopped)
  | _, _ => False

/-- The running frame goes on where it stands. -/
def Remains (m m₁ : Machine) : Prop :=
  m₁.callers = m.callers ∧ m₁.frame.position = m.frame.position

/-- **Where performing an instruction leads**, once it has been read: on behind it, to the target of
a jump, into a function, or back to the frame that waits. -/
inductive Flow (op : Op) (operands : List Nat) (m m₁ : Machine) : Prop where
  | next (h : Remains m m₁)
  | jumps (target : Nat) (hop : op = .jump ∨ op = .jumpNotTruthy) (hoperands : operands = [target])
    (hcallers : m₁.callers = m.callers) (hposition : m₁.frame.position = target)
  | enters (hop : op = .call) (hcallers : m₁.callers = m.frame :: m.callers)
  | leaves (hcallers : m.callers = m₁.frame :: m₁.callers)

section Parallel

variable {shared : Place → Prop} {post post' : Machine → Prop}

theorem Parallel.mono {result result' : EStateM.Result Stop Machine Unit}
    (h : Parallel shared post result result') (hpost : ∀ m, post m → post' m) :
    Parallel shared post' result result' := by
  cases result <;> cases result'
  · exact ⟨h.1, hpost _ h.2⟩
  all_goals exact h

namespace Alike

variable {m m' : Machine}

theorem stops (h : Alike shared m m') {stop : Stop} (hstop : stop ≠ .finished) :
    Parallel shared post (.error stop m) (.error stop m') :=
  ⟨rfl, h.host, fun heq => absurd heq hstop⟩

theorem push (h : Alike shared m m') (value : Value) (hpost : post (m.pushed value)) :
    Parallel shared post (Machine.push value m) (Machine.push value m') := by
  by_cases hroom : m.top < stackSize
  · rw [push_eq hroom, push_eq (by rwa [h.top])]
    exact ⟨h.pushed value, hpost⟩
  · rw [push_overflow (Nat.le_of_not_lt hroom),
      push_overflow (by rw [h.top]; exact Nat.le_of_not_lt hroom)]
    exact h.stops (by simp)

/-- The result of an operator is put on the stack. -/
theorem pushResult (h : Alike shared m m') (result : Except Fault Value)
    (hpost : ∀ value, post (m.pushed value)) :
    Parallel shared post ((ofExcept result >>= Machine.push) m)
      ((ofExcept result >>= Machine.push) m') := by
  cases result with
  | ok value =>
    rw [bind_ok (ofExcept_ok rfl), bind_ok (ofExcept_ok rfl)]
    exact h.push value (hpost value)
  | error fault =>
    rw [bind_error (ofExcept_error rfl), bind_error (ofExcept_error rfl)]
    exact h.stops (by simp)

/-- Operands become the result of an effect on the surroundings. -/
theorem make (h : Alike shared m m') (action : HostM Value) {start : Nat} (hstart : start ≤ m.top)
    (hpost : ∀ host value, post (((m.withHost host).withTop start).pushed value)) :
    Parallel shared post
      ((onHost action >>= fun value => setTop start >>= fun _ => Machine.push value) m)
      ((onHost action >>= fun value => setTop start >>= fun _ => Machine.push value) m') := by
  cases haction : action m.host with
  | ok value host =>
    have hset : ∀ n : Machine, setTop start n = .ok () (n.withTop start) := fun _ => rfl
    rw [bind_ok (onHost_ok haction), bind_ok (hset _), bind_ok (onHost_ok (by rwa [h.host])),
      bind_ok (hset _)]
    exact ((h.withHost host).withTop hstart).push value (hpost host value)
  | error halt host =>
    rw [bind_error (onHost_error haction), bind_error (onHost_error (by rwa [h.host]))]
    exact (h.withHost host).stops (by simp)

end Alike

end Parallel

/-! ## Instructions

One lemma for each instruction that reads no variable. Its operands are the same in both machines,
so it computes the same in both. -/

section Instructions

variable {exact : Prop} {table : BuiltinTable} {exe : Executable}
  {maps : DepthMaps exact table.length exe} {shared : Place → Prop} {m m' : Machine} {d : Nat}

namespace Alike

theorem binary (h : Alike shared m m') (hd : Holds maps d m) (h2 : 2 ≤ d)
    (op : Op) : Parallel shared (Remains m) (Machine.binary op m) (Machine.binary op m') := by
  have h₁ := hd.popped (by omega)
  have htop := hd.top
  have htop₁ := h₁.top
  unfold Machine.binary
  rw [bind_ok (hd.pop_eq (by omega)), bind_ok (h.pop_eq (by omega)),
    bind_ok (h₁.pop_eq (by omega)), bind_ok (h.popped.pop_eq (by omega)), h.stackTop (by omega),
    h.popped.stackTop (by omega)]
  exact h.popped.popped.pushResult _ fun _ => ⟨rfl, rfl⟩

theorem unary (h : Alike shared m m') (hd : Holds maps d m) (h1 : 1 ≤ d)
    (op : Token) : Parallel shared (Remains m) (Machine.unary op m) (Machine.unary op m') := by
  have htop := hd.top
  unfold Machine.unary
  rw [bind_ok (hd.pop_eq h1), bind_ok (h.pop_eq (by omega)), h.stackTop (by omega)]
  exact h.popped.pushResult _ fun _ => ⟨rfl, rfl⟩

theorem index (h : Alike shared m m') (hd : Holds maps d m) (h2 : 2 ≤ d) :
    Parallel shared (Remains m) (perform .index [] m) (perform .index [] m') := by
  have h₁ := hd.popped (by omega)
  have htop := hd.top
  have htop₁ := h₁.top
  show Parallel _ _ ((Machine.pop >>= fun subscript => Machine.pop >>= fun container =>
    ofExcept (container.subscript subscript) >>= Machine.push) m)
    ((Machine.pop >>= fun subscript => Machine.pop >>= fun container =>
    ofExcept (container.subscript subscript) >>= Machine.push) m')
  rw [bind_ok (hd.pop_eq (by omega)), bind_ok (h.pop_eq (by omega)),
    bind_ok (h₁.pop_eq (by omega)), bind_ok (h.popped.pop_eq (by omega)), h.stackTop (by omega),
    h.popped.stackTop (by omega)]
  exact h.popped.popped.pushResult _ fun _ => ⟨rfl, rfl⟩

/-! ### Variables

A global is the same in both, so reading one gives the same. The instructions that store are given
with what they do to the second machine as well (`setLocal_eq`, `setFree_eq`), since what is stored
is what becomes common. -/

theorem getGlobal (h : Alike shared m m') (index : Nat) :
    Parallel shared (Remains m) (perform .getGlobal [index] m) (perform .getGlobal [index] m') := by
  show Parallel _ _ ((Machine.getGlobal index >>= Machine.push) m)
    ((Machine.getGlobal index >>= Machine.push) m')
  cases hread : m.globals.read index with
  | some value =>
    rw [bind_ok (getGlobal_eq hread), bind_ok (getGlobal_eq (by rwa [h.globals]))]
    exact h.push value ⟨rfl, rfl⟩
  | none =>
    rw [bind_error (getGlobal_unbound hread),
      bind_error (getGlobal_unbound (by rwa [h.globals])), h.names]
    exact h.stops (by simp)

theorem storeGlobal (h : Alike shared m m') (hd : Holds maps d m) (h1 : 1 ≤ d)
    (index : Nat) :
    Parallel shared (Remains m) (perform .setGlobal [index] m) (perform .setGlobal [index] m') := by
  have htop := hd.top
  show Parallel _ _ ((Machine.pop >>= fun value => Machine.setGlobal index value) m)
    ((Machine.pop >>= fun value => Machine.setGlobal index value) m')
  rw [bind_ok (hd.pop_eq h1), bind_ok (h.pop_eq (by omega)), h.stackTop (by omega)]
  exact ⟨h.popped.setGlobal index m.stackTop, rfl, rfl⟩

theorem setLocal_eq (h : Alike shared m m') (hd : Holds maps d m) (h1 : 1 ≤ d) {index : Nat}
    (hindex : index < m.frame.code.locals) :
    Machine.perform .setLocal [index] m' = .ok () (m'.popped.withLocal index m'.stackTop) := by
  refine perform_setLocal ?_ ?_
  · rw [h.top]
    exact hd.top_pos h1
  · rw [h.frame]
    exact hd.slot_lt hindex

theorem setLocal (h : Alike shared m m') (hd : Holds maps d m) (h1 : 1 ≤ d)
    {index : Nat} (hindex : index < m.frame.code.locals) :
    Parallel shared (Remains m) (perform .setLocal [index] m) (perform .setLocal [index] m') := by
  have htop := hd.top
  rw [hd.setLocal_eq h1 hindex, h.setLocal_eq hd h1 hindex, h.stackTop (by omega)]
  refine ⟨h.popped.withLocal index m.stackTop, ?_⟩
  unfold Machine.withLocal
  split <;> exact ⟨rfl, rfl⟩

theorem setFree_eq (h : Alike shared m m') (hd : Holds maps d m) (h1 : 1 ≤ d) {index : Nat}
    {id : CellId} (hget : m.frame.free[index]? = some id) :
    Machine.perform .setFree [index] m'
      = .ok () { m'.popped with cells := m'.cells.setIfInBounds id m'.stackTop } := by
  refine perform_setFree ?_ ?_
  · rw [h.top]
    exact hd.top_pos h1
  · rwa [h.frame]

theorem setFree (h : Alike shared m m') (hd : Holds maps d m) (h1 : 1 ≤ d)
    {index : Nat} (hindex : index < m.frame.code.captures.length) :
    Parallel shared (Remains m) (perform .setFree [index] m) (perform .setFree [index] m') := by
  have htop := hd.top
  obtain ⟨id, hget, heq⟩ := hd.setFree_eq h1 hindex
  rw [heq, h.setFree_eq hd h1 hget, h.stackTop (by omega)]
  exact ⟨h.popped.setCell id m.stackTop, rfl, rfl⟩

/-! ### Containers

The parts of a container are operands, and identities are drawn from surroundings that are the
same. -/

theorem array (h : Alike shared m m') (hd : Holds maps d m) {count : Nat} (hcount : count ≤ d) :
    Parallel shared (Remains m) (perform .array [count] m) (perform .array [count] m') := by
  have htop := hd.top
  show Parallel _ _ ((below count >>= fun start => valuesFrom start >>= fun elements =>
      onHost (HostM.array elements) >>= fun value => setTop start >>= fun _ =>
        Machine.push value) m)
    ((below count >>= fun start => valuesFrom start >>= fun elements =>
      onHost (HostM.array elements) >>= fun value => setTop start >>= fun _ =>
        Machine.push value) m')
  rw [bind_ok (below_eq (by omega)), bind_ok (below_eq (by rw [h.top]; omega)),
    bind_ok valuesFrom_eq, bind_ok valuesFrom_eq, h.top, h.slots (by omega)]
  exact h.make _ (Nat.sub_le _ _) fun _ _ => ⟨rfl, rfl⟩

/-- Putting keys and values into a hash does not look at the machine. -/
theorem insertPairs (h : Alike shared m m') :
    (values : List Value) → ∀ entries : List (Entry Value),
    (∃ entries', Machine.insertPairs entries values m = .ok entries' m
        ∧ Machine.insertPairs entries values m' = .ok entries' m')
      ∨ ∃ stop, stop ≠ .finished ∧ Machine.insertPairs entries values m = .error stop m
        ∧ Machine.insertPairs entries values m' = .error stop m'
  | [], entries => .inl ⟨entries, rfl, rfl⟩
  | [_], _ => .inr ⟨.stuck, by simp, rfl, rfl⟩
  | shown :: value :: rest, entries => by
    rw [Machine.insertPairs]
    cases hinsert : Value.insertPair entries shown value with
    | ok entries' =>
      rw [bind_ok (ofExcept_ok rfl), bind_ok (ofExcept_ok rfl)]
      exact insertPairs h rest entries'
    | error fault =>
      rw [bind_error (ofExcept_error rfl), bind_error (ofExcept_error rfl)]
      exact .inr ⟨_, by simp, rfl, rfl⟩

theorem hash (h : Alike shared m m') (hd : Holds maps d m) {count : Nat} (hcount : count ≤ d)
    (heven : count % 2 = 0) :
    Parallel shared (Remains m) (perform .hash [count] m) (perform .hash [count] m') := by
  have htop := hd.top
  have hslots : pairValues (m.top - count) m = .ok (m.slots (m.top - count)) m :=
    pairValues_eq (by rwa [Nat.sub_sub_self (by omega)])
  have hslots' : pairValues (m.top - count) m' = .ok (m.slots (m.top - count)) m' := by
    rw [← h.slots (by omega)]
    exact pairValues_eq (by rwa [h.top, Nat.sub_sub_self (by omega)])
  show Parallel _ _ ((below count >>= fun start => pairValues start >>= fun values =>
      Machine.insertPairs [] values >>= fun entries => onHost (HostM.hash entries) >>= fun value =>
        setTop start >>= fun _ => Machine.push value) m)
    ((below count >>= fun start => pairValues start >>= fun values =>
      Machine.insertPairs [] values >>= fun entries => onHost (HostM.hash entries) >>= fun value =>
        setTop start >>= fun _ => Machine.push value) m')
  rw [bind_ok (below_eq (by omega)), bind_ok (below_eq (by rw [h.top]; omega)), h.top,
    bind_ok hslots, bind_ok hslots']
  rcases h.insertPairs (m.slots (m.top - count)) []
    with ⟨entries, hentries, hentries'⟩ | ⟨stop, hstop, hentries, hentries'⟩
  · rw [bind_ok hentries, bind_ok hentries']
    exact h.make _ (Nat.sub_le _ _) fun _ _ => ⟨rfl, rfl⟩
  · rw [bind_error hentries, bind_error hentries']
    exact h.stops hstop

/-! ### Calls

The callee and its arguments are operands too. So both machines enter the same function at the same
base, and what has been the arguments becomes the first locals. -/

theorem call (h : Alike shared m m') (hd : Holds maps d m) {count : Nat} (hcount : count + 1 ≤ d) :
    Parallel shared (Flow .call [count] m)
      (perform .call [count] m) (perform .call [count] m') := by
  have htop := hd.top
  have hle := hd.top_le
  show Parallel _ _ (Machine.call count m) (Machine.call count m')
  unfold Machine.call
  rw [bind_ok (below_eq (by omega)), bind_ok (below_eq (by rw [h.top]; omega)), h.top,
    bind_ok (slot_eq (by omega)), bind_ok (slot_eq (by omega)), h.operand (by omega) (by omega)]
  cases m.stack.read (m.top - (count + 1)) with
  | closure id code cells =>
    show Parallel _ _ (enterClosure code cells count m) (enterClosure code cells count m')
    rw [enterClosure_eq (by omega), enterClosure_eq (by rw [h.top]; omega), h.top, h.callers]
    split
    · exact h.stops (by simp)
    · split
      · exact h.stops (by simp)
      · exact ⟨h.entered code cells (Nat.sub_le _ _), .enters rfl rfl⟩
  | builtin builtin =>
    show Parallel _ _ ((onHost (builtin.call (m.slots (m.top - (count + 1) + 1)))
        >>= fun result => setTop (m.top - (count + 1)) >>= fun _ => Machine.push result) m)
      ((onHost (builtin.call (m'.slots (m.top - (count + 1) + 1)))
        >>= fun result => setTop (m.top - (count + 1)) >>= fun _ => Machine.push result) m')
    rw [h.slots (by omega)]
    exact h.make _ (Nat.sub_le _ _) fun _ _ => .next ⟨rfl, rfl⟩
  | _ => exact h.stops (by simp)

/-- **A function hands back the same result in both.** Where no frame waits the program has its
result, which has to be in the slot that was used last. -/
theorem leave (h : Alike shared m m') (hd : Holds maps d m) (result : Value) (op : Op)
    (operands : List Nat)
    (hresult : m.callers = [] → m'.stack.read m.top = m.stack.read m.top) :
    Parallel shared (Flow op operands m) (Machine.leave result m) (Machine.leave result m') := by
  have htop := hd.top
  have hle := hd.top_le
  have hwaits := hd.waits
  cases hcallers : m.callers with
  | nil =>
    unfold Machine.leave
    rw [bind_ok get_eq, bind_ok get_eq, h.callers, hcallers]
    refine ⟨rfl, h.host, fun _ => ?_⟩
    unfold lastPopped
    rw [h.top, hresult hcallers]
  | cons caller callers =>
    rw [hcallers] at hwaits
    obtain ⟨-, hlt, -⟩ := hwaits
    rw [leave_eq hcallers (by omega) (by omega),
      leave_eq (h.callers.trans hcallers) (by rw [h.frame]; omega) (by rw [h.frame]; omega)]
    exact ⟨h.left hcallers result, .leaves hcallers⟩

/-! ### Closures

Which variables of the running function have a cell is part of its frame, and the number of the next
one is that of the cells there are. So a closure captures the same cells in both, though not the
same values. -/

/-- A variable that is captured has a cell already, which is the same in both machines, or moves
into a new one that is. -/
theorem captureCell (h : Alike shared m m') (hd : Holds maps d m) {capture : Capture}
    (hwithin : capture.Within
      ⟨table.length, m.frame.code.locals, m.frame.code.captures.length⟩) :
    (∃ c, m.frame.cellOf? capture = some c ∧ Machine.captureCell capture m = .ok c m
        ∧ Machine.captureCell capture m' = .ok c m')
      ∨ ∃ index, capture = .slot index ∧ m.frame.cell? index = none
        ∧ Machine.captureCell capture m = .ok m.cells.size (m.moved index)
        ∧ Machine.captureCell capture m' = .ok m.cells.size (m'.moved index) := by
  cases capture with
  | free index =>
    obtain ⟨c, hget, hfree, -⟩ := hd.freeCell_eq hwithin
    exact .inl ⟨c, hget, hfree, freeCell_eq (by rwa [h.frame])⟩
  | slot index =>
    have hslot := hd.slot_lt hwithin
    have hslot' : m'.frame.base + index < stackSize := by rwa [h.frame]
    cases hcell : m.frame.cell? index with
    | some c =>
      exact .inl ⟨c, hcell, captureCell_old hcell hslot,
        captureCell_old (by rwa [h.frame]) hslot'⟩
    | none =>
      refine .inr ⟨index, rfl, hcell, captureCell_new hcell hslot, ?_⟩
      rw [captureCell_new (by rwa [h.frame]) hslot', h.cells]

/-- The same variables move into the same cells. -/
theorem captureCells (h : Alike shared m m') (hd : Holds maps d m) {captures : List Capture}
    (hwithin : ∀ capture ∈ captures,
      capture.Within ⟨table.length, m.frame.code.locals, m.frame.code.captures.length⟩) :
    ∃ cells m₁ m₁', Machine.captureCells captures m = .ok cells m₁
      ∧ Machine.captureCells captures m' = .ok cells m₁' ∧ Alike shared m₁ m₁'
      ∧ Captures m m₁ := by
  induction captures generalizing m m' with
  | nil => exact ⟨[], m, m', rfl, rfl, h, .refl m⟩
  | cons capture captures ih =>
    have hfirst := hwithin capture List.mem_cons_self
    obtain ⟨c, m₁, hcapture, hd₁, hm₁, -⟩ := hd.captureCell_eq hfirst
    -- which of the two ways a variable is captured in depends on the frame, and the frames are
    -- equal
    have hboth : ∃ m₁', Machine.captureCell capture m' = .ok c m₁' ∧ Alike shared m₁ m₁' := by
      rcases h.captureCell hd hfirst with
        ⟨_, -, heq, hcapture'⟩ | ⟨index, -, -, heq, hcapture'⟩
      · cases heq.symm.trans hcapture
        exact ⟨m', hcapture', h⟩
      · cases heq.symm.trans hcapture
        exact ⟨m'.moved index, hcapture', h.moved index⟩
    obtain ⟨m₁', hcapture', h₁⟩ := hboth
    obtain ⟨cells, m₂, m₂', hrest, hrest', h₂, hm₂⟩ := ih h₁ hd₁ fun c hc => by
      rw [hm₁.stays.code]
      exact hwithin c (List.mem_cons_of_mem _ hc)
    refine ⟨c :: cells, m₂, m₂', ?_, ?_, h₂, hm₁.trans hm₂⟩
    · rw [Machine.captureCells, bind_ok hcapture, bind_ok hrest]
      rfl
    · rw [Machine.captureCells, bind_ok hcapture', bind_ok hrest']
      rfl

theorem makeClosure (h : Alike shared m m') (hd : Holds maps d m) {index : Nat} {id : Identity}
    {fn : FunctionCode} (hconst : exe.constants[index]? = some (.compiled id fn))
    (hwithin : ∀ capture ∈ fn.captures,
      capture.Within ⟨table.length, m.frame.code.locals, m.frame.code.captures.length⟩) :
    Parallel shared (Remains m) (perform .closure [index, fn.captures.length] m)
      (perform .closure [index, fn.captures.length] m') := by
  obtain ⟨cells, m₁, m₁', hcells, hcells', h₁, hm₁⟩ := h.captureCells hd hwithin
  have hconst' : m.constants[index]? = some (.compiled id fn) := by rwa [hd.constants]
  rw [makeClosure_eq hconst' (by rwa [List.take_length]),
    makeClosure_eq (by rwa [h.constants]) (by rwa [List.take_length]), h₁.host]
  have hdrawn : Alike shared m₁.drawn m₁'.drawn := by
    unfold drawn
    rw [h₁.host]
    exact h₁.withHost _
  exact hdrawn.push _ ⟨hm₁.stays.callers, hm₁.position⟩

/-! ### All instructions

Put together by cases on what the layout demands, like `perform_ends`. -/

/-- **An instruction that fits and reads no variable**, performed behind its place. The top level
must not return `null`, since its result would then be whatever the slot above the stack holds. -/
theorem perform (h : Alike shared m m') (hd : Holds maps d m) {op : Op}
    {operands : List Nat} {p : Nat}
    (hfits : Fits exact ⟨table.length, m.frame.code.locals, m.frame.code.captures.length⟩
      exe.constants (maps.depths m.frame.code m.callers) p d op operands)
    (hreads : op ≠ .getLocal ∧ op ≠ .getFree) (hnull : m.callers = [] → op ≠ .returnNull) :
    Parallel shared (Flow op (readBack op.widths operands) m)
      (Machine.perform op (readBack op.widths operands) m)
      (Machine.perform op (readBack op.widths operands) m') := by
  by_cases hbuiltin : op = .getBuiltin
  · subst hbuiltin
    match operands, hfits with
    | [index], hfits =>
      have hlt : index % 256 < table.length := Nat.lt_of_le_of_lt (Nat.mod_le index _) hfits.1
      have hget : m.builtins[index % 256]? = some table[index % 256] := by
        rw [hd.builtins]
        exact List.getElem?_eq_getElem hlt
      simp only [readBack, Op.widths, Nat.pow_one, Machine.perform]
      rw [bind_ok get_eq, bind_ok get_eq, h.builtins, hget]
      exact h.push _ (.next ⟨rfl, rfl⟩)
  · rw [readBack_of_fits hfits hbuiltin]
    have hnext : ∀ m₁, Remains m m₁ → Flow op operands m m₁ := fun _ => .next
    have htop := hd.top
    unfold Fits at hfits
    split at hfits
    case h_1 =>
      obtain ⟨-, ⟨value, hconst, -⟩, -⟩ := hfits
      show Parallel _ _ ((get >>= fun m => present m.constants[_]? >>= Machine.push) m)
        ((get >>= fun m => present m.constants[_]? >>= Machine.push) m')
      rw [bind_ok get_eq, bind_ok get_eq, h.constants, hd.constants, bind_ok (present_eq hconst),
        bind_ok (present_eq hconst)]
      exact h.push value (.next ⟨rfl, rfl⟩)
    -- the constants `true`, `false` and `null`
    case h_2 | h_3 | h_4 => exact h.push _ (.next ⟨rfl, rfl⟩)
    -- operators
    case h_5 | h_6 | h_7 | h_8 | h_9 | h_10 | h_11 => exact (h.binary hd hfits.1 _).mono hnext
    case h_12 => exact (h.index hd hfits.1).mono hnext
    case h_13 | h_14 => exact (h.unary hd hfits.1 _).mono hnext
    case h_15 =>
      show Parallel _ _
        ((Machine.pop >>= fun _ => pure ()) m) ((Machine.pop >>= fun _ => pure ()) m')
      rw [bind_ok (hd.pop_eq hfits.1), bind_ok (h.pop_eq (Nat.lt_of_lt_of_le hfits.1 (by omega)))]
      exact ⟨h.popped, .next ⟨rfl, rfl⟩⟩
    case h_16 target => exact ⟨h.goTo target, .jumps target (.inl rfl) rfl rfl rfl⟩
    case h_17 target =>
      obtain ⟨-, h1, -⟩ := hfits
      show Parallel _ _
        ((Machine.pop >>= fun test => if !test.truthy then jump target else pure ()) m)
        ((Machine.pop >>= fun test => if !test.truthy then jump target else pure ()) m')
      rw [bind_ok (hd.pop_eq h1), bind_ok (h.pop_eq (by omega)), h.stackTop (by omega)]
      split
      · exact ⟨h.popped.goTo target, .jumps target (.inr rfl) rfl rfl rfl⟩
      · exact ⟨h.popped, .next ⟨rfl, rfl⟩⟩
    -- variables
    case h_18 => exact (h.getGlobal _).mono hnext
    case h_19 => exact (h.storeGlobal hd hfits.2.1 _).mono hnext
    case h_20 => exact absurd rfl hreads.1
    case h_21 => exact (h.setLocal hd hfits.2.2.1 hfits.2.1).mono hnext
    case h_22 => exact absurd rfl hreads.2
    case h_23 => exact (h.setFree hd hfits.2.2.1 hfits.2.1).mono hnext
    case h_24 => exact absurd rfl hbuiltin
    -- containers, calls and closures
    case h_25 => exact (h.array hd hfits.2.1).mono hnext
    case h_26 => exact (h.hash hd hfits.2.2.1 hfits.2.1).mono hnext
    case h_27 => exact h.call hd hfits.2.1
    case h_28 =>
      obtain ⟨-, -, ⟨id, fn, hconst, rfl, -, hwithin⟩, -⟩ := hfits
      exact (h.makeClosure hd hconst hwithin).mono hnext
    case h_29 =>
      have hslot : m.popped.frame.base + m.popped.frame.code.locals ≤ m.popped.top := by
        have := (hd.popped hfits).top
        omega
      show Parallel _ _ ((Machine.pop >>= Machine.leave) m) ((Machine.pop >>= Machine.leave) m')
      rw [bind_ok (hd.pop_eq hfits), bind_ok (h.pop_eq (by omega)), h.stackTop (by omega)]
      have hleave := h.popped.leave (hd.popped hfits) m.stackTop .returnValue [] fun _ =>
        h.operand hslot (Nat.sub_lt (by omega) Nat.one_pos)
      refine hleave.mono fun m₁ hflow => ?_
      cases hflow with
      | next hremains => exact .next hremains
      | jumps target hop hoperands hcallers hposition =>
        exact .jumps target hop hoperands hcallers hposition
      | enters hop hcallers => cases hop
      | leaves hcallers => exact .leaves hcallers
    case h_30 =>
      exact h.leave hd .null _ _ fun hcallers => absurd rfl (hnull hcallers)
    case h_31 => exact absurd hfits id

end Alike

end Instructions

end Scriptlet.Machine
