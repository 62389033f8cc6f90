import Scriptlet.Proofs.Depth.Maps
import Scriptlet.Proofs.Machine.Effects
import Scriptlet.Proofs.Values

/-!
# The invariant of the machine

`Holds` ties a state of the machine to the depth maps of the executable that it runs: how many
operands the running frame has, that every frame below waits behind a call with as many operands as
the depth map of its code says, and that all closures around can be entered. `Sound` adds that the
running frame stands at a mapped position; that steps keep it is `Proofs/Machine/Preservation.lean`.

The two are apart because a step is not one move. Reading an instruction leaves the frame between
two instructions, where no depth is mapped, and taking an operand off leaves it with fewer operands
than its position says. In between only `Holds` is true, for a depth that is counted along.
-/

namespace Scriptlet

/-- The depths of the code of a frame: the one at the bottom runs the top level. -/
def DepthMaps.depths {exact : Prop} {builtins : Nat} {exe : Executable}
    (maps : DepthMaps exact builtins exe) (code : FunctionCode) :
    (callers : List Machine.Frame) → Depths
  | [] => maps.main
  | _ :: _ => maps.inside code

namespace Machine

/-- **Stops that a program brings about itself**: its end, a fault of its own, or `exit`. What is
left out is the machine being stuck, and faults that mean broken code. -/
def Stop.Harmless : Stop → Prop
  | .finished => True
  | .halted halt => halt.Plain
  | .stuck => False

/-- The machine is within its limits. -/
def Bounded (m : Machine) : Prop :=
  m.top ≤ stackSize ∧ m.callers.length + 1 ≤ maxFrames

/-- **A closure that can be entered**: compiled code, with a cell for every variable that it
captures. Cells are never taken back, so a closure that can be entered stays so. -/
def Enterable (exact : Prop) (builtins : Nat) (constants : Array Value) (cells : Nat) :
    ClosureProperty := fun _ code captured =>
  code.IsCompiled exact builtins constants ∧ captured.size = code.captures.length
    ∧ ∀ cell ∈ captured, cell < cells

theorem Enterable.mono {exact : Prop} {builtins : Nat} {constants : Array Value}
    {cells cells' : Nat} (hle : cells ≤ cells') (id : Identity) (code : FunctionCode)
    (captured : Array CellId) (h : Enterable exact builtins constants cells id code captured) :
    Enterable exact builtins constants cells' id code captured :=
  ⟨h.1, h.2.1, fun cell hcell => Nat.lt_of_lt_of_le (h.2.2 cell hcell) hle⟩

/-- Every closure that a machine has on its stack, in a global or in a cell has the property
`ok`. -/
structure Closures (m : Machine) (ok : ClosureProperty) : Prop where
  stack : ∀ i, (m.stack.read i).Closures ok
  globals : ∀ i v, m.globals.read i = some v → v.Closures ok
  cells : ∀ v ∈ m.cells, v.Closures ok

section Closures

variable {m : Machine} {ok ok' : ClosureProperty} {value : Value}

theorem Closures.mono (h : m.Closures ok)
    (hok : ∀ id code cells, ok id code cells → ok' id code cells) : m.Closures ok' :=
  ⟨fun i => .mono hok _ (h.stack i), fun i v hv => .mono hok v (h.globals i v hv),
    fun v hv => .mono hok v (h.cells v hv)⟩

theorem Closures.stackTop (h : m.Closures ok) : m.stackTop.Closures ok := by
  unfold Machine.stackTop
  split
  · trivial
  · exact h.stack _

theorem Closures.slots (h : m.Closures ok) (start : Nat) :
    ∀ v ∈ m.slots start, v.Closures ok := by
  intro v hv
  obtain ⟨i, rfl⟩ := mem_slots hv
  exact h.stack i

/-- A slot of the stack is written. -/
theorem Closures.setSlot (h : m.Closures ok) (index : Nat) (hvalue : value.Closures ok) :
    Closures { m with stack := m.stack.write index value } ok := by
  refine ⟨fun i => ?_, h.globals, h.cells⟩
  show ((m.stack.write index value).read i).Closures ok
  rw [Memory.read_write]
  split
  · exact hvalue
  · exact h.stack i

theorem Closures.pushed (h : m.Closures ok) (hvalue : value.Closures ok) :
    (m.pushed value).Closures ok :=
  have hwritten := h.setSlot m.top hvalue
  ⟨hwritten.stack, hwritten.globals, hwritten.cells⟩

theorem Closures.setGlobal (h : m.Closures ok) (index : Nat) (hvalue : value.Closures ok) :
    Closures { m with globals := m.globals.write index (some value) } ok := by
  refine ⟨h.stack, fun i v hv => ?_, h.cells⟩
  have hread : (m.globals.write index (some value)).read i = some v := hv
  rw [Memory.read_write] at hread
  split at hread
  · cases hread
    exact hvalue
  · exact h.globals i v hread

theorem Closures.setCell (h : m.Closures ok) (id : CellId) (hvalue : value.Closures ok) :
    Closures { m with cells := m.cells.setIfInBounds id value } ok := by
  refine ⟨h.stack, h.globals, fun v hv => ?_⟩
  rcases Array.mem_or_eq_of_mem_setIfInBounds hv with hv | rfl
  · exact h.cells v hv
  · exact hvalue

theorem Closures.newCell (h : m.Closures ok) (frame : Frame) (hvalue : value.Closures ok) :
    Closures { m with frame, cells := m.cells.push value } ok := by
  refine ⟨h.stack, h.globals, fun v hv => ?_⟩
  rcases Array.mem_push.mp hv with hv | rfl
  · exact h.cells v hv
  · exact hvalue

end Closures

/-- The code of a frame: the one at the bottom runs the top level, the others run functions. -/
def CodeOf (exact : Prop) (builtins : Nat) (exe : Executable) (code : FunctionCode) :
    (callers : List Frame) → Prop
  | [] => code = ⟨exe.code, 0, 0, []⟩
  | _ :: _ => code.IsCompiled exact builtins exe.constants

/-- A frame whose code belongs to the executable and whose cells exist. -/
structure Frame.Valid (exact : Prop) (builtins : Nat) (exe : Executable) (cells : Nat)
    (callers : List Frame) (frame : Frame) : Prop where
  code : CodeOf exact builtins exe frame.code callers
  free : frame.free.size = frame.code.captures.length
  free_lt : ∀ cell ∈ frame.free, cell < cells
  captured_lt : ∀ entry ∈ frame.captured, entry.2 < cells

/-- **The frames below a frame that starts at the slot `base`.** The callee, whose place is right
below `base`, is an operand of the next frame, and that frame goes on with the result in its place.
So the depth that is mapped where a frame waits counts the result, though it is not there yet. -/
def Waits {exact : Prop} {builtins : Nat} {exe : Executable} (maps : DepthMaps exact builtins exe)
    (cells : Nat) : (base : Nat) → List Frame → Prop
  | base, [] => base = 0
  | base, caller :: callers =>
    caller.Valid exact builtins exe cells callers ∧ caller.base + caller.code.locals < base
      ∧ Leads exact (maps.depths caller.code callers) caller.position
        (base - (caller.base + caller.code.locals))
      ∧ Waits maps cells caller.base callers

/-- **The state of a machine whose running frame has `d` operands.** The stack is made up of frames
without gaps: the locals of each, then its operands, the last of which is the callee of the next. -/
structure Holds {exact : Prop} {table : BuiltinTable} {exe : Executable}
    (maps : DepthMaps exact table.length exe) (d : Nat) (m : Machine) : Prop where
  constants : m.constants = exe.constants
  builtins : m.builtins = table
  closures : m.Closures (Enterable exact table.length exe.constants m.cells.size)
  top : m.top = m.frame.base + m.frame.code.locals + d
  bounded : m.Bounded
  valid : m.frame.Valid exact table.length exe m.cells.size m.callers
  waits : Waits maps m.cells.size m.frame.base m.callers

/-- **The state of a machine before a step.** The running frame has as many operands as its position
is mapped to. -/
def Sound {exact : Prop} {table : BuiltinTable} {exe : Executable}
    (maps : DepthMaps exact table.length exe) (m : Machine) : Prop :=
  ∃ d, Holds maps d m ∧ Leads exact (maps.depths m.frame.code m.callers) m.frame.position d

/-- **The running frame stays the same**, and with it everything below its locals. -/
structure Stays (m m' : Machine) : Prop where
  base : m'.frame.base = m.frame.base
  code : m'.frame.code = m.frame.code
  callers : m'.callers = m.callers
  below : ∀ i < m.frame.base, m'.stack.read i = m.stack.read i

theorem Stays.trans {m m' m'' : Machine} (h : Stays m m') (h' : Stays m' m'') : Stays m m'' :=
  ⟨h'.base.trans h.base, h'.code.trans h.code, h'.callers.trans h.callers, fun i hi =>
    (h'.below i (by rwa [h.base])).trans (h.below i hi)⟩

/-- **All variables of functions keep their places and values.** Operands come and go, and so do the
values of globals. No closure comes from anywhere but the machine itself. -/
structure Keeps (m m' : Machine) : Prop where
  frame : m'.frame = { m.frame with position := m'.frame.position }
  callers : m'.callers = m.callers
  slots : ∀ i < m.frame.base + m.frame.code.locals, m'.stack.read i = m.stack.read i
  cells : m'.cells = m.cells
  fresh : m.host.fresh ≤ m'.host.fresh
  closures : ∀ ok, m.Closures ok → m'.Closures ok

namespace Keeps

variable {m m' m'' : Machine}

theorem base (h : Keeps m m') : m'.frame.base = m.frame.base := by
  rw [h.frame]

theorem code (h : Keeps m m') : m'.frame.code = m.frame.code := by
  rw [h.frame]

theorem stays (h : Keeps m m') : Stays m m' :=
  ⟨h.base, h.code, h.callers, fun i hi => h.slots i (Nat.lt_add_right _ hi)⟩

theorem trans (h : Keeps m m') (h' : Keeps m' m'') : Keeps m m'' where
  frame := by rw [h'.frame, h.frame]
  callers := h'.callers.trans h.callers
  slots i hi := (h'.slots i (by rwa [h.base, h.code])).trans (h.slots i hi)
  cells := h'.cells.trans h.cells
  fresh := Nat.le_trans h.fresh h'.fresh
  closures ok hm := h'.closures ok (h.closures ok hm)

theorem refl (m : Machine) : Keeps m m :=
  ⟨rfl, rfl, fun _ _ => rfl, rfl, Nat.le_refl _, fun _ h => h⟩

theorem withTop (m : Machine) (top : Nat) : Keeps m (m.withTop top) :=
  ⟨rfl, rfl, fun _ _ => rfl, rfl, Nat.le_refl _, fun _ h => ⟨h.stack, h.globals, h.cells⟩⟩

theorem popped (m : Machine) : Keeps m m.popped :=
  .withTop m _

theorem advance (m : Machine) (bytes : Nat) : Keeps m (m.advance bytes) :=
  ⟨rfl, rfl, fun _ _ => rfl, rfl, Nat.le_refl _, fun _ h => ⟨h.stack, h.globals, h.cells⟩⟩

theorem goTo (m : Machine) (position : Nat) : Keeps m (m.goTo position) :=
  ⟨rfl, rfl, fun _ _ => rfl, rfl, Nat.le_refl _, fun _ h => ⟨h.stack, h.globals, h.cells⟩⟩

theorem withHost {host : Host} (h : m.host.fresh ≤ host.fresh) : Keeps m (m.withHost host) :=
  ⟨rfl, rfl, fun _ _ => rfl, rfl, h, fun _ h => ⟨h.stack, h.globals, h.cells⟩⟩

/-- A value is put on the stack, above all locals. -/
theorem pushed {value : Value} (hroom : m.frame.base + m.frame.code.locals ≤ m.top)
    (hvalue : ∀ ok, m.Closures ok → value.Closures ok) : Keeps m (m.pushed value) := by
  refine ⟨rfl, rfl, fun i hi => ?_, rfl, Nat.le_refl _, fun ok h => h.pushed (hvalue ok h)⟩
  show (m.stack.write m.top value).read i = _
  rw [Memory.read_write, if_neg (by omega)]

theorem setGlobal {value : Value} (index : Nat)
    (hvalue : ∀ ok, m.Closures ok → value.Closures ok) :
    Keeps m { m with globals := m.globals.write index (some value) } :=
  ⟨rfl, rfl, fun _ _ => rfl, rfl, Nat.le_refl _, fun ok h => h.setGlobal index (hvalue ok h)⟩

end Keeps

section Holds

variable {exact : Prop} {table : BuiltinTable} {exe : Executable}
  {maps : DepthMaps exact table.length exe} {m : Machine} {d : Nat}

/-! ## Keeping the invariant

One lemma for each state that `Proofs/Machine/Effects.lean` names. Where a value is written, its
closures have to be enterable; where cells are added, all closures that were enterable stay so. -/

theorem Frame.Valid.mono {builtins cells cells' : Nat} {callers : List Frame} {frame : Frame}
    (hle : cells ≤ cells') (h : frame.Valid exact builtins exe cells callers) :
    frame.Valid exact builtins exe cells' callers :=
  ⟨h.code, h.free, fun cell hc => Nat.lt_of_lt_of_le (h.free_lt cell hc) hle, fun entry he =>
    Nat.lt_of_lt_of_le (h.captured_lt entry he) hle⟩

theorem Waits.mono {cells cells' base : Nat} {callers : List Frame} (hle : cells ≤ cells')
    (h : Waits maps cells base callers) : Waits maps cells' base callers := by
  induction callers generalizing base with
  | nil => exact h
  | cons caller callers ih => exact ⟨h.1.mono hle, h.2.1, h.2.2.1, ih h.2.2.2⟩

/-- **What the code of a frame may refer to.** The instruction at a mapped position fits there, with
the surroundings that the frame has. -/
theorem CodeOf.fits {code : FunctionCode} {callers : List Frame} {p d : Nat}
    (h : CodeOf exact table.length exe code callers) (hp : p < code.code.size)
    (hd : maps.depths code callers p = some d) :
    FitsAt exact ⟨table.length, code.locals, code.captures.length⟩ code.code exe.constants
      (maps.depths code callers) p d := by
  cases callers with
  | nil =>
    obtain rfl := h
    exact maps.main_mapped.fits p d hp hd
  | cons caller callers => exact (maps.inside_mapped code h).fits p d hp hd

namespace Holds

theorem locals_le_top (h : Holds maps d m) : m.frame.base + m.frame.code.locals ≤ m.top :=
  Nat.le_trans (Nat.le_add_right _ d) (Nat.le_of_eq h.top.symm)

theorem top_le (h : Holds maps d m) : m.top ≤ stackSize :=
  h.bounded.1

theorem advance (h : Holds maps d m) (bytes : Nat) : Holds maps d (m.advance bytes) :=
  ⟨h.constants, h.builtins, ⟨h.closures.stack, h.closures.globals, h.closures.cells⟩, h.top,
    h.bounded, ⟨h.valid.code, h.valid.free, h.valid.free_lt, h.valid.captured_lt⟩, h.waits⟩

theorem goTo (h : Holds maps d m) (position : Nat) : Holds maps d (m.goTo position) :=
  ⟨h.constants, h.builtins, ⟨h.closures.stack, h.closures.globals, h.closures.cells⟩, h.top,
    h.bounded, ⟨h.valid.code, h.valid.free, h.valid.free_lt, h.valid.captured_lt⟩, h.waits⟩

theorem withHost (h : Holds maps d m) (host : Host) : Holds maps d (m.withHost host) :=
  ⟨h.constants, h.builtins, ⟨h.closures.stack, h.closures.globals, h.closures.cells⟩, h.top,
    h.bounded, h.valid, h.waits⟩

/-- Operands are dropped. -/
theorem drop (h : Holds maps d m) {count : Nat} (hcount : count ≤ d) :
    Holds maps (d - count) (m.withTop (m.top - count)) := by
  have htop := h.top
  refine ⟨h.constants, h.builtins, ⟨h.closures.stack, h.closures.globals, h.closures.cells⟩, ?_,
    ⟨Nat.le_trans (Nat.sub_le _ _) h.top_le, h.bounded.2⟩, h.valid, h.waits⟩
  show m.top - count = _
  rw [htop]
  exact Nat.add_sub_assoc hcount _

theorem popped (h : Holds maps d m) (hd : 1 ≤ d) : Holds maps (d - 1) m.popped :=
  h.drop hd

theorem pushed {value : Value} (h : Holds maps d m) (hroom : m.top < stackSize)
    (hvalue : value.Closures (Enterable exact table.length exe.constants m.cells.size)) :
    Holds maps (d + 1) (m.pushed value) := by
  refine ⟨h.constants, h.builtins, h.closures.pushed hvalue, ?_, ⟨hroom, h.bounded.2⟩, h.valid,
    h.waits⟩
  show m.top + 1 = _
  rw [h.top]
  rfl

theorem setSlot {value : Value} (h : Holds maps d m) (index : Nat)
    (hvalue : value.Closures (Enterable exact table.length exe.constants m.cells.size)) :
    Holds maps d { m with stack := m.stack.write index value } :=
  ⟨h.constants, h.builtins, h.closures.setSlot index hvalue, h.top, h.bounded, h.valid, h.waits⟩

theorem setGlobal {value : Value} (h : Holds maps d m) (index : Nat)
    (hvalue : value.Closures (Enterable exact table.length exe.constants m.cells.size)) :
    Holds maps d { m with globals := m.globals.write index (some value) } :=
  ⟨h.constants, h.builtins, h.closures.setGlobal index hvalue, h.top, h.bounded, h.valid, h.waits⟩

theorem setCell {value : Value} (h : Holds maps d m) (id : CellId)
    (hvalue : value.Closures (Enterable exact table.length exe.constants m.cells.size)) :
    Holds maps d { m with cells := m.cells.setIfInBounds id value } := by
  have hsize : (m.cells.setIfInBounds id value).size = m.cells.size := Array.size_setIfInBounds
  have hclosures := h.closures.setCell id hvalue
  refine ⟨h.constants, h.builtins, ?_, h.top, h.bounded, ?_, ?_⟩
  all_goals simp only [hsize]
  · exact hclosures
  · exact h.valid
  · exact h.waits

/-- A new cell. -/
theorem newCell {value : Value} (h : Holds maps d m) (index : Nat)
    (hvalue : value.Closures (Enterable exact table.length exe.constants m.cells.size)) :
    Holds maps d { m with
      frame := { m.frame with captured := (index, m.cells.size) :: m.frame.captured }
      cells := m.cells.push value } := by
  have hsize : (m.cells.push value).size = m.cells.size + 1 := Array.size_push value
  have hclosures := (h.closures.newCell
    { m.frame with captured := (index, m.cells.size) :: m.frame.captured } hvalue).mono
      (Enterable.mono (Nat.le_succ _))
  refine ⟨h.constants, h.builtins, ?_, h.top, h.bounded, ?_, ?_⟩
  all_goals simp only [hsize]
  · exact hclosures
  · have hvalid := h.valid.mono (Nat.le_succ _)
    refine ⟨hvalid.code, hvalid.free, hvalid.free_lt, fun entry hentry => ?_⟩
    rcases List.mem_cons.mp hentry with rfl | hentry
    · exact Nat.lt_succ_self _
    · exact hvalid.captured_lt entry hentry
  · exact h.waits.mono (Nat.le_succ _)

end Holds

end Holds

end Machine

end Scriptlet
