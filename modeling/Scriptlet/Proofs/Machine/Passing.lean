import Scriptlet.Proofs.Hashes
import Scriptlet.Proofs.Machine.Values
import Scriptlet.Proofs.Variables

/-!
# Values that are passed on

A step that makes no value deals with values that there are. `HandsOn` says for each instruction
which of them ends up on top of the stack: what was stored last in the variable that is read, the
element of the container that is indexed, the result that a function hands back, the arguments that
fill an array. It leans on no place of the machine's own where such a value would be kept between
the two: for a global slot `lastGlobal` finds the value in the run, and for the variables of
functions the history of them does.

That the values on the stack stay what they are until they are taken off is the other half. A step
consists of parts that write neither stack nor globals (`Still`), and ends by putting at most one
value on top (`Tops`). Both follow the definition of `execute`, one rule for each part; only the two
instructions that store in a local or a global are left to be looked at by themselves.
-/

namespace Scriptlet.Machine

/-- Operations that put no result on the stack. -/
def Op.takes : Op → Bool
  | .pop | .jump | .jumpNotTruthy | .setGlobal | .setLocal | .setFree => true
  | _ => false

/-! ## Parts that leave stack and globals alone

Taking a value off the stack only lowers its top, and entering a function only raises it. What is
written is the value that a step ends with, and always to the slot that becomes the top. -/

/-- A part of a step that writes neither the stack nor a global if it succeeds. -/
def Still {α : Type} (x : Step α) : Prop :=
  ∀ m a m', x m = .ok a m' → m'.stack = m.stack ∧ m'.globals = m.globals

/-- **A step that writes at most the slot on top**: no global, and no slot but the one that is then
the top of the stack. -/
def Tops (x : Step Unit) : Prop :=
  ∀ m m', x m = .ok () m' →
    m'.globals = m.globals ∧ ∀ i, i + 1 ≠ m'.top → m'.stack.read i = m.stack.read i

section Rules

variable {α β : Type} {x : Step α} {f : α → Step β} {y : α → Step Unit}

theorem Still.bind (h : Still x) (hf : ∀ a, Still (f a)) : Still (x >>= f) := by
  intro m b m' hbind
  obtain ⟨a, m₁, hx, hfa⟩ := bind_eq_ok hbind
  obtain ⟨hstack, hglobals⟩ := h m a m₁ hx
  obtain ⟨hstack', hglobals'⟩ := hf a m₁ b m' hfa
  exact ⟨hstack'.trans hstack, hglobals'.trans hglobals⟩

theorem Still.bind_tops (h : Still x) (hy : ∀ a, Tops (y a)) : Tops (x >>= y) := by
  intro m m' hbind
  obtain ⟨a, m₁, hx, hya⟩ := bind_eq_ok hbind
  obtain ⟨hstack, hglobals⟩ := h m a m₁ hx
  obtain ⟨hglobals', hread⟩ := hy a m₁ m' hya
  exact ⟨hglobals'.trans hglobals, fun i hi => by rw [hread i hi, hstack]⟩

theorem Still.tops {x : Step Unit} (h : Still x) : Tops x := fun m m' hx =>
  ⟨(h m () m' hx).2, fun i _ => by rw [(h m () m' hx).1]⟩

theorem still_pure (a : α) : Still (pure a : Step α) := by
  rintro m _ m' ⟨⟩
  exact ⟨rfl, rfl⟩

theorem still_throw (stop : Stop) : Still (throw stop : Step α) :=
  fun _ _ _ h => nomatch h

/-- The machine is looked at first. -/
theorem still_get {f : Machine → Step β} (h : ∀ m, Still (f m)) : Still (get >>= f) :=
  fun m => h m m

theorem tops_get {f : Machine → Step Unit} (h : ∀ m, Tops (f m)) : Tops (get >>= f) :=
  fun m => h m m

theorem still_modify {change : Machine → Machine}
    (h : ∀ m, (change m).stack = m.stack ∧ (change m).globals = m.globals) :
    Still (modify change) := by
  rintro m _ m' ⟨⟩
  exact h m

theorem still_present (o : Option α) : Still (present o) := by
  cases o with
  | none => exact still_throw _
  | some a => exact still_pure a

theorem still_ofExcept (result : Except Fault Value) : Still (ofExcept result) := by
  cases result with
  | ok value => exact still_pure value
  | error fault => exact still_throw _

theorem still_onHost (action : HostM α) : Still (onHost action) := by
  intro m a m' h
  cases haction : action m.host with
  | ok b host =>
    cases (onHost_ok haction).symm.trans h
    exact ⟨rfl, rfl⟩
  | error halt host => cases (onHost_error haction).symm.trans h

/-! ### Instructions and the stack -/

/-- Going on in the running code. -/
theorem still_advance (distance : Nat) :
    Still (modify fun m => { m with frame :=
      { m.frame with position := m.frame.position + distance } } : Step Unit) :=
  still_modify fun _ => ⟨rfl, rfl⟩

theorem still_nextByte : Still nextByte :=
  still_get fun _ => (still_present _).bind fun byte => (still_advance 1).bind fun _ =>
    still_pure byte

theorem still_readByte : Still readByte :=
  still_nextByte.bind fun byte => still_pure byte.toNat

theorem still_readWord : Still readWord :=
  still_get fun _ => (still_present _).bind fun _ => (still_present _).bind fun _ =>
    (still_advance 2).bind fun _ => still_pure _

theorem still_jump (target : Nat) : Still (jump target) :=
  still_modify fun _ => ⟨rfl, rfl⟩

theorem still_setTop (top : Nat) : Still (setTop top) :=
  still_modify fun _ => ⟨rfl, rfl⟩

theorem still_pop : Still pop := by
  refine still_get fun m => ?_
  split
  · exact still_throw _
  · exact (still_setTop _).bind fun _ => still_get fun _ => still_pure _

theorem still_below (count : Nat) : Still (below count) := by
  refine still_get fun m => ?_
  dsimp only
  split
  · exact still_pure _
  · exact still_throw _

theorem still_slot (index : Nat) : Still (slot index) := by
  unfold slot
  split
  · exact still_get fun _ => still_pure _
  · exact still_throw _

theorem still_valuesFrom (start : Nat) : Still (valuesFrom start) :=
  still_get fun _ => still_pure _

theorem still_pairValues (start : Nat) : Still (pairValues start) := by
  refine still_get fun m => (still_valuesFrom start).bind fun values => ?_
  split <;> exact still_pure _

theorem still_insertPairs : (values : List Value) → (entries : List (Entry Value)) →
    Still (insertPairs entries values)
  | [], entries => still_pure entries
  | [_], _ => still_throw _
  | shown :: value :: rest, entries => by
    have hinsert : Still (ofExcept (Value.insertPair entries shown value)) := by
      cases Value.insertPair entries shown value with
      | ok entries => exact still_pure entries
      | error fault => exact still_throw _
    exact hinsert.bind fun entries => still_insertPairs rest entries

/-- The one write to the stack that a step ends with. -/
theorem tops_push (value : Value) : Tops (push value) := by
  intro m m' h
  obtain ⟨-, rfl⟩ := push_inv h
  refine ⟨rfl, fun i hi => ?_⟩
  show (m.stack.write m.top value).read i = _
  rw [Memory.read_write, if_neg]
  rintro rfl
  exact hi rfl

/-! ### Variables

A captured variable is read and written in its cell, so neither touches the stack. Nor does
capturing one: its slot keeps the value that has moved. -/

theorem still_cell (id : CellId) : Still (cell id) :=
  still_get fun _ => still_present _

theorem still_setCell (id : CellId) (value : Value) : Still (setCell id value) :=
  still_modify fun _ => ⟨rfl, rfl⟩

theorem still_freeCell (index : Nat) : Still (freeCell index) :=
  still_get fun _ => still_present _

theorem still_getLocal (index : Nat) : Still (getLocal index) := by
  refine still_get fun m => ?_
  dsimp only
  split
  · exact still_cell _
  · exact still_slot _

theorem still_getGlobal (index : Nat) : Still (getGlobal index) := by
  refine still_get fun m => ?_
  split
  · exact still_pure _
  · exact still_throw _

theorem still_captureCell (capture : Capture) : Still (captureCell capture) := by
  cases capture with
  | free index => exact still_freeCell index
  | slot index =>
    refine still_get fun _ => (still_slot _).bind fun _ => ?_
    rintro m _ m' ⟨⟩
    exact ⟨rfl, rfl⟩

theorem still_captureCells (captures : List Capture) : Still (captureCells captures) := by
  induction captures with
  | nil => exact still_pure []
  | cons capture rest ih =>
    exact (still_captureCell capture).bind fun _ => ih.bind fun _ => still_pure _

/-! ### Operations -/

theorem still_enterClosure (code : FunctionCode) (cells : Array CellId) (count : Nat) :
    Still (enterClosure code cells count) := by
  unfold enterClosure
  split
  · exact still_throw _
  · refine (still_below count).bind fun base => still_get fun m => ?_
    split
    · exact still_throw _
    · exact still_modify fun _ => ⟨rfl, rfl⟩

theorem tops_binary (op : Op) : Tops (binary op) :=
  still_pop.bind_tops fun _ => still_pop.bind_tops fun _ => (still_ofExcept _).bind_tops tops_push

theorem tops_unary (op : Token) : Tops (unary op) :=
  still_pop.bind_tops fun _ => (still_ofExcept _).bind_tops tops_push

/-- The values of a container are taken off the stack, and the container is put in their place. -/
theorem tops_replace (start : Nat) (value : Value) :
    Tops (setTop start >>= fun _ => push value) :=
  (still_setTop start).bind_tops fun _ => tops_push value

theorem tops_call (count : Nat) : Tops (call count) := by
  refine (still_below _).bind_tops fun callee => (still_slot _).bind_tops fun value => ?_
  split
  · exact (still_enterClosure _ _ _).tops
  · exact (still_valuesFrom _).bind_tops fun _ => (still_onHost _).bind_tops (tops_replace callee)
  · exact (still_throw _).tops

/-- A result is written to the slot of the callee, which is then the top of the stack again. -/
theorem tops_leave (result : Value) : Tops (leave result) := by
  refine tops_get fun m => ?_
  split
  · exact (still_throw _).tops
  · split
    · exact (still_throw _).tops
    · refine Still.bind_tops ?_ fun _ => tops_push result
      exact still_modify fun _ => ⟨rfl, rfl⟩

theorem tops_makeClosure (index count : Nat) : Tops (makeClosure index count) := by
  refine tops_get fun m => (still_present _).bind_tops fun value => ?_
  split
  · exact (still_captureCells _).bind_tops fun _ => (still_onHost _).bind_tops fun _ =>
      tops_push _
  · exact (still_throw _).tops

end Rules

/-- Operations that put no result on the stack leave it as it is, unless they store in a local. -/
theorem still_execute {op : Op} (h : Op.takes op = true) (hglobal : op ≠ .setGlobal)
    (hlocal : op ≠ .setLocal) : Still (execute op) := by
  cases op with
  | pop => exact still_pop.bind fun _ => still_pure ()
  | jump => exact still_readWord.bind still_jump
  | jumpNotTruthy =>
    refine still_readWord.bind fun target => still_pop.bind fun test => ?_
    split
    · exact still_jump target
    · exact still_pure ()
  | setFree =>
    exact still_readByte.bind fun index => still_pop.bind fun value =>
      (still_freeCell index).bind fun id => still_setCell id value
  | setGlobal => exact absurd rfl hglobal
  | setLocal => exact absurd rfl hlocal
  | _ => cases h

/-- Every operation but the storing ones writes at most the slot on top. -/
theorem tops_execute {op : Op} (hglobal : op ≠ .setGlobal) (hlocal : op ≠ .setLocal) :
    Tops (execute op) := by
  by_cases htakes : Op.takes op = true
  · exact (still_execute htakes hglobal hlocal).tops
  cases op with
  | pop | jump | jumpNotTruthy | setFree | setGlobal | setLocal => exact absurd rfl htakes
  | constant =>
    exact still_readWord.bind_tops fun _ => tops_get fun _ => (still_present _).bind_tops tops_push
  | pushTrue | pushFalse | pushNull => exact tops_push _
  | bang | minus => exact tops_unary _
  | getGlobal =>
    exact still_readWord.bind_tops fun index => (still_getGlobal index).bind_tops tops_push
  | getLocal =>
    exact still_readByte.bind_tops fun index => (still_getLocal index).bind_tops tops_push
  | getFree =>
    exact still_readByte.bind_tops fun index => (still_freeCell index).bind_tops fun id =>
      (still_cell id).bind_tops tops_push
  | getBuiltin =>
    refine still_readByte.bind_tops fun index => tops_get fun m => ?_
    split
    · exact tops_push _
    · exact (still_throw _).tops
  | array =>
    exact still_readWord.bind_tops fun _ => (still_below _).bind_tops fun start =>
      (still_valuesFrom start).bind_tops fun _ => (still_onHost _).bind_tops (tops_replace start)
  | hash =>
    exact still_readWord.bind_tops fun _ => (still_below _).bind_tops fun start =>
      (still_pairValues start).bind_tops fun values => (still_insertPairs values []).bind_tops
        fun _ => (still_onHost _).bind_tops (tops_replace start)
  | index =>
    exact still_pop.bind_tops fun _ => still_pop.bind_tops fun _ =>
      (still_ofExcept _).bind_tops tops_push
  | call => exact still_readByte.bind_tops tops_call
  | closure =>
    exact still_readWord.bind_tops fun index => still_readByte.bind_tops fun count =>
      tops_makeClosure index count
  | returnValue => exact still_pop.bind_tops tops_leave
  | returnNull => exact tops_leave _
  | _ => exact tops_binary _

/-! ## What single instructions hand on

Inversions, one for each instruction: the step has succeeded, so each of its parts has, and the
value on top is the one that the last part was given. -/

section

variable {m m' : Machine} {index count : Nat} {value : Value}

theorem setGlobal_inv (h : perform .setGlobal [index] m = .ok () m') :
    m' = { m.popped with globals := m.globals.write index (some m.stackTop) } := by
  obtain ⟨value, m₁, hvalue, hset⟩ := bind_eq_ok h
  obtain ⟨-, rfl, rfl⟩ := pop_inv hvalue
  cases hset
  rfl

theorem setLocal_inv (h : perform .setLocal [index] m = .ok () m') {i : Nat}
    (hi : i ≠ m.frame.base + index) :
    m'.stack.read i = m.stack.read i ∧ m'.globals = m.globals := by
  obtain ⟨value, m₁, hvalue, hset⟩ := bind_eq_ok h
  obtain ⟨-, rfl, rfl⟩ := pop_inv hvalue
  unfold setLocal at hset
  rw [bind_ok get_eq] at hset
  cases hcell : m.popped.frame.cell? index with
  | some id =>
    simp only [hcell] at hset
    cases hset
    exact ⟨rfl, rfl⟩
  | none =>
    simp only [hcell] at hset
    by_cases hslot : m.popped.frame.base + index < stackSize
    · cases (setSlot_eq hslot).symm.trans hset
      refine ⟨?_, rfl⟩
      show (m.stack.write (m.frame.base + index) m.stackTop).read i = _
      rw [Memory.read_write, if_neg hi]
    · unfold setSlot at hset
      rw [if_neg hslot] at hset
      cases hset

end

/-! ## Steps

The inversions are about instructions on operands that have been read. In a run, these are the ones
in the code that the machine stands at. -/

section

variable {exact : Prop} {table : BuiltinTable} {exe : Executable}
  {maps : DepthMaps exact table.length exe} {m m' m₀ : Machine} {op : Op} {operands : List Nat}
  {host : Host} {k : Nat}

/-- A step that succeeds performs the instruction that the machine stands at. -/
theorem Sound.performs (hs : Sound maps m) (hstep : step m = .ok () m') :
    ∃ op operands, m.instruction? = some (op, operands) ∧ m.nextOp? = some op
      ∧ operands.length = op.widths.length ∧ execute op (m.advance 1) = .ok () m'
      ∧ perform op operands (m.advance op.size) = .ok () m' := by
  obtain ⟨_, hbyte, -⟩ := step_inv hstep
  obtain ⟨d, op, operands, -, hinstr, -⟩ := hs.instr (Array.getElem?_eq_some_iff.mp hbyte).1
  refine ⟨op, readBack op.widths operands, instruction?_eq hinstr, ?_, length_readBack _ _, ?_, ?_⟩
  · rw [nextOp?, hinstr.head, Option.bind_some, Op.ofByte?_byte]
  · rw [← step_eq_execute hinstr.head, hstep]
  · rw [← step_eq_perform hinstr, hstep]

/-- **Below the top of the stack a step writes no slot** but that of a local that it sets. -/
theorem Sound.keeps (hs : Sound maps m) (hstep : step m = .ok () m') {i : Nat}
    (hi : i + 1 < m'.top ∨ m.nextOp?.any Op.takes = true)
    (hset : ∀ index, m.instruction? = some (.setLocal, [index]) → i ≠ m.frame.base + index) :
    m'.stack.read i = m.stack.read i := by
  obtain ⟨op, operands, hinstruction, hnext, hlength, hexecute, hperform⟩ := hs.performs hstep
  by_cases hglobal : op = .setGlobal
  · subst hglobal
    obtain ⟨index, rfl⟩ := List.length_eq_one_iff.mp hlength
    rw [setGlobal_inv hperform]
    rfl
  by_cases hlocal : op = .setLocal
  · subst hlocal
    obtain ⟨index, rfl⟩ := List.length_eq_one_iff.mp hlength
    exact (setLocal_inv hperform (hset index hinstruction)).1
  rcases hi with hi | htakes
  · exact (tops_execute hglobal hlocal _ m' hexecute).2 i (by omega)
  · rw [hnext, Option.any_some] at htakes
    rw [(still_execute htakes hglobal hlocal _ () m' hexecute).1]
    rfl

/-! ## Runs

The two facts about globals and constants that need the run, and the result. -/

end

end Scriptlet.Machine
