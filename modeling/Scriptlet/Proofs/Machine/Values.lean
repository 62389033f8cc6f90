import Scriptlet.Proofs.Machine.Effects
import Scriptlet.Proofs.Values.Identity

/-!
# Values in a run of the machine

A step moves values about, computes with them, or draws an identity and puts the value that it has
made on top of the stack (`step_draws`). So whatever is on the stack, in a global or in a cell is a
constant or has been made by an earlier step (`run_known`).

`Has P F` says of all values that a machine can get at that they have a property `P`. What steps do
is said for every such property at once, and the run gets the one that fits its place: to be a
constant, or to have been made in the steps so far. This property changes from step to step, as more
has been made; a step only ever adds to it.
-/

namespace Scriptlet

/-- **A value with a new identity**, made of parts with a property; a function has code with another
one. -/
structure Value.New (P : Value → Prop) (F : FunctionCode → Prop) (id : Identity) (v : Value) :
    Prop where
  identity : v.identity? = some id
  parts : v.Parts P
  code : ∀ code, v.code? = some code → F code

namespace Machine

/-- **All values that a machine can get at have a property**, and all functions that run have code
with another one. Slots above the top of the stack count as well: the machine does not clear them,
so they can come back. -/
structure Has (P : Value → Prop) (F : FunctionCode → Prop) (m : Machine) : Prop where
  constants : ∀ v ∈ m.constants, P v
  stack : ∀ i, P (m.stack.read i)
  globals : ∀ i v, m.globals.read i = some v → P v
  cells : ∀ v ∈ m.cells, P v
  running : F m.frame.code
  waiting : ∀ frame ∈ m.callers, F frame.code

section Has

variable {P Q : Value → Prop} {F : FunctionCode → Prop} {m : Machine} {value : Value}

theorem Has.mono (h : m.Has P F) (hPQ : ∀ v, P v → Q v) : m.Has Q F :=
  ⟨fun v hv => hPQ v (h.constants v hv), fun i => hPQ _ (h.stack i),
    fun i v hv => hPQ v (h.globals i v hv), fun v hv => hPQ v (h.cells v hv), h.running, h.waiting⟩

theorem Has.setSlot (h : m.Has P F) (index : Nat) (hvalue : P value) :
    Has P F { m with stack := m.stack.write index value } := by
  refine ⟨h.constants, fun i => ?_, h.globals, h.cells, h.running, h.waiting⟩
  show P ((m.stack.write index value).read i)
  rw [Memory.read_write]
  split
  · exact hvalue
  · exact h.stack i

theorem Has.pushed (h : m.Has P F) (hvalue : P value) : Has P F (m.pushed value) :=
  have hwritten := h.setSlot m.top hvalue
  ⟨hwritten.constants, hwritten.stack, hwritten.globals, hwritten.cells, h.running,
    h.waiting⟩

theorem Has.withTop (h : m.Has P F) (top : Nat) : Has P F (m.withTop top) :=
  ⟨h.constants, h.stack, h.globals, h.cells, h.running, h.waiting⟩

theorem Has.withHost (h : m.Has P F) (host : Host) : Has P F (m.withHost host) :=
  ⟨h.constants, h.stack, h.globals, h.cells, h.running, h.waiting⟩

theorem Has.setGlobal (h : m.Has P F) (index : Nat) (hvalue : P value) :
    Has P F { m with globals := m.globals.write index (some value) } := by
  refine ⟨h.constants, h.stack, fun i v hv => ?_, h.cells, h.running, h.waiting⟩
  have hread : (m.globals.write index (some value)).read i = some v := hv
  rw [Memory.read_write] at hread
  split at hread
  · cases hread
    exact hvalue
  · exact h.globals i v hread

theorem Has.setCell (h : m.Has P F) (id : CellId) (hvalue : P value) :
    Has P F { m with cells := m.cells.setIfInBounds id value } := by
  refine ⟨h.constants, h.stack, h.globals, fun v hv => ?_, h.running, h.waiting⟩
  rcases Array.mem_or_eq_of_mem_setIfInBounds hv with hv | rfl
  · exact h.cells v hv
  · exact hvalue

/-- The running function goes on, or lets a closure have some of its variables. -/
theorem Has.withFrame (h : m.Has P F) {frame : Frame} (hcode : frame.code = m.frame.code) :
    Has P F { m with frame } :=
  ⟨h.constants, h.stack, h.globals, h.cells, hcode ▸ h.running, h.waiting⟩

theorem Has.slots (h : m.Has P F) (start : Nat) : ∀ v ∈ m.slots start, P v := by
  intro v hv
  obtain ⟨i, rfl⟩ := mem_slots hv
  exact h.stack i

end Has

/-! ## Parts of a step that draw no identity

A calculus of two rules, for binds and for looking at the machine, and one lemma for each part. -/

/-- **A part of a step that moves values about or computes with them**, and leaves the surroundings
as they are if it succeeds. -/
def Carries {α : Type} (P : Value → Prop) (F : FunctionCode → Prop) (x : Step α)
    (post : α → Prop) : Prop :=
  ∀ m : Machine, m.Has P F →
    match x m with
    | .ok a m' => m'.Has P F ∧ m'.host = m.host ∧ post a
    | .error _ _ => True

section Carries

variable {α β : Type} {P : Value → Prop} {F : FunctionCode → Prop} {x : Step α} {f : α → Step β}
  {post mid : α → Prop} {post' : β → Prop} {value : Value}

theorem Carries.bind (h : Carries P F x mid) (hf : ∀ a, mid a → Carries P F (f a) post') :
    Carries P F (x >>= f) post' := by
  intro m hm
  have hx := h m hm
  cases hr : x m with
  | error stop m₁ =>
    rw [bind_error hr]
    trivial
  | ok a m₁ =>
    rw [hr] at hx
    have hy := hf a hx.2.2 m₁ hx.1
    rw [bind_ok hr]
    split
    · rename_i hs
      rw [hs] at hy
      exact ⟨hy.1, hy.2.1.trans hx.2.1, hy.2.2⟩
    · trivial

theorem carries_pure {a : α} (h : post a) : Carries P F (pure a) post :=
  fun _ hm => ⟨hm, rfl, h⟩

theorem carries_throw (stop : Stop) : Carries P F (throw stop : Step α) post :=
  fun _ _ => trivial

/-- The machine is looked at first. -/
theorem carries_get {f : Machine → Step β}
    (h : ∀ m : Machine, m.Has P F → Carries P F (f m) post') : Carries P F (get >>= f) post' :=
  fun m hm => h m hm m hm

/-- A change of the machine that is no change of the surroundings. -/
theorem carries_modify {change : Machine → Machine}
    (h : ∀ m : Machine, m.Has P F → (change m).Has P F ∧ (change m).host = m.host) :
    Carries P F (modify change) fun _ => True :=
  fun m hm => ⟨(h m hm).1, (h m hm).2, trivial⟩

theorem carries_present {o : Option α} (h : ∀ a, o = some a → post a) :
    Carries P F (present o) post := by
  cases o with
  | none => exact carries_throw _
  | some a => exact carries_pure (h a rfl)

theorem carries_anyPresent {o : Option α} : Carries P F (present o) fun _ => True :=
  carries_present fun _ _ => trivial

theorem carries_ofExcept {result : Except Fault α} (h : ∀ a, result = .ok a → post a) :
    Carries P F (ofExcept result) post := by
  cases result with
  | ok a => exact carries_pure (h a rfl)
  | error fault => exact carries_throw _

/-! ### Instructions and the stack

A value that is read from the stack has the property since every slot has, above the top as well;
one that is written has to be given with it. -/

theorem carries_jump (target : Nat) : Carries P F (jump target) fun _ => True :=
  carries_modify fun _ h => ⟨h.withFrame rfl, rfl⟩

/-- Going on in the running code. -/
theorem carries_advance (distance : Nat) :
    Carries P F (modify fun m => { m with frame :=
      { m.frame with position := m.frame.position + distance } } : Step Unit) fun _ => True :=
  carries_modify fun _ h => ⟨h.withFrame rfl, rfl⟩

theorem carries_nextByte : Carries P F nextByte fun _ => True :=
  carries_get fun _ _ => carries_anyPresent.bind fun _ _ => (carries_advance 1).bind fun _ _ =>
    carries_pure trivial

theorem carries_readByte : Carries P F readByte fun _ => True :=
  carries_nextByte.bind fun _ _ => carries_pure trivial

theorem carries_readWord : Carries P F readWord fun _ => True :=
  carries_get fun _ _ => carries_anyPresent.bind fun _ _ => carries_anyPresent.bind fun _ _ =>
    (carries_advance 2).bind fun _ _ => carries_pure trivial

theorem carries_setTop (top : Nat) : Carries P F (setTop top) fun _ => True :=
  carries_modify fun _ h => ⟨h.withTop top, rfl⟩

theorem carries_push (hvalue : P value) : Carries P F (push value) fun _ => True := by
  refine carries_get fun m _ => ?_
  dsimp only
  split
  · exact carries_throw _
  · exact carries_modify fun _ hm => ⟨(hm.setSlot m.top hvalue).withTop _, rfl⟩

theorem carries_pop : Carries P F pop P := by
  refine carries_get fun _ _ => ?_
  split
  · exact carries_throw _
  · exact (carries_setTop _).bind fun _ _ => carries_get fun m hm => carries_pure (hm.stack _)

theorem carries_below (count : Nat) : Carries P F (below count) fun _ => True := by
  refine carries_get fun m _ => ?_
  dsimp only
  split
  · exact carries_pure trivial
  · exact carries_throw _

theorem carries_slot (index : Nat) : Carries P F (slot index) P := by
  unfold slot
  split
  · exact carries_get fun _ hm => carries_pure (hm.stack index)
  · exact carries_throw _

theorem carries_setSlot (index : Nat) (hvalue : P value) :
    Carries P F (setSlot index value) fun _ => True := by
  unfold setSlot
  split
  · exact carries_modify fun _ hm => ⟨hm.setSlot index hvalue, rfl⟩
  · exact carries_throw _

theorem carries_valuesFrom (start : Nat) :
    Carries P F (valuesFrom start) fun values => ∀ v ∈ values, P v :=
  fun _ hm => ⟨hm, rfl, hm.slots start⟩

theorem carries_pairValues (start : Nat) :
    Carries P F (pairValues start) fun values => ∀ v ∈ values, P v := by
  refine carries_get fun m hm => (carries_valuesFrom start).bind fun values hvalues => ?_
  split
  · refine carries_pure fun v hv => ?_
    rcases List.mem_append.mp hv with hv | hv
    · exact hvalues v hv
    · obtain rfl := List.mem_singleton.mp hv
      exact hm.stack _
  · exact carries_pure hvalues

/-! ### Variables

The same for globals, cells and locals. Capturing a local takes its value from the stack to a new
cell, so it is still one that the machine could get at. -/

theorem carries_cell (id : CellId) : Carries P F (cell id) P :=
  carries_get fun _ hm => carries_present fun v hv => hm.cells v (Array.mem_of_getElem? hv)

theorem carries_setCell (id : CellId) (hvalue : P value) :
    Carries P F (setCell id value) fun _ => True :=
  carries_modify fun _ hm => ⟨hm.setCell id hvalue, rfl⟩

theorem carries_freeCell (index : Nat) : Carries P F (freeCell index) fun _ => True :=
  carries_get fun _ _ => carries_present fun _ _ => trivial

theorem carries_getLocal (index : Nat) : Carries P F (getLocal index) P := by
  refine carries_get fun m _ => ?_
  dsimp only
  split
  · exact carries_cell _
  · exact carries_slot _

theorem carries_setLocal (index : Nat) (hvalue : P value) :
    Carries P F (setLocal index value) fun _ => True := by
  refine carries_get fun m _ => ?_
  dsimp only
  split
  · exact carries_setCell _ hvalue
  · exact carries_setSlot _ hvalue

theorem carries_getGlobal (index : Nat) : Carries P F (getGlobal index) P := by
  refine carries_get fun m hm => ?_
  split
  · rename_i v hv
    exact carries_pure (hm.globals index v hv)
  · exact carries_throw _

theorem carries_setGlobal (index : Nat) (hvalue : P value) :
    Carries P F (setGlobal index value) fun _ => True :=
  carries_modify fun _ hm => ⟨hm.setGlobal index hvalue, rfl⟩

theorem carries_captureCell (capture : Capture) :
    Carries P F (captureCell capture) fun _ => True := by
  cases capture with
  | free index => exact carries_freeCell index
  | slot index =>
    refine carries_get fun _ _ => (carries_slot _).bind fun value hvalue m hm => ?_
    show Has P F { m with
      frame := (m.frame.capture index m.cells.size).2.2
      cells := if (m.frame.capture index m.cells.size).2.1 then m.cells.push value else m.cells }
        ∧ m.host = m.host ∧ True
    have hcode : (m.frame.capture index m.cells.size).2.2.code = m.frame.code := by
      unfold Frame.capture
      split <;> rfl
    refine ⟨⟨hm.constants, hm.stack, hm.globals, fun v hv => ?_, hcode ▸ hm.running, hm.waiting⟩,
      rfl, trivial⟩
    by_cases hnew : (m.frame.capture index m.cells.size).2.1
    · rw [if_pos hnew] at hv
      rcases Array.mem_push.mp hv with hv | rfl
      · exact hm.cells v hv
      · exact hvalue
    · rw [if_neg hnew] at hv
      exact hm.cells v hv

theorem carries_captureCells (captures : List Capture) :
    Carries P F (captureCells captures) fun _ => True := by
  induction captures with
  | nil => exact carries_pure trivial
  | cons capture rest ih =>
    exact (carries_captureCell capture).bind fun _ _ => ih.bind fun _ _ => carries_pure trivial

/-! ### Operations

Operators give scalars, which have every hereditary property; all other operations give values that
were there. -/

/-- The result of an operator is a scalar. -/
theorem carries_scalar (hP : Value.Hereditary P) {result : Except Fault Value}
    (h : Value.Operates result) : Carries P F (ofExcept result) P := by
  refine carries_ofExcept fun v hv => ?_
  rw [hv] at h
  exact hP.scalar h

theorem carries_binary (hP : Value.Hereditary P) (op : Op) :
    Carries P F (binary op) fun _ => True :=
  carries_pop.bind fun right _ => carries_pop.bind fun left _ =>
    (carries_scalar hP (Value.infixOp_operates (operatorToken op) left right)).bind
      fun _ hv => carries_push hv

theorem carries_unary (hP : Value.Hereditary P) (op : Token) :
    Carries P F (unary op) fun _ => True :=
  carries_pop.bind fun operand _ => (carries_scalar hP (Value.prefixOp_operates op operand)).bind
    fun _ hv => carries_push hv

theorem carries_insertPairs : (values : List Value) → (∀ v ∈ values, P v) →
    ∀ entries : List (Entry Value), (∀ e ∈ entries, P e.shown ∧ P e.value) →
      Carries P F (insertPairs entries values) fun entries => ∀ e ∈ entries, P e.shown ∧ P e.value
  | [], _, _, hentries => carries_pure hentries
  | [_], _, _, _ => carries_throw _
  | shown :: value :: rest, hvalues, entries, hentries => by
    have hshown := hvalues shown (by simp)
    have hvalue := hvalues value (by simp)
    have hinsert : Carries P F (ofExcept (Value.insertPair entries shown value))
        fun entries => ∀ e ∈ entries, P e.shown ∧ P e.value := by
      refine carries_ofExcept fun entries' h => ?_
      unfold Value.insertPair at h
      split at h <;> cases h
      exact Value.insert_of_hereditary ⟨hshown, hvalue⟩ hentries
    exact hinsert.bind fun entries' h =>
      carries_insertPairs rest (fun v hv => hvalues v (by simp [hv])) entries' h

theorem carries_enterClosure {code : FunctionCode} (hcode : F code) (cells : Array CellId)
    (count : Nat) : Carries P F (enterClosure code cells count) fun _ => True := by
  unfold enterClosure
  split
  · exact carries_throw _
  · refine (carries_below count).bind fun base _ => carries_get fun m _ => ?_
    split
    · exact carries_throw _
    · exact carries_modify fun _ h => ⟨⟨h.constants, h.stack, h.globals, h.cells, hcode,
        List.forall_mem_cons.mpr ⟨h.running, h.waiting⟩⟩, rfl⟩

/-- Going back to a caller. -/
theorem carries_return {caller : Frame} {callers : List Frame}
    (hcallers : ∀ frame ∈ caller :: callers, F frame.code) (top : Nat) :
    Carries P F (modify fun m => { m with frame := caller, callers, top } : Step Unit)
      fun _ => True :=
  carries_modify fun _ h => ⟨⟨h.constants, h.stack, h.globals, h.cells,
    (List.forall_mem_cons.mp hcallers).1, (List.forall_mem_cons.mp hcallers).2⟩, rfl⟩

theorem carries_leave {result : Value} (hresult : P result) :
    Carries P F (leave result) fun _ => True := by
  refine carries_get fun m hm => ?_
  split
  · exact carries_throw _
  · rename_i caller callers hcallers
    split
    · exact carries_throw _
    · exact (carries_return (hcallers ▸ hm.waiting) _).bind fun _ _ => carries_push hresult

end Carries

/-! ## Steps

A step that draws an identity does so right before it puts the value on the stack. `Draws` therefore
says two things of the end of a step, depending on whether one has been drawn. -/

/-- Operations that make a value with an identity. -/
def Op.makes : Op → Bool
  | .array | .hash | .closure => true
  | _ => false

/-- The end of a step, which puts a value on top of the stack. -/
def Puts (x : Step Unit) (value : Value) : Prop :=
  ∀ m : Machine, match x m with
    | .ok _ m' => m'.host = m.host ∧ m'.stackTop = value
        ∧ ∀ (P : Value → Prop) (F : FunctionCode → Prop), m.Has P F → P value → m'.Has P F
    | .error _ _ => True

/-- **What a step does that draws an identity**: the value that it makes is put on top of the stack.
Only a step that `passes` values on may do without.

The second part is said for any property `Q` that contains `P` and holds of the new value, since the
new value can only be known to have been made once it has been. -/
def Draws (P : Value → Prop) (F : FunctionCode → Prop) (passes : Prop) (x : Step Unit) : Prop :=
  ∀ m : Machine, m.Has P F →
    match x m with
    | .ok _ m' => passes ∧ m'.host.fresh = m.host.fresh ∧ m'.Has P F
        ∨ m'.host.fresh = m.host.fresh + 1 ∧ m'.stackTop.New P F m.host.fresh
          ∧ ∀ Q : Value → Prop, (∀ v, P v → Q v) → Q m'.stackTop → m'.Has Q F
    | .error _ _ => True

section Draws

variable {α : Type} {P : Value → Prop} {F : FunctionCode → Prop} {passes : Prop} {x : Step α}
  {f : α → Step Unit} {mid : α → Prop}

theorem puts_push (value : Value) : Puts (push value) value := by
  intro m
  by_cases hroom : m.top < stackSize
  · rw [push_eq hroom]
    exact ⟨rfl, stackTop_pushed m value, fun P F hm hvalue => hm.pushed hvalue⟩
  · rw [push_overflow (Nat.le_of_not_lt hroom)]
    trivial

/-- The value takes the place of what was on the stack from `top` on. -/
theorem puts_setTop_push (top : Nat) (value : Value) :
    Puts (setTop top >>= fun _ => push value) value := by
  intro m
  have hpush := puts_push value (m.withTop top)
  have hrun : (setTop top >>= fun _ => push value) m = push value (m.withTop top) := rfl
  rw [hrun]
  split
  · rename_i hr
    rw [hr] at hpush
    exact ⟨hpush.1, hpush.2.1, fun P F hm => hpush.2.2 P F (hm.withTop top)⟩
  · trivial

theorem draws_throw (stop : Stop) : Draws P F passes (throw stop) :=
  fun _ _ => trivial

theorem Carries.draws {x : Step Unit} (h : Carries P F x fun _ => True) (hpasses : passes) :
    Draws P F passes x := by
  intro m hm
  have hx := h m hm
  split
  · rename_i hr
    rw [hr] at hx
    exact .inl ⟨hpasses, congrArg Host.fresh hx.2.1, hx.1⟩
  · trivial

theorem Draws.mono {x : Step Unit} {passes' : Prop} (h : Draws P F passes x)
    (hpasses : passes → passes') : Draws P F passes' x := by
  intro m hm
  have hx := h m hm
  split
  · rename_i hr
    rw [hr] at hx
    exact hx.imp_left fun hpart => ⟨hpasses hpart.1, hpart.2⟩
  · trivial

theorem Carries.bind_draws (h : Carries P F x mid) (hf : ∀ a, mid a → Draws P F passes (f a)) :
    Draws P F passes (x >>= f) := by
  intro m hm
  have hx := h m hm
  cases hr : x m with
  | error stop m₁ =>
    rw [bind_error hr]
    trivial
  | ok a m₁ =>
    rw [hr] at hx
    have hy := hf a hx.2.2 m₁ hx.1
    rw [hx.2.1] at hy
    rw [bind_ok hr]
    exact hy

/-- A step ends with a value that an effect on the surroundings gives. -/
theorem draws_onHost {action : HostM α} {g : α → Value}
    (h : ∀ host, match action host with
      | .ok a host' => passes ∧ host'.fresh = host.fresh ∧ P (g a)
        ∨ host'.fresh = host.fresh + 1 ∧ (g a).New P F host.fresh
      | .error _ _ => True)
    (hputs : ∀ a, Puts (f a) (g a)) :
    Draws P F passes (onHost action >>= f) := by
  intro m hm
  have hgives := h m.host
  cases haction : action m.host with
  | error halt host =>
    rw [bind_error (onHost_error haction)]
    trivial
  | ok a host =>
    rw [haction] at hgives
    have hput := hputs a (m.withHost host)
    rw [bind_ok (onHost_ok haction)]
    split
    · rename_i m' hr
      rw [hr] at hput
      obtain ⟨hhost, htop, hhas⟩ := hput
      have hfresh : m'.host.fresh = host.fresh := congrArg Host.fresh hhost
      -- a value that was there before, or one with the next identity
      rcases hgives with ⟨hpasses, hsame, hvalue⟩ | ⟨hdrawn, hnew⟩
      · exact .inl ⟨hpasses, hfresh.trans hsame, hhas P F (hm.withHost host) hvalue⟩
      · refine .inr ⟨hfresh.trans hdrawn, htop ▸ hnew, fun Q hPQ hvalue => ?_⟩
        exact hhas Q F ((hm.mono hPQ).withHost host) (htop ▸ hvalue)
    · trivial

theorem draws_get {f : Machine → Step Unit}
    (h : ∀ m : Machine, m.Has P F → Draws P F passes (f m)) : Draws P F passes (get >>= f) :=
  fun m hm => h m hm m hm

/-- **Properties that no step can lose**: a hereditary property of values and a property of code
that goes with it. -/
structure Lasting (P : Value → Prop) (F : FunctionCode → Prop) : Prop extends
    Value.Hereditary P where
  code : ∀ v code, P v → v.code? = some code → F code

theorem draws_call (hP : Lasting P F) (count : Nat) : Draws P F True (call count) := by
  refine (carries_below _).bind_draws fun callee _ => (carries_slot callee).bind_draws
    fun value hvalue => ?_
  split
  · exact (carries_enterClosure (hP.code _ _ hvalue rfl) _ _).draws trivial
  · rename_i builtin
    refine (carries_valuesFrom _).bind_draws fun args hargs => ?_
    refine draws_onHost (g := id) (fun host => ?_) fun result => puts_setTop_push callee result
    -- a built-in function that draws an identity makes an array of parts of its arguments
    have hgives := Builtin.gives_call hP.toHereditary builtin hargs host
    cases hcall : builtin.call args host with
    | error halt host' => trivial
    | ok result host' =>
      rw [hcall] at hgives
      refine hgives.imp (fun hpart => ⟨trivial, hpart⟩) ?_
      rintro ⟨-, hfresh, elements, rfl, helements⟩
      exact ⟨hfresh, rfl, helements, nofun⟩
  · exact draws_throw _

theorem draws_makeClosure (hP : Lasting P F) (index count : Nat) :
    Draws P F passes (makeClosure index count) := by
  refine draws_get fun m hm => ?_
  have hpresent : Carries P F (present m.constants[index]?) P :=
    carries_present fun v hv => hm.constants v (Array.mem_of_getElem? hv)
  refine hpresent.bind_draws fun constant hconstant => ?_
  split
  · rename_i id code
    refine (carries_captureCells _).bind_draws fun cells _ => ?_
    refine draws_onHost (g := fun id => .closure id code cells.toArray) (fun _ => .inr ?_)
      fun id => puts_push _
    refine ⟨rfl, rfl, trivial, ?_⟩
    rintro _ ⟨⟩
    exact hP.code _ _ hconstant rfl
  · exact draws_throw _

/-- An operation that makes no value with an identity. -/
theorem carries_execute (hP : Value.Hereditary P) {op : Op} (h : Op.makes op = false)
    (hcall : op ≠ .call) : Carries P F (execute op) fun _ => True := by
  cases op with
  | array | hash | closure => cases h
  | call => exact absurd rfl hcall
  -- what is pushed by these is a constant, a value without an identity or what a place has held
  | constant =>
    exact carries_readWord.bind fun index _ => carries_get fun m hm =>
      (carries_present fun v hv => hm.constants v (Array.mem_of_getElem? hv)).bind
        fun v hv => carries_push hv
  | pop => exact carries_pop.bind fun _ _ => carries_pure trivial
  | pushTrue | pushFalse | pushNull => exact carries_push (hP.plain _ rfl)
  | bang | minus => exact carries_unary hP _
  | jump => exact carries_readWord.bind fun target _ => carries_jump target
  | jumpNotTruthy =>
    refine carries_readWord.bind fun target _ => carries_pop.bind fun test _ => ?_
    split
    · exact carries_jump target
    · exact carries_pure trivial
  | getGlobal =>
    exact carries_readWord.bind fun index _ => (carries_getGlobal index).bind
      fun v hv => carries_push hv
  | setGlobal =>
    exact carries_readWord.bind fun index _ => carries_pop.bind
      fun v hv => carries_setGlobal index hv
  | getLocal =>
    exact carries_readByte.bind fun index _ => (carries_getLocal index).bind
      fun v hv => carries_push hv
  | setLocal =>
    exact carries_readByte.bind fun index _ => carries_pop.bind
      fun v hv => carries_setLocal index hv
  | getFree =>
    exact carries_readByte.bind fun index _ => (carries_freeCell index).bind fun id _ =>
      (carries_cell id).bind fun v hv => carries_push hv
  | setFree =>
    exact carries_readByte.bind fun index _ => carries_pop.bind fun v hv =>
      (carries_freeCell index).bind fun id _ => carries_setCell id hv
  | getBuiltin =>
    refine carries_readByte.bind fun index _ => carries_get fun m _ => ?_
    split
    · exact carries_push (hP.plain _ rfl)
    · exact carries_throw _
  -- an element of a container is a part of it
  | index =>
    exact carries_pop.bind fun subscript _ => carries_pop.bind fun container hcontainer =>
      (carries_ofExcept fun v hv => Value.subscript_of_hereditary hP hcontainer hv).bind
        fun v hv => carries_push hv
  | returnValue => exact carries_pop.bind fun v hv => carries_leave hv
  | returnNull => exact carries_leave (hP.plain _ rfl)
  | _ => exact carries_binary hP _

/-- **What an operation does with the values that a machine can get at.** An operation that makes a
value draws an identity whenever it succeeds. All others draw none, but for calls: a built-in
function may. -/
theorem draws_execute (hP : Lasting P F) (op : Op) :
    Draws P F (Op.makes op = false) (execute op) := by
  cases op with
  | array =>
    refine carries_readWord.bind_draws fun count _ => (carries_below count).bind_draws
      fun start _ => (carries_valuesFrom start).bind_draws fun elements helements => ?_
    exact draws_onHost (g := id) (fun _ => .inr ⟨rfl, rfl, helements, nofun⟩)
      fun value => puts_setTop_push start value
  | hash =>
    refine carries_readWord.bind_draws fun count _ => (carries_below count).bind_draws
      fun start _ => (carries_pairValues start).bind_draws fun values hvalues => ?_
    refine (carries_insertPairs values hvalues [] (by simp)).bind_draws fun entries hentries => ?_
    exact draws_onHost (g := id) (fun _ => .inr ⟨rfl, rfl, hentries, nofun⟩)
      fun value => puts_setTop_push start value
  | call =>
    exact carries_readByte.bind_draws fun count _ => (draws_call hP count).mono fun _ => rfl
  | closure =>
    exact carries_readWord.bind_draws fun index _ => carries_readByte.bind_draws
      fun count _ => draws_makeClosure hP index count
  | _ => exact (carries_execute hP.toHereditary rfl (by decide)).draws rfl

theorem draws_step (hP : Lasting P F) : Draws P F True step := by
  refine draws_get fun m _ => ?_
  dsimp only
  split
  · exact draws_throw _
  · refine carries_nextByte.bind_draws fun byte _ => ?_
    split
    · exact (draws_execute hP _).mono fun _ => trivial
    · exact draws_throw _

end Draws

/-! ## Runs

What is known of the values of a run, step by step. -/

/-- Every property that all values have is kept. -/
theorem lasting_true : Lasting (fun _ => True) fun _ => True :=
  ⟨⟨fun _ _ => trivial, fun v _ => by cases v <;> simp [Value.Parts]⟩, fun _ _ _ _ => trivial⟩

theorem has_true (m : Machine) : m.Has (fun _ => True) fun _ => True :=
  ⟨fun _ _ => trivial, fun _ => trivial, fun _ _ _ => trivial, fun _ _ => trivial, trivial,
    fun _ _ => trivial⟩

/-- The operation that is executed next. -/
def nextOp? (m : Machine) : Option Op :=
  m.frame.code.code[m.frame.position]?.bind Op.ofByte?

/-- The number of arguments and the callee of the call that is executed next. -/
def calling? (m : Machine) : Option (Nat × Value) :=
  match m.frame.code.code[m.frame.position]?, m.frame.code.code[m.frame.position + 1]? with
  | some op, some count =>
    if op = Op.call.byte then some (count.toNat, m.stack.read (m.top - (count.toNat + 1)))
    else none
  | _, _ => none

/-- **Whether the next instruction makes a value with an identity**: it stands for a literal for an
array, a hash or a function, or calls a built-in function that makes arrays. -/
def makes (m : Machine) : Bool :=
  m.nextOp?.any Op.makes ||
    match m.calling? with
    | some (_, .builtin builtin) => builtin.makes
    | _ => false

/-- **The value that the next step makes.** An instruction of any other kind makes none, whatever it
does with values that there are. Nor does a call of `push` or `rest` that has `null` as its result:
no identity is drawn. -/
def made? (m : Machine) : Option Value :=
  match step m with
  | .ok _ m' => if m.makes ∧ m.host.fresh < m'.host.fresh then some m'.stackTop else none
  | .error _ _ => none

/-- A value has been made before the step `k` of a run. -/
def Made (m₀ : Machine) (k : Nat) (value : Value) : Prop :=
  ∃ j < k, ∃ m, run j m₀ = (.running, m) ∧ m.made? = some value

section Runs

variable {m m₀ m₁ m₂ m' : Machine} {j k : Nat} {v w : Value}

/-- Only built-in functions that make arrays draw an identity when they are called. -/
theorem call_draws {count : Nat} (h : call count m = .ok () m')
    (hdrawn : m'.host.fresh ≠ m.host.fresh) :
    ∃ builtin, m.stack.read (m.top - (count + 1)) = .builtin builtin ∧ builtin.makes = true := by
  obtain ⟨-, hclosure | hbuiltin⟩ := call_inv h
  · obtain ⟨id, code, cells, -, hentered⟩ := hclosure
    -- what a closure makes is made by its body later on, not by the call
    have henter : Carries (fun _ => True) (fun _ => True) (enterClosure code cells count)
        fun _ => True := carries_enterClosure trivial cells count
    have hcarries := henter m (has_true m)
    rw [hentered] at hcarries
    exact absurd (congrArg Host.fresh hcarries.2.1) hdrawn
  · obtain ⟨builtin, result, host, hcallee, hcall, hputs⟩ := hbuiltin
    have hgives := Builtin.gives_call lasting_true.toHereditary builtin
      (fun _ _ => trivial : ∀ v ∈ m.slots (m.top - (count + 1) + 1), True) m.host
    have hput := puts_setTop_push (m.top - (count + 1)) result (m.withHost host)
    rw [hputs] at hput
    rw [hcall] at hgives
    rcases hgives with ⟨hsame, -⟩ | ⟨hmakes, -⟩
    · exact absurd ((congrArg Host.fresh hput.1).trans hsame) hdrawn
    · exact ⟨builtin, hcallee, hmakes⟩

/-- **Identities are drawn where values are made.** A step that draws one executes a literal or
calls a built-in function that makes arrays. -/
theorem makes_of_drawn (h : step m = .ok () m') (hdrawn : m'.host.fresh ≠ m.host.fresh) :
    m.makes = true := by
  obtain ⟨op, hbyte, hexecute⟩ := step_inv h
  have hnext : m.nextOp? = some op := by rw [nextOp?, hbyte, Option.bind_some, Op.ofByte?_byte]
  unfold makes
  by_cases hop : Op.makes op = true
  · rw [hnext, Option.any_some, hop, Bool.true_or]
  by_cases hcall : op = .call
  · subst hcall
    obtain ⟨count, m₁, hread, hcalled⟩ := bind_eq_ok hexecute
    obtain ⟨byte, m₂, hbyte', hcount⟩ := bind_eq_ok hread
    obtain ⟨hcount', rfl⟩ := nextByte_inv hbyte'
    cases hcount
    -- a call that has drawn an identity was one of a built-in function
    obtain ⟨builtin, hcallee, hmakes⟩ := call_draws hcalled hdrawn
    have hcalling : m.calling? = some (byte.toNat, .builtin builtin) := by
      unfold calling?
      rw [hbyte, show m.frame.code.code[m.frame.position + 1]? = some byte from hcount']
      exact (if_pos rfl).trans (congrArg (fun v => some (byte.toNat, v)) hcallee)
    rw [hcalling]
    exact (congrArg _ hmakes).trans (Bool.or_true _)
  -- all other operations leave the counter alone
  · have hcarries := carries_execute lasting_true.toHereditary
      (Bool.eq_false_iff.mpr hop) hcall (F := fun _ => True) (m.advance 1) (has_true _)
    rw [hexecute] at hcarries
    exact absurd (congrArg Host.fresh hcarries.2.1) hdrawn

/-- **A step draws at most one identity**, that of the value that it makes. -/
theorem step_draws (h : step m = .ok () m') :
    m'.host.fresh = m.host.fresh ∧ m.made? = none
      ∨ m'.host.fresh = m.host.fresh + 1 ∧ m.made? = some m'.stackTop
        ∧ m'.stackTop.identity? = some m.host.fresh := by
  have hdraws := draws_step lasting_true m (has_true m)
  unfold made?
  rw [h] at hdraws ⊢
  rcases hdraws with ⟨-, hsame, -⟩ | ⟨hdrawn, hnew, -⟩
  · exact .inl ⟨hsame, if_neg (by omega)⟩
  · have hmakes := makes_of_drawn h (by omega)
    exact .inr ⟨hdrawn, if_pos ⟨hmakes, by omega⟩, hnew.identity⟩

theorem made?_eq (h : m.made? = some v) :
    v.identity? = some m.host.fresh
      ∧ ∃ m', step m = .ok () m' ∧ m'.stackTop = v ∧ m'.host.fresh = m.host.fresh + 1 := by
  cases hstep : step m with
  | error stop m' =>
    unfold made? at h
    rw [hstep] at h
    cases h
  | ok _ m' =>
    rcases step_draws hstep with ⟨-, hnone⟩ | ⟨hdrawn, hsome, hid⟩
    · rw [hnone] at h
      cases h
    · cases hsome.symm.trans h
      exact ⟨hid, m', rfl, rfl, hdrawn⟩

theorem step_eq_execute {op : Op}
    (h : m.frame.code.code[m.frame.position]? = some op.byte) :
    step m = execute op (m.advance 1) := by
  have hsize := (Array.getElem?_eq_some_iff.mp h).1
  unfold step
  rw [bind_ok get_eq, if_neg (by omega), bind_ok (nextByte_eq h), Op.ofByte?_byte]

/-- A step that executes a literal makes a value. -/
theorem step_makes {op : Op} (h : m.frame.code.code[m.frame.position]? = some op.byte)
    (hop : Op.makes op = true) (hstep : step m = .ok () m') : m.made? = some m'.stackTop := by
  have hdraws := draws_execute lasting_true op (m.advance 1) (has_true _)
  rw [← step_eq_execute h, hstep] at hdraws
  rcases hdraws with ⟨hpasses, -⟩ | ⟨hdrawn, -⟩
  · rw [hop] at hpasses
    cases hpasses
  · rcases step_draws hstep with ⟨hsame, -⟩ | ⟨-, hmade, -⟩
    · have hhost : (m.advance 1).host.fresh = m.host.fresh := rfl
      omega
    · exact hmade

/-- A run is going on after one more step if that step does not stop it. -/
theorem run_succ_running :
    run (k + 1) m₀ = (.running, m') ↔ ∃ m, run k m₀ = (.running, m) ∧ step m = .ok () m' := by
  induction k generalizing m₀ with
  | zero =>
    simp only [run]
    cases hstep : step m₀ with
    | ok _ m =>
      constructor
      · rintro ⟨⟩
        exact ⟨m₀, rfl, hstep⟩
      · rintro ⟨_, ⟨⟩, hnext⟩
        cases hstep.symm.trans hnext
        rfl
    | error stop m =>
      constructor
      · rintro ⟨⟩
      · rintro ⟨_, ⟨⟩, hnext⟩
        cases hstep.symm.trans hnext
  | succ k ih =>
    unfold run
    cases hstep : step m₀ with
    | ok _ m => exact ih
    | error stop m =>
      constructor
      · rintro ⟨⟩
      · rintro ⟨_, ⟨⟩, -⟩

/-- Identities are drawn in turn. -/
theorem run_fresh (hle : j ≤ k) (h₁ : run j m₀ = (.running, m₁))
    (h₂ : run k m₀ = (.running, m₂)) : m₁.host.fresh ≤ m₂.host.fresh := by
  induction hle generalizing m₂ with
  | refl =>
    cases h₁.symm.trans h₂
    exact Nat.le_refl _
  | step _ ih =>
    obtain ⟨m, hm, hstep⟩ := run_succ_running.mp h₂
    refine Nat.le_trans (ih hm) ?_
    rcases step_draws hstep with ⟨hsame, -⟩ | ⟨hdrawn, -⟩ <;> omega

/-- What is made in a step has an identity below those drawn later. -/
theorem Made.identity_lt (h : Made m₀ k v) (h₂ : run k m₀ = (.running, m₂)) :
    ∃ id, v.identity? = some id ∧ m₀.host.fresh ≤ id ∧ id < m₂.host.fresh := by
  obtain ⟨j, hj, m₁, h₁, hmade⟩ := h
  obtain ⟨hid, m', hstep, -, hdrawn⟩ := made?_eq hmade
  have hfirst := run_fresh (Nat.zero_le j) rfl h₁
  have hlast := run_fresh hj (run_succ_running.mpr ⟨m₁, h₁, hstep⟩) h₂
  rw [hdrawn] at hlast
  exact ⟨_, hid, hfirst, hlast⟩

/-- **A value is a constant, or has been made before the step `k` of a run.** -/
def Originates (exe : Executable) (m₀ : Machine) (k : Nat) (value : Value) : Prop :=
  value ∈ exe.constants ∨ Made m₀ k value

theorem Originates.mono {exe : Executable} (h : Originates exe m₀ j v) (hle : j ≤ k) :
    Originates exe m₀ k v :=
  h.imp_right fun ⟨i, hi, hmade⟩ => ⟨i, Nat.lt_of_lt_of_le hi hle, hmade⟩

end Runs

end Machine

end Scriptlet
