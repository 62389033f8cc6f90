import Scriptlet.Compilation
import Scriptlet.Proofs.Machine.Effects

/-!
# Runs outside of functions

A run is followed from one point of the code to the next. `Arrives` says that it gets there unless
there is no room on the stack, and `Stops` that it ends in a certain way. `TopLevel` is the state of
a machine that runs no function: everything on its stack is an operand. Each operation has a lemma
that says where it leads.

These lemmas are the only ones about agreement that look into the machine. Behind this module, what
an instruction does is a statement of the form "from a machine with these operands the run arrives
at one with those".
-/

namespace Scriptlet.Machine

/-! ## Runs

A run of the machine is a function of its fuel. `RunsTo` hides the fuel: so many steps lead from one
state to another, whatever fuel there is beyond. The outcome that the machine overflows is a
disjunct of `Arrives` and `Halts`, so that it is dealt with here once and for all. -/

/-- **Some steps lead from one state to another**, with any fuel that is left for what comes
behind. -/
def RunsTo (m m' : Machine) : Prop :=
  ∃ n, ∀ fuel, run (n + fuel) m = run fuel m'

/-- The machine stops in a state with a property. -/
def Stops (m : Machine) (stop : Stop) (goal : Machine → Prop) : Prop :=
  ∃ n m', run n m = (.stopped stop, m') ∧ goal m'

/-- The machine stops for want of room on the stack. -/
def Overflows (m : Machine) : Prop :=
  m.Stops (.halted (.fault .stackOverflow)) fun _ => True

/-- **The machine gets to a state with a property**, unless there is no room on the stack. -/
def Arrives (m : Machine) (goal : Machine → Prop) : Prop :=
  m.Overflows ∨ ∃ m', m.RunsTo m' ∧ goal m'

/-- The machine stops in a state with a property, or for want of room on the stack. -/
def Halts (m : Machine) (stop : Stop) (goal : Machine → Prop) : Prop :=
  m.Overflows ∨ m.Stops stop goal

variable {m m' m'' : Machine} {stop : Stop} {goal goal' : Machine → Prop}

theorem RunsTo.refl (m : Machine) : m.RunsTo m :=
  ⟨0, fun fuel => by rw [Nat.zero_add]⟩

/-- The numbers of steps add up. -/
theorem RunsTo.trans (h : m.RunsTo m') (h' : m'.RunsTo m'') : m.RunsTo m'' := by
  obtain ⟨n, hn⟩ := h
  obtain ⟨n', hn'⟩ := h'
  exact ⟨n + n', fun fuel => by rw [Nat.add_assoc, hn, hn']⟩

theorem RunsTo.of_step (h : step m = .ok () m') : m.RunsTo m' := by
  refine ⟨1, fun fuel => ?_⟩
  rw [Nat.add_comm, run, h]

theorem Stops.before (h : m.RunsTo m') (hstop : m'.Stops stop goal) : m.Stops stop goal := by
  obtain ⟨n, hn⟩ := h
  obtain ⟨n', m'', hrun, hgoal⟩ := hstop
  exact ⟨n + n', m'', by rw [hn, hrun], hgoal⟩

theorem Stops.of_step (h : step m = .error stop m') (hgoal : goal m') : m.Stops stop goal :=
  ⟨1, m', by rw [run, h], hgoal⟩

theorem Arrives.here (h : goal m) : m.Arrives goal :=
  .inr ⟨m, .refl m, h⟩

theorem Arrives.before (h : m.RunsTo m') (harrives : m'.Arrives goal) : m.Arrives goal := by
  rcases harrives with hover | ⟨m'', hruns, hgoal⟩
  · exact .inl (hover.before h)
  · exact .inr ⟨m'', h.trans hruns, hgoal⟩

/-- What is reached from a state that is reached is reached. An overflow on either part is one of
the whole. -/
theorem Arrives.bind (h : m.Arrives goal) (h' : ∀ m', goal m' → m'.Arrives goal') :
    m.Arrives goal' := by
  rcases h with hover | ⟨m', hruns, hgoal⟩
  · exact .inl hover
  · exact .before hruns (h' m' hgoal)

theorem Arrives.mono (h : m.Arrives goal) (h' : ∀ m', goal m' → goal' m') : m.Arrives goal' :=
  h.bind fun m' hm' => .here (h' m' hm')

theorem Arrives.halts (h : m.Arrives goal) (h' : ∀ m', goal m' → m'.Halts stop goal') :
    m.Halts stop goal' := by
  rcases h with hover | ⟨m', hruns, hgoal⟩
  · exact .inl hover
  · exact (h' m' hgoal).imp (·.before hruns) (·.before hruns)

/-! ## Machines outside of functions

Without function calls there is one frame, whose code is that of the program, and all slots of the
stack are operands. So the stack is a list, which is simpler than the memory that the machine
has. -/

/-- **A machine that runs no function stands at position `p`**, with the operands `ops` on its
stack, the one on top first. Slots above the top may hold anything; the one directly above it is the
value that was popped last. -/
structure TopLevel (exe : Executable) (table : BuiltinTable) (p : Nat) (ops : List Value)
    (globals : Memory (Option Value)) (host : Host) (m : Machine) : Prop where
  constants : m.constants = exe.constants
  names : m.names = exe.globals
  builtins : m.builtins = table
  code : m.frame.code.code = exe.code
  position : m.frame.position = p
  callers : m.callers = []
  top : m.top = ops.length
  room : ops.length ≤ stackSize
  stack : ∀ (i : Nat) (value : Value), ops.reverse[i]? = some value → m.stack.read i = value
  globals : m.globals = globals
  host : m.host = host

section TopLevel

variable {exe : Executable} {table : BuiltinTable} {p : Nat} {ops : List Value}
  {globals : Memory (Option Value)} {host : Host} {value : Value} {code : Code}
  {operands : List Nat}

theorem TopLevel.advance (h : TopLevel exe table p ops globals host m) (bytes : Nat) :
    TopLevel exe table (p + bytes) ops globals host (m.advance bytes) :=
  { h with position := congrArg (· + bytes) h.position }

theorem TopLevel.goTo (h : TopLevel exe table p ops globals host m) (target : Nat) :
    TopLevel exe table target ops globals host (m.goTo target) :=
  { h with position := rfl }

theorem TopLevel.withHost (h : TopLevel exe table p ops globals host m) (host' : Host) :
    TopLevel exe table p ops globals host' (m.withHost host') :=
  { h with host := rfl }

/-- One operand more. The slot that it is written to is above all others, so those keep their
values. -/
theorem TopLevel.pushed (h : TopLevel exe table p ops globals host m)
    (hroom : ops.length < stackSize) (value : Value) :
    TopLevel exe table p (value :: ops) globals host (m.pushed value) := by
  refine { h with top := congrArg (· + 1) h.top, room := hroom, stack := fun i v hv => ?_ }
  show (m.stack.write m.top value).read i = v
  rw [Memory.read_write, h.top]
  rw [List.reverse_cons, List.getElem?_append, List.length_reverse] at hv
  split at hv
  · rw [if_neg (by omega)]
    exact h.stack i v hv
  · have hi : i = ops.length := by
      have := (List.getElem?_eq_some_iff.mp hv).1
      rw [List.length_singleton] at this
      omega
    rw [if_pos hi]
    rw [hi, Nat.sub_self] at hv
    exact Option.some.inj hv

/-- Fewer slots are in use. -/
theorem TopLevel.withTop {above : List Value}
    (h : TopLevel exe table p (above ++ ops) globals host m) :
    TopLevel exe table p ops globals host (m.withTop ops.length) := by
  have hroom := h.room
  rw [List.length_append] at hroom
  refine { h with top := rfl, room := by omega, stack := fun i v hv => h.stack i v ?_ }
  rw [List.reverse_append, List.getElem?_append_left (List.getElem?_eq_some_iff.mp hv).1]
  exact hv

theorem TopLevel.stackTop_eq (h : TopLevel exe table p (value :: ops) globals host m) :
    m.stackTop = value := by
  have htop := h.top
  have hread := h.stack ops.length value (by simp)
  unfold stackTop
  rw [htop, List.length_cons]
  exact hread

theorem TopLevel.popped (h : TopLevel exe table p (value :: ops) globals host m) :
    TopLevel exe table p ops globals host m.popped := by
  have htop : m.top - 1 = ops.length := by rw [h.top, List.length_cons, Nat.add_sub_cancel]
  unfold Machine.popped
  rw [htop]
  have h : TopLevel exe table p ([value] ++ ops) globals host m := h
  exact h.withTop

theorem TopLevel.pop_eq (h : TopLevel exe table p (value :: ops) globals host m) :
    pop m = .ok value m.popped := by
  rw [Machine.pop_eq (by rw [h.top]; simp), h.stackTop_eq]

/-- The values on top of others are those of the slots above them. The list of operands starts at
the top, so it comes out reversed. -/
theorem TopLevel.slots_eq {values : List Value}
    (h : TopLevel exe table p (values.reverse ++ ops) globals host m) :
    m.slots ops.length = values := by
  have hlength : m.top - ops.length = values.length := by
    rw [h.top, List.length_append, List.length_reverse, Nat.add_sub_cancel]
  unfold slots
  rw [hlength]
  refine List.ext_getElem (by simp) fun i hi hi' => ?_
  rw [List.getElem_map, List.getElem_range]
  refine h.stack _ _ ?_
  rw [List.reverse_append, List.reverse_reverse,
    List.getElem?_append_right (by rw [List.length_reverse]; exact Nat.le_add_right _ _),
    List.length_reverse, Nat.add_sub_cancel_left]
  exact List.getElem?_eq_getElem hi'

/-! ## Single steps

The operation and the operands of an instruction are read from the code, so a step is `perform` on
what stands there. The operands have been written by the compiler, and they fit, so they are read
back as they were. -/

/-- **A step leads to a state with a property, unless there is no room on the stack.** This is about
one step; `Lands.arrives` makes a run of it. -/
def Lands (goal : Machine → Prop) : EStateM.Result Stop Machine Unit → Prop
  | .ok () m => goal m
  | .error stop _ => stop = .halted (.fault .stackOverflow)

theorem Lands.arrives (h : Lands goal (step m)) : m.Arrives goal := by
  cases hstep : step m with
  | ok _ m' =>
    rw [hstep] at h
    exact .inr ⟨m', .of_step hstep, h⟩
  | error stop m' =>
    rw [hstep] at h
    obtain rfl : stop = _ := h
    exact .inl (.of_step hstep trivial)

/-- Pushing is the step that may find no room. -/
theorem TopLevel.push_lands (h : TopLevel exe table p ops globals host m) (value : Value) :
    Lands (TopLevel exe table p (value :: ops) globals host) (push value m) := by
  by_cases hroom : ops.length < stackSize
  · rw [push_eq (by rwa [h.top])]
    exact h.pushed hroom value
  · rw [push_overflow (by rw [h.top]; omega)]
    exact rfl

/-- Where an instruction stands, a step performs it. -/
theorem TopLevel.step_eq (h : TopLevel exe table p ops globals host m) {op : Op}
    (hinstr : InstrAt exe.code p op operands) :
    step m = perform op (readBack op.widths operands) (m.advance op.size) := by
  refine step_eq_perform ?_
  rw [h.code, h.position]
  exact hinstr

theorem readBack_word {n : Nat} (h : n < 65536) : readBack [2] [n] = [n] := by
  simp only [readBack, List.cons.injEq, and_true]
  omega

theorem readBack_byte {n : Nat} (h : n < 256) : readBack [1] [n] = [n] := by
  simp only [readBack, List.cons.injEq, and_true]
  omega

/-- A constant by its index. -/
theorem TopLevel.constant (h : TopLevel exe table p ops globals host m) {i : Nat}
    (hinstr : InstrAt exe.code p .constant [i]) (hi : i < 65536)
    (hvalue : exe.constants[i]? = some value) :
    m.Arrives (TopLevel exe table (p + Op.constant.size) (value :: ops) globals host) := by
  refine Lands.arrives ?_
  rw [h.step_eq hinstr]
  show Lands _ (perform .constant (readBack [2] [i]) _)
  rw [readBack_word hi]
  have hget : (m.advance Op.constant.size).constants[i]? = some value := by
    rw [← hvalue, ← h.constants]
    rfl
  show Lands _ ((get >>= fun m => present m.constants[i]? >>= push) _)
  rw [bind_ok get_eq, bind_ok (present_eq hget)]
  exact (h.advance _).push_lands value

/-- An operation without operands that only puts a value on the stack. -/
theorem TopLevel.literal (h : TopLevel exe table p ops globals host m) {op : Op}
    (hinstr : InstrAt exe.code p op []) (hop : op.widths = [])
    (hperform : perform op [] = Machine.push value) :
    m.Arrives (TopLevel exe table (p + op.size) (value :: ops) globals host) := by
  refine Lands.arrives ?_
  rw [h.step_eq hinstr, hop]
  show Lands _ (perform op [] _)
  rw [hperform]
  exact (h.advance _).push_lands value

/-- A value is dropped; it stays in its slot, above the top of the stack. -/
theorem TopLevel.pop (h : TopLevel exe table p (value :: ops) globals host m)
    (hinstr : InstrAt exe.code p .pop []) :
    m.Arrives fun m' => TopLevel exe table (p + Op.pop.size) ops globals host m'
      ∧ m'.stack.read ops.length = value := by
  refine Lands.arrives ?_
  have hnext := h.advance Op.pop.size
  rw [h.step_eq hinstr]
  show Lands _ ((Machine.pop >>= fun _ => pure ()) _)
  rw [bind_ok hnext.pop_eq]
  exact ⟨hnext.popped, h.stack ops.length value (by simp)⟩

/-- The next position is the target, whatever stands behind the jump. -/
theorem TopLevel.jump (h : TopLevel exe table p ops globals host m) {target : Nat}
    (hinstr : InstrAt exe.code p .jump [target]) (htarget : target ≤ Compilation.maxWord) :
    m.Arrives (TopLevel exe table target ops globals host) := by
  refine Lands.arrives ?_
  rw [h.step_eq hinstr]
  show Lands _ (perform .jump (readBack [2] [target]) _)
  rw [readBack_word (Nat.lt_succ_of_le htarget)]
  exact h.goTo target

/-- The value is taken off the stack in both cases. -/
theorem TopLevel.jumpNotTruthy (h : TopLevel exe table p (value :: ops) globals host m)
    {target : Nat} (hinstr : InstrAt exe.code p .jumpNotTruthy [target])
    (htarget : target ≤ Compilation.maxWord) :
    m.Arrives (TopLevel exe table (if value.truthy then p + Op.jumpNotTruthy.size else target)
      ops globals host) := by
  refine Lands.arrives ?_
  have hnext := h.advance Op.jumpNotTruthy.size
  rw [h.step_eq hinstr]
  show Lands _ (perform .jumpNotTruthy (readBack [2] [target]) _)
  rw [readBack_word (Nat.lt_succ_of_le htarget)]
  show Lands _ ((Machine.pop >>= fun test => if !test.truthy then Machine.jump target else pure ())
    _)
  rw [bind_ok hnext.pop_eq]
  cases htruthy : value.truthy with
  | true => exact hnext.popped
  | false => exact hnext.popped.goTo target

/-! ### Variables

Global slots. Reading one that has not been set is a fault with the name of the variable, which is
the one of the slot in the table of names. -/

/-- A slot that holds a value. -/
theorem TopLevel.getGlobal (h : TopLevel exe table p ops globals host m) {i : Nat}
    (hinstr : InstrAt exe.code p .getGlobal [i]) (hi : i < Compilation.maxGlobals)
    (hvalue : globals.read i = some value) :
    m.Arrives (TopLevel exe table (p + Op.getGlobal.size) (value :: ops) globals host) := by
  refine Lands.arrives ?_
  have hnext := h.advance Op.getGlobal.size
  rw [h.step_eq hinstr]
  show Lands _ (perform .getGlobal (readBack [2] [i]) _)
  rw [readBack_word hi]
  show Lands _ ((Machine.getGlobal i >>= Machine.push) _)
  rw [bind_ok (getGlobal_eq (by rwa [hnext.globals]))]
  exact hnext.push_lands value

theorem TopLevel.getGlobal_unbound (h : TopLevel exe table p ops globals host m) {i : Nat}
    {name : String} (hinstr : InstrAt exe.code p .getGlobal [i])
    (hi : i < Compilation.maxGlobals) (hvalue : globals.read i = none)
    (hname : exe.globals[i]? = some name) :
    m.Stops (.halted (.fault (.unbound name))) fun m' => m'.host = host := by
  have hnext := h.advance Op.getGlobal.size
  have hstep : step m
      = .error (.halted (.fault (.unbound name))) (m.advance Op.getGlobal.size) := by
    rw [h.step_eq hinstr]
    show perform .getGlobal (readBack [2] [i]) _ = _
    rw [readBack_word hi]
    show (Machine.getGlobal i >>= Machine.push) _ = _
    rw [bind_error (Machine.getGlobal_unbound (by rwa [hnext.globals])), hnext.names, hname]
    rfl
  exact .of_step hstep hnext.host

/-- The value goes from the stack to the slot. -/
theorem TopLevel.setGlobal (h : TopLevel exe table p (value :: ops) globals host m) {i : Nat}
    (hinstr : InstrAt exe.code p .setGlobal [i]) (hi : i < Compilation.maxGlobals) :
    m.Arrives (TopLevel exe table (p + Op.setGlobal.size) ops
      (globals.write i (some value)) host) := by
  refine Lands.arrives ?_
  have hnext := h.advance Op.setGlobal.size
  rw [h.step_eq hinstr]
  show Lands _ (perform .setGlobal (readBack [2] [i]) _)
  rw [readBack_word hi]
  show Lands _ ((Machine.pop >>= fun value => Machine.setGlobal i value) _)
  rw [bind_ok hnext.pop_eq, setGlobal_eq]
  exact { hnext.popped with globals := congrArg (·.write i (some value)) hnext.globals }

theorem TopLevel.getBuiltin (h : TopLevel exe table p ops globals host m) {i : Nat}
    {builtin : Builtin} (hinstr : InstrAt exe.code p .getBuiltin [i]) (hi : i < 256)
    (hbuiltin : table[i]? = some builtin) :
    m.Arrives (TopLevel exe table (p + Op.getBuiltin.size) (.builtin builtin :: ops) globals
      host) := by
  refine Lands.arrives ?_
  have hnext := h.advance Op.getBuiltin.size
  rw [h.step_eq hinstr]
  show Lands _ (perform .getBuiltin (readBack [1] [i]) _)
  rw [readBack_byte hi]
  have hget : (m.advance Op.getBuiltin.size).builtins[i]? = some builtin := by
    rw [hnext.builtins, hbuiltin]
  simp only [perform]
  rw [bind_ok get_eq, hget]
  exact hnext.push_lands _

/-! ### Operators

An operator takes its operands off the stack before it is applied, so if it is refused the machine
stops with fewer of them; nothing depends on the stack then. -/

/-- Where an operation leads that makes a value or a fault. -/
def Results (exe : Executable) (table : BuiltinTable) (p : Nat) (ops : List Value)
    (globals : Memory (Option Value)) (host : Host) (m : Machine) : Except Fault Value → Prop
  | .ok value => m.Arrives (TopLevel exe table p (value :: ops) globals host)
  | .error fault => m.Stops (.halted (.fault fault)) fun m' => m'.host = host

theorem TopLevel.results (h : TopLevel exe table p ops globals host m')
    {result : Except Fault Value} (hstep : step m = (ofExcept result >>= Machine.push) m') :
    Results exe table p ops globals host m result := by
  cases result with
  | ok value =>
    refine Lands.arrives ?_
    rw [hstep, bind_ok (ofExcept_ok rfl)]
    exact h.push_lands value
  | error fault =>
    rw [bind_error (ofExcept_error rfl)] at hstep
    exact .of_step hstep h.host

/-- Two operands, the right one on top. -/
theorem TopLevel.binary {left right : Value}
    (h : TopLevel exe table p (right :: left :: ops) globals host m) {op : Op}
    (hinstr : InstrAt exe.code p op []) (hop : op.widths = [])
    (hperform : perform op [] = Machine.binary op) :
    Results exe table (p + op.size) ops globals host m
      (left.infixOp (operatorToken op) right) := by
  have hright := h.advance op.size
  have hleft := hright.popped
  refine hleft.popped.results ?_
  rw [h.step_eq hinstr, hop]
  show perform op [] _ = _
  rw [hperform]
  unfold Machine.binary
  rw [bind_ok hright.pop_eq, bind_ok hleft.pop_eq]

theorem TopLevel.unary (h : TopLevel exe table p (value :: ops) globals host m) {op : Op}
    {token : Token} (hinstr : InstrAt exe.code p op []) (hop : op.widths = [])
    (hperform : perform op [] = Machine.unary token) :
    Results exe table (p + op.size) ops globals host m (value.prefixOp token) := by
  have hnext := h.advance op.size
  refine hnext.popped.results ?_
  rw [h.step_eq hinstr, hop]
  show perform op [] _ = _
  rw [hperform]
  unfold Machine.unary
  rw [bind_ok hnext.pop_eq]

/-- A container with a subscript above it. -/
theorem TopLevel.index {container subscript : Value}
    (h : TopLevel exe table p (subscript :: container :: ops) globals host m)
    (hinstr : InstrAt exe.code p .index []) :
    Results exe table (p + Op.index.size) ops globals host m (container.subscript subscript) := by
  have hnext := h.advance Op.index.size
  have hcontainer := hnext.popped
  refine hcontainer.popped.results ?_
  rw [h.step_eq hinstr]
  show (Machine.pop >>= fun subscript => Machine.pop >>= fun container =>
    ofExcept (container.subscript subscript) >>= Machine.push) _ = _
  rw [bind_ok hnext.pop_eq, bind_ok hcontainer.pop_eq]

/-! ### Effects on the surroundings

Arrays, hashes and calls of built-in functions ask the host for an identity or have it print. Their
arguments stay on the stack until the effect has been made, and then they are dropped all at
once. -/

/-- Where an operation leads that makes a value by an effect on the surroundings. -/
def Makes (exe : Executable) (table : BuiltinTable) (p : Nat) (ops : List Value)
    (globals : Memory (Option Value)) (m : Machine) : EStateM.Result Halt Host Value → Prop
  | .ok value host => m.Arrives (TopLevel exe table p (value :: ops) globals host)
  | .error halt host => m.Stops (.halted halt) fun m' => m'.host = host

/-- **Any operation of this kind**: the effect, a new top of the stack, and the value on it. -/
theorem TopLevel.makes {above : List Value} {action : HostM Value}
    (h : TopLevel exe table p (above ++ ops) globals host m')
    (hstep : step m = (onHost action >>= fun value => setTop ops.length >>= fun _ =>
      Machine.push value) m') :
    Makes exe table p ops globals m (action host) := by
  cases haction : action host with
  | ok value host' =>
    have haction' : action m'.host = .ok value host' := by rwa [h.host]
    have hset : setTop ops.length (m'.withHost host')
        = .ok () ((m'.withHost host').withTop ops.length) := rfl
    refine Lands.arrives ?_
    rw [hstep, bind_ok (onHost_ok haction'), bind_ok hset]
    exact (h.withHost host').withTop.push_lands value
  | error halt host' =>
    have haction' : action m'.host = .error halt host' := by rwa [h.host]
    rw [bind_error (onHost_error haction')] at hstep
    exact .of_step hstep rfl

theorem TopLevel.below_eq {above : List Value}
    (h : TopLevel exe table p (above ++ ops) globals host m) :
    below above.length m = .ok ops.length m := by
  have htop := h.top
  rw [List.length_append] at htop
  rw [Machine.below_eq (by omega), htop, Nat.add_sub_cancel_left]

theorem TopLevel.array {values : List Value}
    (h : TopLevel exe table p (values.reverse ++ ops) globals host m)
    (hinstr : InstrAt exe.code p .array [values.length])
    (hlength : values.length ≤ Compilation.maxWord) :
    Makes exe table (p + Op.array.size) ops globals m (HostM.array values host) := by
  have hnext := h.advance Op.array.size
  refine hnext.makes ?_
  rw [h.step_eq hinstr]
  show perform .array (readBack [2] [values.length]) _ = _
  rw [readBack_word (Nat.lt_succ_of_le hlength)]
  have hbelow := hnext.below_eq
  rw [List.length_reverse] at hbelow
  show (below values.length >>= fun start => valuesFrom start >>= fun elements =>
    onHost (HostM.array elements) >>= fun value => setTop start >>= fun _ => Machine.push value) _
    = _
  rw [bind_ok hbelow, bind_ok valuesFrom_eq, hnext.slots_eq]

/-- The keys and values of a hash, in turn. That they make entries is a hypothesis, since the
machine looks at the keys only now. -/
theorem TopLevel.hash {values : List Value} {entries : List (Entry Value)}
    (h : TopLevel exe table p (values.reverse ++ ops) globals host m)
    (hinstr : InstrAt exe.code p .hash [values.length])
    (hlength : values.length ≤ Compilation.maxWord) (heven : values.length % 2 = 0)
    (hentries : ∀ m, insertPairs [] values m = .ok entries m) :
    Makes exe table (p + Op.hash.size) ops globals m (HostM.hash entries host) := by
  have hnext := h.advance Op.hash.size
  refine hnext.makes ?_
  rw [h.step_eq hinstr]
  show perform .hash (readBack [2] [values.length]) _ = _
  rw [readBack_word (Nat.lt_succ_of_le hlength)]
  have hbelow := hnext.below_eq
  rw [List.length_reverse] at hbelow
  have htop : (m.advance Op.hash.size).top - ops.length = values.length := by
    rw [hnext.top, List.length_append, List.length_reverse, Nat.add_sub_cancel]
  show (below values.length >>= fun start => pairValues start >>= fun values =>
    insertPairs [] values >>= fun entries => onHost (HostM.hash entries) >>= fun value =>
      setTop start >>= fun _ => Machine.push value) _ = _
  rw [bind_ok hbelow, bind_ok (pairValues_eq (by rwa [htop])), hnext.slots_eq,
    bind_ok (hentries _)]

/-- **A call of a built-in function.** The function lies below its arguments and is dropped with
them. -/
theorem TopLevel.call {args : List Value} {builtin : Builtin}
    (h : TopLevel exe table p (args.reverse ++ .builtin builtin :: ops) globals host m)
    (hinstr : InstrAt exe.code p .call [args.length])
    (hlength : args.length < Compilation.maxLocals) :
    Makes exe table (p + Op.call.size) ops globals m (builtin.call args host) := by
  have hnext := h.advance Op.call.size
  have hroom := hnext.room
  have happend : args.reverse ++ .builtin builtin :: ops
      = (args.reverse ++ [.builtin builtin]) ++ ops := by simp
  have hall := hnext
  rw [happend] at hall
  refine hall.makes ?_
  rw [h.step_eq hinstr]
  show perform .call (readBack [1] [args.length]) _ = _
  rw [readBack_byte hlength]
  -- the function lies below its arguments
  have hbelow := hall.below_eq
  rw [List.length_append, List.length_reverse, List.length_singleton] at hbelow
  have hslot : slot ops.length (m.advance Op.call.size)
      = .ok (.builtin builtin) (m.advance Op.call.size) := by
    rw [slot_eq, hnext.stack ops.length (.builtin builtin) (by simp)]
    rw [List.length_append, List.length_cons] at hroom
    omega
  have hargs : (m.advance Op.call.size).slots (ops.length + 1) = args := hnext.slots_eq
  show Machine.call args.length _ = _
  unfold Machine.call
  rw [bind_ok hbelow, bind_ok hslot]
  show (valuesFrom (ops.length + 1) >>= fun args => onHost (builtin.call args) >>= fun result =>
    setTop ops.length >>= fun _ => Machine.push result) _ = _
  rw [bind_ok valuesFrom_eq, hargs]

/-! ### The end

A program ends by running out of code or by a `return`. Its result is the value that was popped
last, which lies above the top of the stack. -/

/-- The value in the slot above the top of the stack was the last to be popped. -/
theorem TopLevel.lastPopped_eq (h : TopLevel exe table p ops globals host m)
    (hroom : ops.length < stackSize) (hread : m.stack.read ops.length = value) :
    m.lastPopped = value := by
  unfold lastPopped
  rw [h.top, if_pos hroom, hread]

/-- A `return` ends the program with its value. -/
theorem TopLevel.returnValue (h : TopLevel exe table p (value :: ops) globals host m)
    (hinstr : InstrAt exe.code p .returnValue []) :
    m.Stops .finished fun m' => TopLevel exe table (p + Op.returnValue.size) ops globals host m'
      ∧ m'.lastPopped = value := by
  have hnext := h.advance Op.returnValue.size
  have hleave : leave value (m.advance Op.returnValue.size).popped
      = .error .finished (m.advance Op.returnValue.size).popped := by
    unfold leave
    rw [bind_ok get_eq, hnext.popped.callers]
    rfl
  refine .of_step ?_ ⟨hnext.popped, hnext.popped.lastPopped_eq h.room
    (h.stack ops.length value (by simp))⟩
  rw [h.step_eq hinstr]
  show (Machine.pop >>= leave) _ = _
  rw [bind_ok hnext.pop_eq, hleave]

/-- The machine stops at the end of the code. It fetches no instruction there, so the state is the
one in which it arrived. -/
theorem TopLevel.finishes (h : TopLevel exe table exe.code.size ops globals host m)
    (hgoal : goal m) : m.Stops .finished goal := by
  have hstep : step m = .error .finished m := by
    unfold step
    rw [bind_ok get_eq, if_pos (Nat.le_of_eq (by rw [h.code, h.position]))]
    rfl
  exact .of_step hstep hgoal

/-- Before a program runs nothing is on the stack. -/
theorem topLevel_load (exe : Executable) (table : BuiltinTable) (host : Host) :
    TopLevel exe table 0 [] ⟨none, #[]⟩ host (load exe table host) :=
  ⟨rfl, rfl, rfl, rfl, rfl, rfl, rfl, Nat.zero_le _, fun _ _ h => absurd h (by simp), rfl, rfl⟩

end TopLevel

end Scriptlet.Machine
