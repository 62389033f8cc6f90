import Scriptlet.Proofs.Machine.Invariant

/-!
# Steps keep the invariant

Every instruction of compiled code, performed on a machine that meets the invariant, leads to a
machine that meets it or stops the machine harmlessly (`step_ends`). `Moves` says what a step does
to the frames and to the slots below them. Most instructions leave the variables of functions alone
(`Op.plain`, `step_keeps`); for the others there is an equation each.

Each instruction has a lemma of its own. It takes from `Fits` what the depth map demands there —
operands enough, an index in bounds — as hypotheses, and the depth that the map has behind the
instruction as `hlead`. So a lemma speaks of numbers, and only `perform_ends` at the end looks at
the map.
-/

namespace Scriptlet.Machine

/-- **The result of a step**: a machine that meets `post`, or a harmless stop within the limits. -/
def Ends (post : Machine → Prop) : EStateM.Result Stop Machine Unit → Prop
  | .ok () m => post m
  | .error stop m => stop.Harmless ∧ m.Bounded

/-- **What a step does to the frames.** The running frame stays, a function is entered above it, or
it is left for the one that waits. -/
inductive Moves (m m' : Machine) : Prop where
  | stays (h : Stays m m')
  /-- A function is entered; the frame that called it waits. -/
  | enters (caller : Frame) (hcallers : m'.callers = caller :: m.callers)
    (hcaller : caller.base = m.frame.base ∧ caller.code = m.frame.code)
    (hbase : m.frame.base < m'.frame.base) (hstack : m'.stack = m.stack)
  /-- A function is left; its result is in the slot below its frame. -/
  | leaves (callers : List Frame) (hcallers : m.callers = m'.frame :: callers)
    (hcallers' : m'.callers = callers) (htop : m'.top = m.frame.base)
    (hbelow : ∀ i, i + 1 < m.frame.base → m'.stack.read i = m.stack.read i)

/-- Reading an instruction or an operand comes before the move. -/
theorem Moves.after {m m' : Machine} (m₁ : Machine) (hstays : Stays m m₁)
    (hstack : m₁.stack = m.stack)
    (h : Moves m₁ m') : Moves m m' := by
  cases h with
  | stays h => exact .stays (hstays.trans h)
  | enters caller hcallers hcaller hbase hstack' =>
    rw [hstays.callers] at hcallers
    rw [hstays.base, hstays.code] at hcaller
    rw [hstays.base] at hbase
    exact .enters caller hcallers hcaller hbase (hstack'.trans hstack)
  | leaves callers hcallers hcallers' htop hbelow =>
    rw [hstays.callers] at hcallers
    rw [hstays.base] at htop hbelow
    rw [hstack] at hbelow
    exact .leaves callers hcallers hcallers' htop hbelow

theorem Ends.mono {post post' : Machine → Prop} {result : EStateM.Result Stop Machine Unit}
    (h : Ends post result) (hpost : ∀ m, post m → post' m) : Ends post' result := by
  cases result with
  | ok _ m => exact hpost m h
  | error stop m => exact h

section

variable {exact : Prop} {table : BuiltinTable} {exe : Executable}
  {maps : DepthMaps exact table.length exe} {m m₀ m' : Machine} {d : Nat}

/-- A step from `m₀` leads to `m`. -/
def Next (maps : DepthMaps exact table.length exe) (m₀ m : Machine) : Prop :=
  Sound maps m ∧ Moves m₀ m

/-- A step from `m₀` leads to `m` and leaves all variables alone. -/
def Goes (maps : DepthMaps exact table.length exe) (m₀ m : Machine) : Prop :=
  Sound maps m ∧ Keeps m₀ m

theorem Goes.next (h : Goes maps m₀ m) : Next maps m₀ m :=
  ⟨h.1, .stays h.2.stays⟩

/-- The running frame goes on, where the depth map expects as many operands as there are. -/
theorem Holds.sound (hstays : Stays m₀ m) (h : Holds maps d m)
    (hlead : Leads exact (maps.depths m₀.frame.code m₀.callers) m.frame.position d) :
    Sound maps m := by
  refine ⟨d, h, ?_⟩
  rwa [hstays.code, hstays.callers]

theorem Holds.goes (hkeeps : Keeps m₀ m) (h : Holds maps d m)
    (hlead : Leads exact (maps.depths m₀.frame.code m₀.callers) m.frame.position d) :
    Goes maps m₀ m :=
  ⟨h.sound hkeeps.stays hlead, hkeeps⟩

/-- **A value is put on the stack, or there is no room for it.** The one way in which the stack
grows within a frame; without room the fault is one of the program. -/
theorem Holds.ends_push {value : Value} (hkeeps : Keeps m₀ m) (h : Holds maps d m)
    (hvalue : ∀ ok, m.Closures ok → value.Closures ok)
    (hlead : Leads exact (maps.depths m₀.frame.code m₀.callers) m.frame.position (d + 1)) :
    Ends (Goes maps m₀) (push value m) := by
  by_cases hroom : m.top < stackSize
  · rw [push_eq hroom]
    exact (h.pushed hroom (hvalue _ h.closures)).goes
      (hkeeps.trans (.pushed h.locals_le_top hvalue)) hlead
  · rw [push_overflow (by omega)]
    exact ⟨id, h.bounded⟩

/-- Where there is an operand the stack is not empty. -/
theorem Holds.top_pos (h : Holds maps d m) (hd : 1 ≤ d) : 0 < m.top := by
  have htop := h.top
  omega

theorem Holds.pop_eq (h : Holds maps d m) (hd : 1 ≤ d) : pop m = .ok m.stackTop m.popped :=
  Machine.pop_eq (h.top_pos hd)

/-! ## Operators

Operators take their operands off the stack and put their result there. Whether it is a fault is the
concern of the operator; its result is no closure in any case. -/

/-- Two operands become one value, so the depth behind the instruction is one less. -/
theorem binary_ends {op : Op} (h : Holds maps d m) (hd : 2 ≤ d)
    (hlead : Leads exact (maps.depths m.frame.code m.callers) m.frame.position (d - 1)) :
    Ends (Goes maps m) (binary op m) := by
  have h₁ := h.popped (by omega)
  have h₂ := h₁.popped (by omega)
  have hdepth : d - 1 - 1 + 1 = d - 1 := by omega
  rw [← hdepth] at hlead
  unfold binary
  rw [bind_ok (h.pop_eq (by omega)), bind_ok (h₁.pop_eq (by omega))]
  have hoperates := Value.infixOp_operates (operatorToken op) m.popped.stackTop m.stackTop
  cases hresult : m.popped.stackTop.infixOp (operatorToken op) m.stackTop with
  | ok value =>
    rw [hresult] at hoperates
    rw [bind_ok (ofExcept_ok rfl)]
    exact h₂.ends_push (.trans (.popped m) (.popped _)) (fun _ _ => hoperates.closures) hlead
  | error fault =>
    rw [hresult] at hoperates
    rw [bind_error (ofExcept_error rfl)]
    exact ⟨hoperates.not_internal, h₂.bounded⟩

/-- One operand becomes one value, so the depth stays. -/
theorem unary_ends {op : Token} (h : Holds maps d m) (hd : 1 ≤ d)
    (hlead : Leads exact (maps.depths m.frame.code m.callers) m.frame.position d) :
    Ends (Goes maps m) (unary op m) := by
  have h₁ := h.popped hd
  have hdepth : d - 1 + 1 = d := by omega
  rw [← hdepth] at hlead
  unfold unary
  rw [bind_ok (h.pop_eq hd)]
  have hoperates := Value.prefixOp_operates op m.stackTop
  cases hresult : m.stackTop.prefixOp op with
  | ok value =>
    rw [hresult] at hoperates
    rw [bind_ok (ofExcept_ok rfl)]
    exact h₁.ends_push (.popped m) (fun _ _ => hoperates.closures) hlead
  | error fault =>
    rw [hresult] at hoperates
    rw [bind_error (ofExcept_error rfl)]
    exact ⟨hoperates.not_internal, h₁.bounded⟩

/-- A container and a subscript become one value. It is a part of the container, so it can be
entered if it is a closure. -/
theorem index_ends (h : Holds maps d m) (hd : 2 ≤ d)
    (hlead : Leads exact (maps.depths m.frame.code m.callers) m.frame.position (d - 1)) :
    Ends (Goes maps m) (perform .index [] m) := by
  have h₁ := h.popped (by omega)
  have h₂ := h₁.popped (by omega)
  have hdepth : d - 1 - 1 + 1 = d - 1 := by omega
  rw [← hdepth] at hlead
  show Ends _ ((pop >>= fun subscript => pop >>= fun container =>
    ofExcept (container.subscript subscript) >>= push) m)
  rw [bind_ok (h.pop_eq (by omega)), bind_ok (h₁.pop_eq (by omega))]
  cases hresult : m.popped.stackTop.subscript m.stackTop with
  | ok value =>
    rw [bind_ok (ofExcept_ok rfl)]
    refine h₂.ends_push (.trans (.popped m) (.popped _)) (fun ok hok => ?_) hlead
    have hpopped : m.popped.Closures ok := ⟨hok.stack, hok.globals, hok.cells⟩
    exact Value.subscript_closures hpopped.stackTop hresult
  | error fault =>
    rw [bind_error (ofExcept_error rfl)]
    exact ⟨(Value.subscript_error hresult).not_internal, h₂.bounded⟩

/-! ## Variables

A local lives in its slot until a closure captures it, and in a cell from then on. Both are in
bounds: slots by the room that the frame has been given, cells by the invariant. -/

theorem mem_of_lookup {entries : List (Nat × CellId)} {index : Nat} {id : CellId}
    (h : entries.lookup index = some id) : (index, id) ∈ entries := by
  induction entries with
  | nil => cases h
  | cons entry entries ih =>
    obtain ⟨i, other⟩ := entry
    rw [List.lookup_cons] at h
    split at h
    · rename_i heq
      cases h
      rw [eq_of_beq heq]
      exact List.mem_cons_self
    · exact List.mem_cons_of_mem _ (ih h)

/-- A captured local has a cell. -/
theorem Holds.cell_lt (h : Holds maps d m) {index : Nat} {id : CellId}
    (hcell : m.frame.cell? index = some id) : id < m.cells.size :=
  h.valid.captured_lt (index, id) (mem_of_lookup hcell)

/-- The slot of a local is in use. -/
theorem Holds.slot_lt (h : Holds maps d m) {index : Nat} (hindex : index < m.frame.code.locals) :
    m.frame.base + index < stackSize := by
  have htop := h.top
  have hle := h.top_le
  omega

/-- A cell has a value. -/
theorem cell_of_lt {id : CellId} (hid : id < m.cells.size) :
    ∃ value, m.cells[id]? = some value ∧ cell id m = .ok value m
      ∧ ∀ ok, m.Closures ok → value.Closures ok :=
  ⟨m.cells[id], Array.getElem?_eq_getElem hid, Machine.cell_eq (Array.getElem?_eq_getElem hid),
    fun _ hok => hok.cells _ (Array.getElem_mem hid)⟩

/-- **The value of a local is read where it lives**, in its cell if it has one and in its slot
otherwise. -/
theorem Holds.getLocal_eq (h : Holds maps d m) {index : Nat}
    (hindex : index < m.frame.code.locals) :
    ∃ value, getLocal index m = .ok value m
      ∧ (∀ id, m.frame.cell? index = some id → m.cells[id]? = some value)
      ∧ (m.frame.cell? index = none → m.stack.read (m.frame.base + index) = value)
      ∧ ∀ ok, m.Closures ok → value.Closures ok := by
  unfold getLocal
  rw [bind_ok get_eq]
  cases hcell : m.frame.cell? index with
  | some id =>
    obtain ⟨value, hread, heq, hvalue⟩ := cell_of_lt (h.cell_lt hcell)
    refine ⟨value, heq, fun other hother => ?_, fun hnone => absurd hnone (by simp), hvalue⟩
    obtain rfl := Option.some.inj hother
    exact hread
  | none =>
    exact ⟨_, slot_eq (h.slot_lt hindex), fun other hother => absurd hother (by simp),
      fun _ => rfl, fun _ hok => hok.stack _⟩

/-- Reading a local leaves one operand more, wherever the local lives. -/
theorem getLocal_ends {index : Nat} (h : Holds maps d m) (hindex : index < m.frame.code.locals)
    (hlead : Leads exact (maps.depths m.frame.code m.callers) m.frame.position (d + 1)) :
    Ends (Goes maps m) (perform .getLocal [index] m) := by
  obtain ⟨value, heq, -, -, hvalue⟩ := h.getLocal_eq hindex
  show Ends _ ((getLocal index >>= push) m)
  rw [bind_ok heq]
  exact h.ends_push (.refl m) hvalue hlead

/-- A local is stored where it lives. -/
def withLocal (m : Machine) (index : Nat) (value : Value) : Machine :=
  match m.frame.cell? index with
  | some id => { m with cells := m.cells.setIfInBounds id value }
  | none => { m with stack := m.stack.write (m.frame.base + index) value }

theorem perform_setLocal {index : Nat} (htop : 0 < m.top)
    (hslot : m.frame.base + index < stackSize) :
    perform .setLocal [index] m = .ok () (m.popped.withLocal index m.stackTop) := by
  show (pop >>= fun value => setLocal index value) m = _
  rw [bind_ok (Machine.pop_eq htop)]
  unfold setLocal withLocal
  rw [bind_ok get_eq]
  cases hcell : m.popped.frame.cell? index with
  | some id => rfl
  | none => exact setSlot_eq hslot

/-- The value is there and so is the slot, so storing in a local never fails. -/
theorem Holds.setLocal_eq {index : Nat} (h : Holds maps d m) (hd : 1 ≤ d)
    (hindex : index < m.frame.code.locals) :
    perform .setLocal [index] m = .ok () (m.popped.withLocal index m.stackTop) :=
  perform_setLocal (h.top_pos hd) (h.slot_lt hindex)

/-- A local that has been captured is stored in its cell, and any other in its slot, which is below
all operands. -/
theorem setLocal_ends {index : Nat} (h : Holds maps d m) (hd : 1 ≤ d)
    (hindex : index < m.frame.code.locals)
    (hlead : Leads exact (maps.depths m.frame.code m.callers) m.frame.position (d - 1)) :
    Ends (Next maps m) (perform .setLocal [index] m) := by
  have h₁ := h.popped hd
  rw [h.setLocal_eq hd hindex]
  unfold withLocal
  cases hcell : m.popped.frame.cell? index with
  | some id =>
    have hstays : Stays m { m.popped with cells := m.popped.cells.setIfInBounds id m.stackTop } :=
      ⟨rfl, rfl, rfl, fun _ _ => rfl⟩
    exact ⟨(h₁.setCell id h.closures.stackTop).sound hstays hlead, .stays hstays⟩
  | none =>
    have hstays : Stays m
        { m.popped with stack := m.popped.stack.write (m.frame.base + index) m.stackTop } := by
      refine ⟨rfl, rfl, rfl, fun i hi => ?_⟩
      show (m.stack.write (m.frame.base + index) m.stackTop).read i = _
      rw [Memory.read_write, if_neg (by omega)]
    exact ⟨(h₁.setSlot _ h.closures.stackTop).sound hstays hlead, .stays hstays⟩

/-- A captured variable of the running closure has a cell. -/
theorem Holds.freeCell_eq (h : Holds maps d m) {index : Nat}
    (hindex : index < m.frame.code.captures.length) :
    ∃ id, m.frame.free[index]? = some id ∧ freeCell index m = .ok id m ∧ id < m.cells.size := by
  rw [← h.valid.free] at hindex
  exact ⟨m.frame.free[index], Array.getElem?_eq_getElem hindex,
    Machine.freeCell_eq (Array.getElem?_eq_getElem hindex),
    h.valid.free_lt _ (Array.getElem_mem hindex)⟩

/-- Reading a captured variable leaves one operand more. -/
theorem getFree_ends {index : Nat} (h : Holds maps d m)
    (hindex : index < m.frame.code.captures.length)
    (hlead : Leads exact (maps.depths m.frame.code m.callers) m.frame.position (d + 1)) :
    Ends (Goes maps m) (perform .getFree [index] m) := by
  obtain ⟨id, -, hfree, hid⟩ := h.freeCell_eq hindex
  obtain ⟨value, -, hcell, hvalue⟩ := cell_of_lt hid
  show Ends _ ((freeCell index >>= fun id => cell id >>= push) m)
  rw [bind_ok hfree, bind_ok hcell]
  exact h.ends_push (.refl m) hvalue hlead

theorem perform_setFree {index : Nat} {id : CellId} (htop : 0 < m.top)
    (hget : m.frame.free[index]? = some id) :
    perform .setFree [index] m
      = .ok () { m.popped with cells := m.cells.setIfInBounds id m.stackTop } := by
  have hfree : freeCell index m.popped = .ok id m.popped := Machine.freeCell_eq hget
  show (pop >>= fun value => freeCell index >>= fun cell => Machine.setCell cell value) m = _
  rw [bind_ok (Machine.pop_eq htop), bind_ok hfree]
  rfl

theorem Holds.setFree_eq {index : Nat} (h : Holds maps d m) (hd : 1 ≤ d)
    (hindex : index < m.frame.code.captures.length) :
    ∃ id, m.frame.free[index]? = some id ∧ perform .setFree [index] m
      = .ok () { m.popped with cells := m.cells.setIfInBounds id m.stackTop } := by
  obtain ⟨id, hget, -⟩ := h.freeCell_eq hindex
  exact ⟨id, hget, perform_setFree (h.top_pos hd) hget⟩

theorem setFree_ends {index : Nat} (h : Holds maps d m) (hd : 1 ≤ d)
    (hindex : index < m.frame.code.captures.length)
    (hlead : Leads exact (maps.depths m.frame.code m.callers) m.frame.position (d - 1)) :
    Ends (Next maps m) (perform .setFree [index] m) := by
  obtain ⟨id, -, heq⟩ := h.setFree_eq hd hindex
  have hstays : Stays m { m.popped with cells := m.cells.setIfInBounds id m.stackTop } :=
    ⟨rfl, rfl, rfl, fun _ _ => rfl⟩
  rw [heq]
  exact ⟨((h.popped hd).setCell id h.closures.stackTop).sound hstays hlead, .stays hstays⟩

/-- A global may be unbound. The machine stops then with a fault, which is harmless. -/
theorem getGlobal_ends {index : Nat} (h : Holds maps d m)
    (hlead : Leads exact (maps.depths m.frame.code m.callers) m.frame.position (d + 1)) :
    Ends (Goes maps m) (perform .getGlobal [index] m) := by
  show Ends _ ((getGlobal index >>= push) m)
  cases hread : m.globals.read index with
  | some value =>
    rw [bind_ok (getGlobal_eq hread)]
    exact h.ends_push (.refl m) (fun _ hok => hok.globals index value hread) hlead
  | none =>
    rw [bind_error (getGlobal_unbound hread)]
    exact ⟨id, h.bounded⟩

/-- The value of a global is one of the stack, and no frame is concerned. -/
theorem setGlobal_ends {index : Nat} (h : Holds maps d m) (hd : 1 ≤ d)
    (hlead : Leads exact (maps.depths m.frame.code m.callers) m.frame.position (d - 1)) :
    Ends (Goes maps m) (perform .setGlobal [index] m) := by
  show Ends _ ((pop >>= fun value => setGlobal index value) m)
  rw [bind_ok (h.pop_eq hd)]
  refine ((h.popped hd).setGlobal index h.closures.stackTop).goes
    (.trans (.popped m) (.setGlobal index fun ok hok => ?_)) hlead
  have hm : m.Closures ok := ⟨hok.stack, hok.globals, hok.cells⟩
  exact hm.stackTop

/-! ## Containers

The operands become a container. It takes their place, so one operand more than before is left if
there was none. -/

/-- The operands become a container. -/
theorem Holds.ends_make (action : HostM Value) {value : Value} {host : Host} {count : Nat}
    (h : Holds maps d m) (hcount : count ≤ d) (haction : action m.host = .ok value host)
    (hfresh : m.host.fresh ≤ host.fresh) (hvalue : ∀ ok, m.Closures ok → value.Closures ok)
    (hlead : Leads exact (maps.depths m.frame.code m.callers) m.frame.position (d - count + 1)) :
    Ends (Goes maps m)
      ((onHost action >>= fun value => setTop (m.top - count) >>= fun _ => push value) m) := by
  have h₁ := (h.withHost host).drop hcount
  have hset : setTop (m.top - count) (m.withHost host)
      = .ok () ((m.withHost host).withTop (m.top - count)) := rfl
  rw [bind_ok (onHost_ok haction), bind_ok hset]
  exact h₁.ends_push (.trans (.withHost hfresh) (.withTop _ _))
    (fun ok hok => hvalue ok ⟨hok.stack, hok.globals, hok.cells⟩) hlead

/-- The elements are taken off the stack, and the array is put in their place. -/
theorem array_ends {count : Nat} (h : Holds maps d m) (hcount : count ≤ d)
    (hlead : Leads exact (maps.depths m.frame.code m.callers) m.frame.position (d - count + 1)) :
    Ends (Goes maps m) (perform .array [count] m) := by
  have hbelow : below count m = .ok (m.top - count) m := below_eq (by
    have := h.top
    omega)
  show Ends _ ((below count >>= fun start => valuesFrom start >>= fun elements =>
    onHost (HostM.array elements) >>= fun value => setTop start >>= fun _ => push value) m)
  rw [bind_ok hbelow, bind_ok valuesFrom_eq]
  exact h.ends_make (HostM.array (m.slots (m.top - count))) hcount rfl (Nat.le_succ _)
    (fun _ hok => Value.closuresList_iff.mpr (hok.slots _)) hlead

/-- **Keys and values in turn make the entries of a hash**, unless a key cannot be one. That fault
is not an internal one: a program can bring it about. -/
theorem insertPairs_eq : (values : List Value) → ∀ (entries : List (Entry Value)),
      values.length % 2 = 0 →
      (∃ entries', insertPairs entries values m = .ok entries' m
        ∧ ∀ ok, (∀ v ∈ values, v.Closures ok) → Value.ClosuresEntries ok entries →
          Value.ClosuresEntries ok entries')
      ∨ ∃ fault, insertPairs entries values m = .error (.halted (.fault fault)) m
        ∧ ¬ fault.Internal
  | [], entries, _ => .inl ⟨entries, rfl, fun _ _ hentries => hentries⟩
  | [_], _, heven => absurd heven (by decide : ¬ 1 % 2 = 0)
  | shown :: value :: rest, entries, heven => by
    have heven' : rest.length % 2 = 0 := by
      simp only [List.length_cons] at heven
      omega
    cases hinsert : Value.insertPair entries shown value with
    | ok entries' =>
      rw [insertPairs, bind_ok (ofExcept_ok hinsert)]
      rcases insertPairs_eq rest entries' heven' with ⟨entries'', heq, hclosures⟩ | herror
      · refine .inl ⟨entries'', heq, fun ok hvalues hentries => ?_⟩
        exact hclosures ok (fun v hv => hvalues v (by simp [hv])) (Value.insertPair_closures
          hentries (hvalues shown (by simp)) (hvalues value (by simp)) hinsert)
      · exact .inr herror
    | error fault =>
      rw [insertPairs, bind_error (ofExcept_error hinsert)]
      exact .inr ⟨fault, rfl, (Value.insertPair_error hinsert).not_internal⟩

/-- The pairs are taken off the stack and the hash is put in their place, unless one of the keys is
none. -/
theorem hash_ends {count : Nat} (h : Holds maps d m) (hcount : count ≤ d) (heven : count % 2 = 0)
    (hlead : Leads exact (maps.depths m.frame.code m.callers) m.frame.position (d - count + 1)) :
    Ends (Goes maps m) (perform .hash [count] m) := by
  have htop := h.top
  have hbelow : below count m = .ok (m.top - count) m := below_eq (by omega)
  have hslots : pairValues (m.top - count) m = .ok (m.slots (m.top - count)) m :=
    pairValues_eq (by rwa [Nat.sub_sub_self (by omega)])
  show Ends _ ((below count >>= fun start => pairValues start >>= fun values =>
    insertPairs [] values >>= fun entries => onHost (HostM.hash entries) >>= fun value =>
      setTop start >>= fun _ => push value) m)
  rw [bind_ok hbelow, bind_ok hslots]
  rcases insertPairs_eq (m := m) (m.slots (m.top - count)) []
      (by rwa [length_slots, Nat.sub_sub_self (by omega)])
    with ⟨entries, hentries, hclosures⟩ | ⟨fault, hentries, hfault⟩
  · rw [bind_ok hentries]
    exact h.ends_make (HostM.hash entries) hcount rfl (Nat.le_succ _)
      (fun ok hok => hclosures ok (hok.slots _) trivial) hlead
  · rw [bind_error hentries]
    exact ⟨hfault, h.bounded⟩

/-! ## Calls

The only instructions that change frames. Entering a function needs room for its locals and one more
frame; both are checked by the machine, and here is where the limits of `Bounded` come from. -/

/-- The machine in a function that it has entered. -/
def entered (m : Machine) (code : FunctionCode) (cells : Array CellId) (base : Nat) : Machine :=
  { m with
    frame := .enter code cells base
    callers := m.frame :: m.callers
    top := base + code.locals }

/-- A function needs the right number of arguments, room for one frame more and room for its locals.
They are checked in this order, and then it is entered. -/
theorem enterClosure_eq {code : FunctionCode} {cells : Array CellId} {count : Nat}
    (hcount : count ≤ m.top) :
    enterClosure code cells count m =
      if count ≠ code.params then .error (.halted (.fault (.argumentCount code.params count))) m
      else if maxFrames ≤ m.callers.length + 1 ∨ stackSize ≤ m.top - count + code.locals then
        .error (.halted (.fault .stackOverflow)) m
      else .ok () (m.entered code cells (m.top - count)) := by
  unfold enterClosure
  split
  · rfl
  · rw [bind_ok (below_eq hcount), bind_ok get_eq]
    simp only [Bool.or_eq_true, decide_eq_true_eq]
    split <;> rfl

/-- A function that has been entered was refused for neither of the two reasons, so it has got as
many arguments as it has parameters. -/
theorem enterClosure_inv {code : FunctionCode} {cells : Array CellId} {count : Nat}
    (hcount : count ≤ m.top) (h : enterClosure code cells count m = .ok () m') :
    code.params = count ∧ m' = m.entered code cells (m.top - count) := by
  rw [enterClosure_eq hcount] at h
  split at h
  · cases h
  · rename_i hparams
    split at h
    · cases h
    · cases h
      exact ⟨(Decidable.not_not.mp hparams).symm, rfl⟩

/-- **A function that is entered has no operands, and its caller waits for the result.** With the
callee and the arguments taken off and the result put in their place, the caller has the depth that
is mapped behind its call. -/
theorem Holds.entered (h : Holds maps d m) {code : FunctionCode} {cells : Array CellId}
    {count : Nat} (hcount : count + 1 ≤ d)
    (id : Identity)
    (hclosure : Enterable exact table.length exe.constants m.cells.size id code cells)
    (hlead : Leads exact (maps.depths m.frame.code m.callers) m.frame.position (d - count))
    (hframes : m.callers.length + 1 < maxFrames) (hroom : m.top - count + code.locals < stackSize) :
    Next maps m (m.entered code cells (m.top - count)) := by
  have htop := h.top
  have hdepth : m.top - count - (m.frame.base + m.frame.code.locals) = d - count := by omega
  have hvalid : (Frame.enter code cells (m.top - count)).Valid exact table.length exe m.cells.size
      (m.frame :: m.callers) :=
    ⟨hclosure.1, hclosure.2.1, hclosure.2.2, fun _ hentry => absurd hentry List.not_mem_nil⟩
  refine ⟨⟨0, ⟨h.constants, h.builtins, ⟨h.closures.stack, h.closures.globals, h.closures.cells⟩,
    rfl, ⟨Nat.le_of_lt hroom, hframes⟩, hvalid, h.valid, ?_, ?_, h.waits⟩, ?_⟩,
    .enters m.frame rfl ⟨rfl, rfl⟩ ?_ rfl⟩
  · show m.frame.base + m.frame.code.locals < m.top - count
    omega
  · show Leads exact _ _ (m.top - count - _)
    rwa [hdepth]
  · exact ⟨0, (maps.inside_mapped code hclosure.1).start, Nat.le_refl 0, fun _ => rfl⟩
  · show m.frame.base < m.top - count
    omega

/-- The call of a closure. -/
theorem call_closure_eq {count : Nat} (hcount : count + 1 ≤ m.top) (hle : m.top ≤ stackSize)
    {id : Identity} {code : FunctionCode} {cells : Array CellId}
    (hcallee : m.stack.read (m.top - (count + 1)) = .closure id code cells) :
    perform .call [count] m = enterClosure code cells count m := by
  show call count m = _
  unfold call
  rw [bind_ok (below_eq hcount), bind_ok (slot_eq (by omega)), hcallee]

/-- **The call of anything else has a result at once**, or a fault that says it cannot be called. -/
theorem call_other_ends {count : Nat} (h : Holds maps d m) (hcount : count + 1 ≤ d)
    (hcallee : ∀ id code cells, m.stack.read (m.top - (count + 1)) ≠ .closure id code cells)
    (hlead : Leads exact (maps.depths m.frame.code m.callers) m.frame.position (d - count)) :
    Ends (Goes maps m) (perform .call [count] m) := by
  have htop := h.top
  have hle := h.top_le
  show Ends _ (call count m)
  unfold call
  rw [bind_ok (below_eq (by omega)), bind_ok (slot_eq (by omega))]
  cases hvalue : m.stack.read (m.top - (count + 1)) with
  | closure id code cells => exact absurd hvalue (hcallee id code cells)
  | builtin builtin =>
    have hcall := builtin.call_closures m.host (h.closures.slots (m.top - (count + 1) + 1))
    have hdepth : d - (count + 1) + 1 = d - count := by omega
    rw [← hdepth] at hlead
    show Ends _ ((onHost (builtin.call (m.slots (m.top - (count + 1) + 1)))
      >>= fun result => setTop (m.top - (count + 1)) >>= fun _ => push result) m)
    unfold HostM.Meets at hcall
    split at hcall
    · rename_i result host heq
      exact h.ends_make (builtin.call _) hcount heq hcall.1
        (fun ok hok => (Builtin.call_ok heq (hok.slots _)).2) hlead
    · rename_i halt host heq
      rw [bind_error (onHost_error heq)]
      exact ⟨hcall.plain, h.bounded⟩
  | _ => exact ⟨fun h => h, h.bounded⟩

/-- Callee and arguments become one value, at once or when the function that is entered hands it
back. A value of any other kind cannot be called, which is a fault. -/
theorem call_ends {count : Nat} (h : Holds maps d m) (hcount : count + 1 ≤ d)
    (hlead : Leads exact (maps.depths m.frame.code m.callers) m.frame.position (d - count)) :
    Ends (Next maps m) (perform .call [count] m) := by
  have htop := h.top
  by_cases hclosure : ∃ id code cells,
      m.stack.read (m.top - (count + 1)) = .closure id code cells
  · obtain ⟨id, code, cells, hcallee⟩ := hclosure
    have hvalue := h.closures.stack (m.top - (count + 1))
    rw [hcallee] at hvalue
    rw [call_closure_eq (by omega) h.top_le hcallee, enterClosure_eq (by omega)]
    split
    · exact ⟨fun h => h, h.bounded⟩
    · split
      · exact ⟨fun h => h, h.bounded⟩
      · rename_i hlimits
        rw [not_or] at hlimits
        exact h.entered hcount id hvalue hlead (by omega) (by omega)
  · exact (call_other_ends h hcount (fun id code cells hcallee =>
      hclosure ⟨id, code, cells, hcallee⟩) hlead).mono fun _ => Goes.next

/-- The machine behind a call that has been completed: the result is in the place of the callee. -/
def left (m : Machine) (caller : Frame) (callers : List Frame) (result : Value) : Machine :=
  { m with frame := caller, callers, top := m.frame.base - 1 }.pushed result

theorem leave_eq {result : Value} {caller : Frame} {callers : List Frame}
    (hcallers : m.callers = caller :: callers) (hbase : 0 < m.frame.base)
    (hroom : m.frame.base ≤ stackSize) :
    leave result m = .ok () (m.left caller callers result) := by
  unfold leave
  rw [bind_ok get_eq, hcallers]
  cases hcallee : m.frame.base with
  | zero =>
    rw [hcallee] at hbase
    exact absurd hbase (Nat.lt_irrefl 0)
  | succ callee =>
    let m₁ : Machine := { m with frame := caller, callers, top := callee }
    have hmodify : (modify fun m => { m with frame := caller, callers, top := callee } :
        Step Unit) m = .ok () m₁ := rfl
    show ((modify fun m => { m with frame := caller, callers, top := callee })
      >>= fun _ => push result) m = _
    rw [bind_ok hmodify, push_eq (by show callee < stackSize; omega), left, hcallee]
    rfl

/-- **The result of a function takes the place of the callee.** By what waits: if no frame does,
then the program has come to its end; otherwise the one on top goes on where it waits. -/
theorem leave_ends {result : Value} (h : Holds maps d m)
    (hresult : result.Closures (Enterable exact table.length exe.constants m.cells.size)) :
    Ends (Next maps m) (leave result m) := by
  have htop := h.top
  have hle := h.top_le
  have hwaits := h.waits
  cases hcallers : m.callers with
  | nil =>
    unfold leave
    rw [bind_ok get_eq, hcallers]
    exact ⟨trivial, h.bounded⟩
  | cons caller callers =>
    rw [hcallers] at hwaits
    obtain ⟨hvalid, hlt, hlead, hwaits⟩ := hwaits
    rw [leave_eq hcallers (by omega) (by omega)]
    -- the result is the only slot that is written, and it is the one of the callee
    have hmoves : Moves m (m.left caller callers result) := by
      refine .leaves callers hcallers rfl ?_ fun i hi => ?_
      · show m.frame.base - 1 + 1 = m.frame.base
        omega
      · show (m.stack.write (m.frame.base - 1) result).read i = _
        rw [Memory.read_write, if_neg (by omega)]
    refine ⟨⟨m.frame.base - (caller.base + caller.code.locals), ⟨h.constants, h.builtins, ?_, ?_,
      ⟨?_, ?_⟩, hvalid, hwaits⟩, hlead⟩, hmoves⟩
    · exact Closures.pushed ⟨h.closures.stack, h.closures.globals, h.closures.cells⟩ hresult
    · show m.frame.base - 1 + 1 = caller.base + caller.code.locals + _
      omega
    · show m.frame.base - 1 + 1 ≤ stackSize
      omega
    · have hframes := h.bounded.2
      rw [hcallers, List.length_cons] at hframes
      exact Nat.le_of_succ_le hframes

/-! ## Closures

Making a closure changes the frame of the function around it, as captured locals move into cells.
Their values move along, and nobody who reads them can see a difference. -/

/-- **What making a closure changes in a machine**: locals may have moved into new cells. -/
structure Captures (m m' : Machine) : Prop where
  stays : Stays m m'
  position : m'.frame.position = m.frame.position
  cells : m.cells.size ≤ m'.cells.size
  host : m'.host = m.host

theorem Captures.refl (m : Machine) : Captures m m :=
  ⟨(Keeps.refl m).stays, rfl, Nat.le_refl _, rfl⟩

theorem Captures.trans {m₁ m₂ m₃ : Machine} (h : Captures m₁ m₂) (h' : Captures m₂ m₃) :
    Captures m₁ m₃ :=
  ⟨h.stays.trans h'.stays, h'.position.trans h.position, Nat.le_trans h.cells h'.cells,
    h'.host.trans h.host⟩

/-- The machine after a local has moved into a new cell. -/
def moved (m : Machine) (index : Nat) : Machine :=
  { m with
    frame := { m.frame with captured := (index, m.cells.size) :: m.frame.captured }
    cells := m.cells.push (m.stack.read (m.frame.base + index)) }

theorem captureCell_slot_eq {index : Nat} (hslot : m.frame.base + index < stackSize) :
    captureCell (.slot index) m = .ok (m.frame.capture index m.cells.size).1 { m with
      frame := (m.frame.capture index m.cells.size).2.2
      cells := if (m.frame.capture index m.cells.size).2.1
        then m.cells.push (m.stack.read (m.frame.base + index)) else m.cells } := by
  show (get >>= fun m => slot (m.frame.base + index) >>= fun value => modifyGet fun m =>
    ((m.frame.capture index m.cells.size).1, { m with
      frame := (m.frame.capture index m.cells.size).2.2
      cells := if (m.frame.capture index m.cells.size).2.1 then m.cells.push value
        else m.cells }) : Step CellId) m = _
  rw [bind_ok get_eq, bind_ok (slot_eq hslot)]
  rfl

/-- A local that is captured again keeps its cell. -/
theorem captureCell_old {index : Nat} {id : CellId} (hcell : m.frame.cell? index = some id)
    (hslot : m.frame.base + index < stackSize) : captureCell (.slot index) m = .ok id m := by
  rw [captureCell_slot_eq hslot, Frame.capture, hcell]
  rfl

theorem captureCell_new {index : Nat} (hcell : m.frame.cell? index = none)
    (hslot : m.frame.base + index < stackSize) :
    captureCell (.slot index) m = .ok m.cells.size (m.moved index) := by
  rw [captureCell_slot_eq hslot, Frame.capture, hcell]
  rfl

/-- The cell that a variable has already which a closure is about to capture. -/
def Frame.cellOf? (frame : Frame) : Capture → Option CellId
  | .slot index => frame.cell? index
  | .free index => frame.free[index]?

/-- **A variable of the running function has a cell once it is captured.** A local that is captured
for the first time moves into a new one, and all others have theirs already. -/
theorem Holds.captureCell_eq {capture : Capture} (h : Holds maps d m)
    (hwithin : capture.Within ⟨table.length, m.frame.code.locals, m.frame.code.captures.length⟩) :
    ∃ id m', captureCell capture m = .ok id m' ∧ Holds maps d m' ∧ Captures m m'
      ∧ id < m'.cells.size := by
  cases capture with
  | free index =>
    obtain ⟨id, -, hfree, hid⟩ := h.freeCell_eq hwithin
    exact ⟨id, m, hfree, h, .refl m, hid⟩
  | slot index =>
    have hslot := h.slot_lt hwithin
    cases hcell : m.frame.cell? index with
    | some id => exact ⟨id, m, captureCell_old hcell hslot, h, .refl m, h.cell_lt hcell⟩
    | none =>
      have hsize : (m.moved index).cells.size = m.cells.size + 1 := Array.size_push _
      refine ⟨m.cells.size, m.moved index, captureCell_new hcell hslot,
        h.newCell index (h.closures.stack _), ⟨⟨rfl, rfl, rfl, fun _ _ => rfl⟩, rfl, ?_, rfl⟩, ?_⟩
      · rw [hsize]
        exact Nat.le_succ _
      · rw [hsize]
        exact Nat.lt_succ_self _

/-- One variable after the other. The cells that were there before stay, so those found for the
first variables exist in the end. -/
theorem Holds.captureCells_eq {captures : List Capture} (h : Holds maps d m)
    (hwithin : ∀ capture ∈ captures,
      capture.Within ⟨table.length, m.frame.code.locals, m.frame.code.captures.length⟩) :
    ∃ cells m', captureCells captures m = .ok cells m' ∧ Holds maps d m' ∧ Captures m m'
      ∧ cells.length = captures.length ∧ ∀ id ∈ cells, id < m'.cells.size := by
  induction captures generalizing m with
  | nil => exact ⟨[], m, rfl, h, .refl m, rfl, fun _ hid => absurd hid List.not_mem_nil⟩
  | cons capture captures ih =>
    obtain ⟨id, m₁, hfirst, h₁, hm₁, hid⟩ := h.captureCell_eq (hwithin capture (by simp))
    obtain ⟨cells, m₂, hrest, h₂, hm₂, hlength, hcells⟩ := ih h₁ fun c hc => by
      rw [hm₁.stays.code]
      exact hwithin c (List.mem_cons_of_mem _ hc)
    refine ⟨id :: cells, m₂, ?_, h₂, hm₁.trans hm₂, by simp [hlength], fun i hi => ?_⟩
    · rw [captureCells, bind_ok hfirst, bind_ok hrest]
      rfl
    · rcases List.mem_cons.mp hi with rfl | hi
      · exact Nat.lt_of_lt_of_le hid hm₂.cells
      · exact hcells i hi

/-- The machine after an identity has been drawn. -/
def drawn (m : Machine) : Machine :=
  m.withHost { m.host with fresh := m.host.fresh + 1 }

/-- A closure has the cells of the variables it captures and a new identity. -/
theorem makeClosure_eq {index count : Nat} {id : Identity} {fn : FunctionCode}
    {cells : List CellId} {m₁ : Machine} (hconst : m.constants[index]? = some (.compiled id fn))
    (hcells : captureCells (fn.captures.take count) m = .ok cells m₁) :
    perform .closure [index, count] m
      = push (.closure m₁.host.fresh fn cells.toArray) m₁.drawn := by
  have hhost : onHost HostM.identity m₁ = .ok m₁.host.fresh m₁.drawn := onHost_ok rfl
  show makeClosure index count m = _
  unfold makeClosure
  rw [bind_ok get_eq, bind_ok (present_eq hconst)]
  show (captureCells (fn.captures.take count) >>= fun cells =>
    onHost HostM.identity >>= fun id => push (.closure id fn cells.toArray)) m = _
  rw [bind_ok hcells, bind_ok hhost]

/-- The code of the new closure is compiled and has as many cells as it captures variables, all of
which exist. So it may be called later, by whoever gets hold of it. -/
theorem makeClosure_ends {index : Nat} {id : Identity} {fn : FunctionCode} (h : Holds maps d m)
    (hconst : exe.constants[index]? = some (.compiled id fn))
    (hfn : fn.IsCompiled exact table.length exe.constants)
    (hwithin : ∀ capture ∈ fn.captures,
      capture.Within ⟨table.length, m.frame.code.locals, m.frame.code.captures.length⟩)
    (hlead : Leads exact (maps.depths m.frame.code m.callers) m.frame.position (d + 1)) :
    Ends (Next maps m) (perform .closure [index, fn.captures.length] m) := by
  obtain ⟨cells, m₁, hcells, h₁, hm₁, hlength, hlt⟩ := h.captureCells_eq hwithin
  have h₂ : Holds maps d m₁.drawn := h₁.withHost _
  rw [makeClosure_eq (by rw [h.constants, hconst]) (by rwa [List.take_length])]
  by_cases hroom : m₁.drawn.top < stackSize
  · rw [push_eq hroom]
    have hstays : Stays m (m₁.drawn.pushed (.closure m₁.host.fresh fn cells.toArray)) := by
      refine hm₁.stays.trans ⟨rfl, rfl, rfl, fun i hi => ?_⟩
      have hbase := h₁.locals_le_top
      show (m₁.stack.write m₁.top _).read i = _
      rw [Memory.read_write, if_neg (by omega)]
    refine ⟨(h₂.pushed hroom ?_).sound hstays ?_, .stays hstays⟩
    · exact ⟨hfn, by simp [hlength], fun cell hcell => hlt cell (by simpa using hcell)⟩
    · show Leads exact _ m₁.frame.position (d + 1)
      rwa [hm₁.position]
  · rw [push_overflow (Nat.le_of_not_lt hroom)]
    exact ⟨fun h => h, h₁.bounded⟩

/-! ## Steps

All instructions together, by what the layout demands of each. -/

/-- The operands of an instruction that fits are read as they were written, except for the index of
a built-in function beyond those that a byte has room for. -/
theorem readBack_of_fits {surroundings : Surroundings} {constants : Array Value} {depths : Depths}
    {p : Nat} {op : Op} {operands : List Nat}
    (h : Fits exact surroundings constants depths p d op operands) (hop : op ≠ .getBuiltin) :
    readBack op.widths operands = operands := by
  unfold Fits at h
  split at h
  all_goals first
    | rfl
    | exact absurd rfl hop
    | exact absurd h id
    | skip
  all_goals
    simp only [Op.widths, readBack, Compilation.maxWord, Compilation.maxGlobals,
      Compilation.maxLocals, List.cons.injEq, and_true] at h ⊢
    omega

theorem getBuiltin_ends {index : Nat} (h : Holds maps d m) (hindex : index < table.length)
    (hlead : Leads exact (maps.depths m.frame.code m.callers) m.frame.position (d + 1)) :
    Ends (Goes maps m) (perform .getBuiltin [index] m) := by
  have hget : m.builtins[index]? = some table[index] := by
    rw [h.builtins]
    exact List.getElem?_eq_getElem hindex
  simp only [perform]
  rw [bind_ok get_eq, hget]
  exact h.ends_push (.refl m) (fun _ _ => trivial) hlead

/-- A constant is a literal, never a closure, so nothing has to be known of it. -/
theorem constant_ends {index : Nat} {value : Value} (h : Holds maps d m)
    (hconst : exe.constants[index]? = some value) (hvalue : value.IsLiteral)
    (hlead : Leads exact (maps.depths m.frame.code m.callers) m.frame.position (d + 1)) :
    Ends (Goes maps m) (perform .constant [index] m) := by
  show Ends _ ((get >>= fun m => present m.constants[index]? >>= push) m)
  rw [bind_ok get_eq, bind_ok (present_eq (by rw [h.constants, hconst]))]
  refine h.ends_push (.refl m) (fun _ _ => ?_) hlead
  cases value <;> trivial

theorem pop_ends (h : Holds maps d m) (hd : 1 ≤ d)
    (hlead : Leads exact (maps.depths m.frame.code m.callers) m.frame.position (d - 1)) :
    Ends (Goes maps m) (execute .pop m) := by
  show Ends _ ((pop >>= fun _ => pure ()) m)
  rw [bind_ok (h.pop_eq hd)]
  exact (h.popped hd).goes (.popped m) hlead

/-- The test is gone in either case, and the depth map has an entry at both places. -/
theorem jumpNotTruthy_ends {target : Nat} (h : Holds maps d m) (hd : 1 ≤ d)
    (hjump : Leads exact (maps.depths m.frame.code m.callers) target (d - 1))
    (hlead : Leads exact (maps.depths m.frame.code m.callers) m.frame.position (d - 1)) :
    Ends (Goes maps m) (perform .jumpNotTruthy [target] m) := by
  show Ends _ ((pop >>= fun test => if !test.truthy then jump target else pure ()) m)
  rw [bind_ok (h.pop_eq hd)]
  split
  · exact ((h.popped hd).goTo target).goes (.trans (.popped m) (.goTo _ target)) hjump
  · exact (h.popped hd).goes (.popped m) hlead

/-- Operations that leave all variables of functions alone. -/
def Op.plain : Op → Bool
  | .setLocal | .setFree | .call | .returnValue | .returnNull | .closure => false
  | _ => true

/-- What performing an operation does. -/
def Did (maps : DepthMaps exact table.length exe) (op : Op) (m₀ m : Machine) : Prop :=
  Next maps m₀ m ∧ (Op.plain op = true → Keeps m₀ m)

theorem Goes.did (op : Op) (h : Goes maps m₀ m) : Did maps op m₀ m :=
  ⟨h.next, fun _ => h.2⟩

theorem Next.did {op : Op} (h : Next maps m₀ m) (hop : Op.plain op = false) : Did maps op m₀ m :=
  ⟨h, fun hplain => by
    rw [hop] at hplain
    cases hplain⟩

/-- **An instruction that fits, performed behind its place.** `cases` on what fits leaves one case
for each operation, with what its lemma asks for as hypotheses. The index of a built-in function is
taken first, since it alone may be read as another number. -/
theorem perform_ends {op : Op} {operands : List Nat} {p : Nat} (h : Holds maps d m)
    (hp : m.frame.position = p + op.size)
    (hfits : Fits exact ⟨table.length, m.frame.code.locals, m.frame.code.captures.length⟩
      exe.constants (maps.depths m.frame.code m.callers) p d op operands) :
    Ends (Did maps op m) (perform op (readBack op.widths operands) m) := by
  by_cases hop : op = .getBuiltin
  · subst hop
    match operands, hfits with
    | [index], hfits =>
      refine (getBuiltin_ends h (Nat.lt_of_le_of_lt (Nat.mod_le index _) hfits.1) ?_).mono
        fun _ => Goes.did _
      rw [hp]
      exact hfits.2
  · rw [readBack_of_fits hfits hop]
    unfold Fits at hfits
    rw [← hp] at hfits
    split at hfits
    case h_1 =>
      obtain ⟨-, ⟨value, hconst, hvalue⟩, hlead⟩ := hfits
      exact (constant_ends h hconst hvalue hlead).mono fun _ => Goes.did _
    -- the constants `true`, `false` and `null`
    case h_2 | h_3 | h_4 =>
      refine Ends.mono ?_ fun _ => Goes.did _
      exact h.ends_push (.refl m) (fun _ _ => trivial) hfits
    -- operators
    case h_5 | h_6 | h_7 | h_8 | h_9 | h_10 | h_11 =>
      exact (binary_ends h hfits.1 hfits.2).mono fun _ => Goes.did _
    case h_12 => exact (index_ends h hfits.1 hfits.2).mono fun _ => Goes.did _
    case h_13 | h_14 => exact (unary_ends h hfits.1 hfits.2).mono fun _ => Goes.did _
    case h_15 => exact (pop_ends h hfits.1 hfits.2).mono fun _ => Goes.did _
    case h_16 => exact ((h.goTo _).goes (.goTo m _) hfits.2.1).did _
    case h_17 =>
      obtain ⟨-, hd, hjump, hnext⟩ := hfits
      exact (jumpNotTruthy_ends h hd hjump hnext).mono fun _ => Goes.did _
    -- variables
    case h_18 => exact (getGlobal_ends h hfits.2).mono fun _ => Goes.did _
    case h_19 => exact (setGlobal_ends h hfits.2.1 hfits.2.2).mono fun _ => Goes.did _
    case h_20 => exact (getLocal_ends h hfits.2.1 hfits.2.2).mono fun _ => Goes.did _
    case h_21 =>
      exact (setLocal_ends h hfits.2.2.1 hfits.2.1 hfits.2.2.2).mono fun _ hm => hm.did rfl
    case h_22 => exact (getFree_ends h hfits.2.1 hfits.2.2).mono fun _ => Goes.did _
    case h_23 =>
      exact (setFree_ends h hfits.2.2.1 hfits.2.1 hfits.2.2.2).mono fun _ hm => hm.did rfl
    case h_24 => exact absurd rfl hop
    -- containers, calls and closures
    case h_25 => exact (array_ends h hfits.2.1 hfits.2.2).mono fun _ => Goes.did _
    case h_26 => exact (hash_ends h hfits.2.2.1 hfits.2.1 hfits.2.2.2).mono fun _ => Goes.did _
    case h_27 => exact (call_ends h hfits.2.1 hfits.2.2).mono fun _ hm => hm.did rfl
    case h_28 =>
      obtain ⟨-, -, ⟨id, fn, hconst, rfl, hfn, hwithin⟩, hlead⟩ := hfits
      exact (makeClosure_ends h hconst hfn hwithin hlead).mono fun _ hm => hm.did rfl
    case h_29 =>
      show Ends _ ((pop >>= leave) m)
      rw [bind_ok (h.pop_eq hfits)]
      refine (leave_ends (h.popped hfits) h.closures.stackTop).mono fun m' hm' => ?_
      have hnext : Next maps m m' := ⟨hm'.1, .after m.popped (Keeps.popped m).stays rfl hm'.2⟩
      exact hnext.did rfl
    case h_30 =>
      have hleave : Ends (Next maps m) (leave .null m) := leave_ends h trivial
      exact hleave.mono fun _ hm => hm.did rfl
    case h_31 => exact absurd hfits id

/-- **The instruction that a machine is about to execute**, if it is not at the end of its code,
with the depth that it finds. -/
theorem Sound.instr (h : Sound maps m) (hsize : m.frame.position < m.frame.code.code.size) :
    ∃ d op operands, Holds maps d m
      ∧ InstrAt m.frame.code.code m.frame.position op operands
      ∧ Fits exact ⟨table.length, m.frame.code.locals, m.frame.code.captures.length⟩
        exe.constants (maps.depths m.frame.code m.callers) m.frame.position d op operands := by
  obtain ⟨d, hd, k, hk, hle, heq⟩ := h
  obtain ⟨op, operands, hinstr, hfits⟩ := hd.valid.code.fits hsize hk
  exact ⟨d, op, operands, hd, hinstr, hfits.mono hle heq⟩

theorem step_finished (hend : m.frame.code.code.size ≤ m.frame.position) :
    step m = .error .finished m := by
  unfold step
  rw [bind_ok get_eq, if_pos hend]
  rfl

/-- **A step of a machine that meets the invariant** leads to one that meets it, or stops
harmlessly. -/
theorem step_ends (h : Sound maps m) : Ends (Next maps m) (step m) := by
  by_cases hend : m.frame.code.code.size ≤ m.frame.position
  · obtain ⟨d, hd, -⟩ := h
    rw [step_finished hend]
    exact ⟨trivial, hd.bounded⟩
  · obtain ⟨d, op, operands, hd, hinstr, hfits⟩ := h.instr (Nat.lt_of_not_le hend)
    rw [step_eq_perform hinstr]
    exact (perform_ends (hd.advance op.size) rfl hfits).mono fun m' hm' =>
      ⟨hm'.1.1, .after (m.advance op.size) (Keeps.advance m op.size).stays rfl hm'.1.2⟩

end

end Scriptlet.Machine
