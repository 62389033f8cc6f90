import Scriptlet.Proofs.Machine.Perform

/-!
# Effects of the parts of a step

What the parts that steps are made of do to a machine, one equation for each outcome. `pushed`,
`popped` and `withTop` name the states that they lead to, so that an invariant needs one lemma for
each of them and no look into the parts.
-/

namespace Scriptlet.Machine

/-- The machine with a value more on the stack. -/
def pushed (m : Machine) (value : Value) : Machine :=
  { m with stack := m.stack.write m.top value, top := m.top + 1 }

/-- The machine with another number of slots in use. -/
def withTop (m : Machine) (top : Nat) : Machine :=
  { m with top }

/-- The machine without the value on top of the stack. -/
def popped (m : Machine) : Machine :=
  m.withTop (m.top - 1)

/-- The machine in other surroundings. -/
def withHost (m : Machine) (host : Host) : Machine :=
  { m with host }

/-- The machine at a position of the running code. -/
def goTo (m : Machine) (position : Nat) : Machine :=
  { m with frame := { m.frame with position } }

section

variable {α : Type} {m m' : Machine}

/-- A part that computes a result does not touch the machine. -/
theorem ofExcept_ok {a : α} {x : Except Fault α} (h : x = .ok a) : ofExcept x m = .ok a m := by
  rw [h]
  rfl

/-- A fault of such a part halts the machine as it stands. -/
theorem ofExcept_error {fault : Fault} {x : Except Fault α} (h : x = .error fault) :
    ofExcept x m = .error (.halted (.fault fault)) m := by
  rw [h]
  rfl

/-- A part that has an effect on the surroundings changes nothing else. -/
theorem onHost_ok {action : HostM α} {a : α} {host : Host} (h : action m.host = .ok a host) :
    onHost action m = .ok a (m.withHost host) := by
  obtain ⟨constants, names, builtins, stack, top, globals, cells, frame, callers, host'⟩ := m
  simp only [onHost]
  rw [h]
  rfl

/-- If the surroundings fail, the machine halts in those that they have left. -/
theorem onHost_error {action : HostM α} {halt : Halt} {host : Host}
    (h : action m.host = .error halt host) :
    onHost action m = .error (.halted halt) (m.withHost host) := by
  obtain ⟨constants, names, builtins, stack, top, globals, cells, frame, callers, host'⟩ := m
  simp only [onHost]
  rw [h]
  rfl

/-! ### The stack

An equation for each outcome, under the condition that decides between them. Lemmas that end in
`_inv` go the other way: they say of a part that has succeeded which condition was met, so that an
invariant that speaks of successful steps does not have to split on it again. -/

theorem push_eq {value : Value} (h : m.top < stackSize) :
    push value m = .ok () (m.pushed value) := by
  unfold push
  rw [bind_ok get_eq, if_neg (by omega)]
  rfl

/-- The stack is full. This is the only way in which putting a value on it can fail. -/
theorem push_overflow {value : Value} (h : stackSize ≤ m.top) :
    push value m = .error (.halted (.fault .stackOverflow)) m := by
  unfold push
  rw [bind_ok get_eq, if_pos h]
  rfl

theorem push_inv {value : Value} (h : push value m = .ok () m') :
    m.top < stackSize ∧ m' = m.pushed value := by
  by_cases htop : m.top < stackSize
  · cases (push_eq htop).symm.trans h
    exact ⟨htop, rfl⟩
  · cases (push_overflow (Nat.le_of_not_lt htop)).symm.trans h

theorem stackTop_pushed (m : Machine) (value : Value) : (m.pushed value).stackTop = value := by
  show (m.stack.write m.top value).read m.top = value
  rw [Memory.read_write, if_pos rfl]

theorem pop_eq (h : 0 < m.top) : pop m = .ok m.stackTop m.popped := by
  obtain ⟨constants, names, builtins, stack, top, globals, cells, frame, callers, host⟩ := m
  cases top with
  | zero => exact absurd h (Nat.lt_irrefl 0)
  | succ top => rfl

theorem pop_inv {value : Value} (h : pop m = .ok value m') :
    0 < m.top ∧ value = m.stackTop ∧ m' = m.popped := by
  by_cases htop : 0 < m.top
  · cases (pop_eq htop).symm.trans h
    exact ⟨htop, rfl, rfl⟩
  · unfold pop at h
    rw [bind_ok get_eq, Nat.eq_zero_of_not_pos htop] at h
    cases h

/-- Where the operands of an instruction start, if there are as many as it asks for. -/
theorem below_eq {count : Nat} (h : count ≤ m.top) : below count m = .ok (m.top - count) m := by
  unfold below
  rw [bind_ok get_eq, if_pos h]
  rfl

theorem below_inv {count callee : Nat} (h : below count m = .ok callee m') :
    count ≤ m.top ∧ callee = m.top - count ∧ m' = m := by
  by_cases hcount : count ≤ m.top
  · cases (below_eq hcount).symm.trans h
    exact ⟨hcount, rfl, rfl⟩
  · unfold below at h
    rw [bind_ok get_eq, if_neg hcount] at h
    cases h

theorem slot_eq {index : Nat} (h : index < stackSize) :
    slot index m = .ok (m.stack.read index) m := by
  unfold slot
  rw [if_pos h]
  rfl

theorem slot_inv {index : Nat} {value : Value} (h : slot index m = .ok value m') :
    index < stackSize ∧ value = m.stack.read index ∧ m' = m := by
  by_cases hindex : index < stackSize
  · cases (slot_eq hindex).symm.trans h
    exact ⟨hindex, rfl, rfl⟩
  · unfold slot at h
    rw [if_neg hindex] at h
    cases h

theorem setSlot_eq {index : Nat} {value : Value} (h : index < stackSize) :
    setSlot index value m = .ok () { m with stack := m.stack.write index value } := by
  unfold setSlot
  rw [if_pos h]
  rfl

/-- **The values of the slots in use from `start` on**, from the bottom up. Arguments and the parts
of a container are read in this order. -/
def slots (m : Machine) (start : Nat) : List Value :=
  (List.range (m.top - start)).map fun i => m.stack.read (start + i)

theorem valuesFrom_eq {start : Nat} : valuesFrom start m = .ok (m.slots start) m := rfl

@[simp] theorem length_slots (m : Machine) (start : Nat) :
    (m.slots start).length = m.top - start := by
  simp [slots]

/-- The values are found one by one. -/
theorem slots_eq {start : Nat} {values : List Value} (htop : m.top = start + values.length)
    (h : ∀ i (hi : i < values.length), m.stack.read (start + i) = values[i]) :
    m.slots start = values := by
  have hlength : (m.slots start).length = values.length := by
    rw [length_slots, htop, Nat.add_sub_cancel_left]
  apply List.ext_getElem hlength
  intro i _ hi
  rw [← h i hi]
  simp [slots]

theorem mem_slots {start : Nat} {value : Value} (h : value ∈ m.slots start) :
    ∃ i, value = m.stack.read i := by
  obtain ⟨i, -, rfl⟩ := List.mem_map.mp h
  exact ⟨start + i, rfl⟩

/-- An even number of values are keys and values in turn. -/
theorem pairValues_eq {start : Nat} (h : (m.top - start) % 2 = 0) :
    pairValues start m = .ok (m.slots start) m := by
  unfold pairValues
  rw [bind_ok get_eq, bind_ok valuesFrom_eq]
  rw [if_neg (by rw [length_slots]; omega)]
  rfl

/-! ### Variables

A cell and a captured variable are there or the machine is stuck, which `present` says for both. A
global is different: a program can read one that nothing was stored in, and that is a fault with its
name. -/

theorem cell_eq {id : CellId} {value : Value} (h : m.cells[id]? = some value) :
    cell id m = .ok value m := by
  unfold cell
  rw [bind_ok get_eq, present_eq h]

theorem freeCell_eq {index : Nat} {id : CellId} (h : m.frame.free[index]? = some id) :
    freeCell index m = .ok id m := by
  unfold freeCell
  rw [bind_ok get_eq, present_eq h]

theorem getGlobal_eq {index : Nat} {value : Value} (h : m.globals.read index = some value) :
    getGlobal index m = .ok value m := by
  unfold getGlobal
  rw [bind_ok get_eq, h]
  rfl

theorem getGlobal_unbound {index : Nat} (h : m.globals.read index = none) :
    getGlobal index m
      = .error (.halted (.fault (.unbound (m.names[index]?.getD "")))) m := by
  unfold getGlobal
  rw [bind_ok get_eq, h]
  rfl

theorem setGlobal_eq {index : Nat} {value : Value} :
    setGlobal index value m
      = .ok () { m with globals := m.globals.write index (some value) } := rfl

/-! ### Calls

What an instruction that calls has done if it succeeds. The two cases are kept apart in all that is
shown of steps, since a closure is entered and goes on, while a built-in function has its result at
once. -/

/-- **A call that succeeds enters a closure or has the result of a built-in function.** Nothing else
can be called. -/
theorem call_inv {count : Nat} (h : call count m = .ok () m') :
    count + 1 ≤ m.top
      ∧ ((∃ id code cells, m.stack.read (m.top - (count + 1)) = .closure id code cells
          ∧ enterClosure code cells count m = .ok () m')
        ∨ ∃ builtin result host, m.stack.read (m.top - (count + 1)) = .builtin builtin
          ∧ builtin.call (m.slots (m.top - (count + 1) + 1)) m.host = .ok result host
          ∧ (setTop (m.top - (count + 1)) >>= fun _ => push result) (m.withHost host)
            = .ok () m') := by
  obtain ⟨callee, m₁, hbelow, h⟩ := bind_eq_ok h
  obtain ⟨hcount, rfl, rfl⟩ := below_inv hbelow
  refine ⟨hcount, ?_⟩
  obtain ⟨value, m₂, hslot, h⟩ := bind_eq_ok h
  obtain ⟨-, rfl, rfl⟩ := slot_inv hslot
  cases hcallee : m₂.stack.read (m₂.top - (count + 1)) with
  | closure id code cells =>
    rw [hcallee] at h
    exact .inl ⟨id, code, cells, rfl, h⟩
  | builtin builtin =>
    rw [hcallee] at h
    obtain ⟨args, m₃, hargs, h⟩ := bind_eq_ok h
    cases hargs
    obtain ⟨result, m₄, hresult, h⟩ := bind_eq_ok h
    cases hcall : builtin.call (m₂.slots (m₂.top - (count + 1) + 1)) m₂.host with
    | error halt host => cases (onHost_error hcall).symm.trans hresult
    | ok value host =>
      cases (onHost_ok hcall).symm.trans hresult
      exact .inr ⟨builtin, _, _, rfl, hcall, h⟩
  | _ =>
    rw [hcallee] at h
    cases h

end

end Scriptlet.Machine
