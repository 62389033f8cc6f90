import Scriptlet.Machine
import Scriptlet.Proofs.Layout.Bytes

/-!
# Steps of the machine, read from the layout

`step` reads the bytes of an instruction one after the other as it executes it. Where an instruction
stands in the code, `step_eq_perform` takes the reading away: the machine goes on behind the
instruction and performs the operation on operands that are given.

From here on nothing looks at bytes any more. What is known of the code of a program is a list of
instructions (`Proofs/Layout/`), and a step is `perform` for the one that stands where the machine
is.
-/

namespace Scriptlet.Machine

variable {α β : Type} {m m' : Machine}

/-! ## Sequences

Equations that go forwards through a step whose outcome is to be found, and inversions that go
backwards through one whose outcome is known. -/

/-- A part that ends well is passed over. -/
theorem bind_ok {x : Step α} {a : α} (h : x m = .ok a m') (f : α → Step β) :
    (x >>= f) m = f a m' := by
  show EStateM.bind x f m = f a m'
  rw [EStateM.bind, h]

/-- A part that stops the machine stops the whole. -/
theorem bind_error {x : Step α} {stop : Stop} (h : x m = .error stop m') (f : α → Step β) :
    (x >>= f) m = .error stop m' := by
  show EStateM.bind x f m = .error stop m'
  rw [EStateM.bind, h]

/-- What a sequence has done its parts have done in turn. -/
theorem bind_eq_ok {x : Step α} {f : α → Step β} {b : β} (h : (x >>= f) m = .ok b m') :
    ∃ a m₁, x m = .ok a m₁ ∧ f a m₁ = .ok b m' := by
  cases hx : x m with
  | ok a m₁ => exact ⟨a, m₁, rfl, (bind_ok hx f).symm.trans h⟩
  | error stop m₁ =>
    rw [bind_error hx] at h
    cases h

theorem get_eq : (get : Step Machine) m = .ok m m := rfl

theorem present_eq {a : α} {o : Option α} (h : o = some a) : present o m = .ok a m := by
  rw [h]
  rfl

/-- The machine further on in the running code. -/
def advance (m : Machine) (bytes : Nat) : Machine :=
  { m with frame := { m.frame with position := m.frame.position + bytes } }

theorem nextByte_eq {byte : UInt8} (h : m.frame.code.code[m.frame.position]? = some byte) :
    nextByte m = .ok byte (m.advance 1) := by
  unfold nextByte
  rw [bind_ok get_eq]
  rw [bind_ok (present_eq h)]
  rfl

theorem nextByte_inv {byte : UInt8} (h : nextByte m = .ok byte m') :
    m.frame.code.code[m.frame.position]? = some byte ∧ m' = m.advance 1 := by
  cases hbyte : m.frame.code.code[m.frame.position]? with
  | some byte' =>
    cases (nextByte_eq hbyte).symm.trans h
    exact ⟨rfl, rfl⟩
  | none =>
    unfold nextByte at h
    rw [bind_ok get_eq, hbyte] at h
    cases h

theorem readByte_eq {n : Nat}
    (h : m.frame.code.code[m.frame.position]? = some (UInt8.ofNat n)) :
    readByte m = .ok (n % 256 ^ 1) (m.advance 1) := by
  unfold readByte
  rw [bind_ok (nextByte_eq h)]
  show EStateM.Result.ok (UInt8.ofNat n).toNat _ = _
  rw [UInt8.toNat_ofNat', Nat.pow_one]

theorem readWord_eq {n : Nat}
    (hhigh : m.frame.code.code[m.frame.position]? = some (UInt8.ofNat (n / 256)))
    (hlow : m.frame.code.code[m.frame.position + 1]? = some (UInt8.ofNat n)) :
    readWord m = .ok (n % 256 ^ 2) (m.advance 2) := by
  unfold readWord
  rw [bind_ok get_eq]
  rw [bind_ok (present_eq hhigh), bind_ok (present_eq hlow)]
  show EStateM.Result.ok (256 * (UInt8.ofNat (n / 256)).toNat + (UInt8.ofNat n).toNat) _ = _
  rw [UInt8.toNat_ofNat', UInt8.toNat_ofNat']
  congr 1
  omega

/-- A step that succeeds executes the operation whose byte is next. -/
theorem step_inv (h : step m = .ok () m') :
    ∃ op, m.frame.code.code[m.frame.position]? = some op.byte
      ∧ execute op (m.advance 1) = .ok () m' := by
  unfold step at h
  rw [bind_ok get_eq] at h
  by_cases hsize : m.frame.code.code.size ≤ m.frame.position
  · rw [if_pos hsize] at h
    cases h
  · rw [if_neg hsize] at h
    obtain ⟨byte, m₁, hread, h⟩ := bind_eq_ok h
    obtain ⟨hbyte, rfl⟩ := nextByte_inv hread
    cases hop : Op.ofByte? byte with
    | none =>
      rw [hop] at h
      cases h
    | some op =>
      rw [hop] at h
      exact ⟨op, by rw [hbyte, Op.eq_byte_of_ofByte? hop], h⟩

/-! ## Performing operations

The same operations with the operands as arguments. Operations without operands are the same either
way, so `perform` leaves them to `execute`. -/

/-- **Executes an operation on operands that have been read.** -/
def perform : Op → List Nat → Step Unit
  | .constant, [index] => do
    push (← present (← get).constants[index]?)
  | .jump, [target] => jump target
  | .jumpNotTruthy, [target] => do
    let test ← pop
    if !test.truthy then jump target
  | .getGlobal, [index] => do push (← getGlobal index)
  | .setGlobal, [index] => do setGlobal index (← pop)
  | .getLocal, [index] => do push (← getLocal index)
  | .setLocal, [index] => do setLocal index (← pop)
  | .getFree, [index] => do push (← cell (← freeCell index))
  | .setFree, [index] => do
    let value ← pop
    setCell (← freeCell index) value
  | .getBuiltin, [index] => do
    match (← get).builtins[index]? with
    | some builtin => push (.builtin builtin)
    | none => fault (.unknownBuiltin index)
  | .array, [count] => do
    let start ← below count
    let elements ← valuesFrom start
    let value ← onHost (HostM.array elements)
    setTop start
    push value
  | .hash, [count] => do
    let start ← below count
    let entries ← insertPairs [] (← pairValues start)
    let value ← onHost (HostM.hash entries)
    setTop start
    push value
  | .call, [count] => call count
  | .closure, [index, count] => makeClosure index count
  | op, _ => execute op

theorem execute_byte {op : Op} (h : op.widths = [1]) :
    execute op = readByte >>= fun n => perform op [n] := by
  cases op <;> first | rfl | cases h

theorem execute_word {op : Op} (h : op.widths = [2]) :
    execute op = readWord >>= fun n => perform op [n] := by
  cases op <;> first | rfl | cases h

theorem perform_nil (op : Op) : perform op [] = execute op := by
  cases op <;> rfl

/-- **The bytes behind the operation are read as its operands**, as far as they have been written:
an operand that does not fit its width is read modulo what does, which is what `readBack` says.
There are four widths of operands, so four cases. -/
theorem execute_eq_perform {op : Op} {operands : List Nat}
    (hbytes : ∀ k < op.operandSize,
      m.frame.code.code[m.frame.position + k]? = (Op.encodeOperands op.widths operands)[k]?) :
    execute op m = perform op (readBack op.widths operands) (m.advance op.operandSize) := by
  have hwidths : op.widths = [] ∨ op.widths = [1] ∨ op.widths = [2] ∨ op = .closure := by
    cases op <;> simp [Op.widths]
  unfold Op.operandSize at hbytes ⊢
  rcases hwidths with h | h | h | rfl
  -- no operand: nothing is read
  · rw [h]
    exact (congrFun (perform_nil op) m).symm
  · rw [h] at hbytes ⊢
    -- one operand, of a byte; where none is given zero has been written
    have hbyte := hbytes 0 (by decide)
    rcases operands with _ | ⟨n, operands⟩
    · rw [execute_byte h, bind_ok (readByte_eq (n := 0) hbyte)]
      rfl
    · rw [execute_byte h, bind_ok (readByte_eq hbyte)]
      rfl
  · rw [h] at hbytes ⊢
    -- one operand, of a word
    have hhigh := hbytes 0 (by decide)
    have hlow := hbytes 1 (by decide)
    rcases operands with _ | ⟨n, operands⟩
    · rw [execute_word h, bind_ok (readWord_eq (n := 0) hhigh hlow)]
      rfl
    · rw [execute_word h, bind_ok (readWord_eq hhigh hlow)]
      rfl
  · have hhigh := hbytes 0 (by decide)
    have hlow := hbytes 1 (by decide)
    -- the operands of a closure, a word and a byte
    have hbyte := hbytes 2 (by decide)
    show (readWord >>= fun i => readByte >>= fun count => makeClosure i count) m = _
    rcases operands with _ | ⟨i, _ | ⟨count, operands⟩⟩
    · rw [bind_ok (readWord_eq (n := 0) hhigh hlow), bind_ok (readByte_eq (n := 0) hbyte)]
      rfl
    · rw [bind_ok (readWord_eq hhigh hlow), bind_ok (readByte_eq (n := 0) hbyte)]
      rfl
    · rw [bind_ok (readWord_eq hhigh hlow), bind_ok (readByte_eq hbyte)]
      rfl

/-- **Where an instruction stands, a step performs it** behind the instruction. -/
theorem step_eq_perform {op : Op} {operands : List Nat}
    (hinstr : InstrAt m.frame.code.code m.frame.position op operands) :
    step m = perform op (readBack op.widths operands) (m.advance op.size) := by
  have hsize := hinstr.lt_size
  have hpos := op.size_pos
  unfold step
  rw [bind_ok get_eq, if_neg (by omega), bind_ok (nextByte_eq hinstr.head), Op.ofByte?_byte]
  show execute op (m.advance 1) = _
  have hbytes : ∀ k < op.operandSize,
      (m.advance 1).frame.code.code[(m.advance 1).frame.position + k]?
        = (Op.encodeOperands op.widths operands)[k]? := by
    intro k hk
    have := hinstr (k + 1) (by rw [Op.length_encode, Op.size]; omega)
    rw [Op.encode, List.getElem?_cons_succ] at this
    rw [← this]
    show m.frame.code.code[m.frame.position + 1 + k]? = _
    congr 1
    omega
  rw [execute_eq_perform hbytes, Op.size]
  show perform op _ ((m.advance 1).advance op.operandSize) = _
  unfold advance
  simp only [Nat.add_assoc]

end Scriptlet.Machine
