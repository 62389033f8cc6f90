import Mathlib.Algebra.Group.Nat.Defs
import Scriptlet.Proofs.Layout

/-!
# Bytes of code under emission and patching

How appending, overwriting and truncating act on single bytes of code, and what that does to an
instruction that stands in it. Appending never changes an instruction; patching a jump changes its
two operand bytes and nothing else, so patches of jumps that do not overlap keep each other.

Everything is stated pointwise, as an equation for the byte at a position. That is the form in which
`InstrAt` asks for an instruction, and in it the lemmas for several changes in a row are rewriting
and linear arithmetic on positions.
-/

namespace Scriptlet

/-! ## Lengths of encoded instructions

An instruction takes as many bytes as its operation says, whatever operands it is given: missing
operands are encoded as zero and surplus ones are dropped. So positions can be computed from
operations alone. -/

@[simp] theorem length_bigEndian (width n : Nat) : (bigEndian width n).length = width := by
  induction width generalizing n with
  | zero => rfl
  | succ width ih => simp [bigEndian, ih]

theorem Op.length_encodeOperands (widths operands : List Nat) :
    (Op.encodeOperands widths operands).length = widths.foldr (· + ·) 0 := by
  induction widths generalizing operands with
  | nil => rfl
  | cons width widths ih =>
    cases operands with
    | nil => simp [Op.encodeOperands, ih]
    | cons n operands => simp [Op.encodeOperands, ih]

/-- An instruction takes as many bytes as its operation says, whatever its operands are. -/
@[simp] theorem Op.length_encode (op : Op) (operands : List Nat) :
    (op.encode operands).length = op.size := by
  simp [Op.encode, Op.length_encodeOperands, Op.size, Op.operandSize, Nat.add_comm]

theorem Op.size_pos (op : Op) : 0 < op.size := by
  unfold Op.size
  omega

/-- The operands that are read from the bytes of an instruction: those that the bytes have no room
for have lost their high bytes. -/
def readBack : (widths operands : List Nat) → List Nat
  | [], _ => []
  | _ :: widths, [] => 0 :: readBack widths []
  | width :: widths, n :: operands => n % 256 ^ width :: readBack widths operands

@[simp] theorem length_readBack (widths operands : List Nat) :
    (readBack widths operands).length = widths.length := by
  induction widths generalizing operands with
  | nil => rfl
  | cons width widths ih => cases operands <;> simp [readBack, ih]

/-! ## Appending

Appended bytes stand behind the old ones, which keep their places. An instruction depends on its own
bytes only (`InstrAt.congr`), so it is not touched by anything that happens elsewhere. -/

@[simp] theorem Code.size_append (code : Code) (bytes : List UInt8) :
    (code ++ bytes : Code).size = code.size + bytes.length := by
  rw [← Array.length_toList, Array.toList_appendList, List.length_append, Array.length_toList]

/-- The bytes of code to which others have been appended. -/
theorem Code.getElem?_append (code : Code) (bytes : List UInt8) (i : Nat) :
    (code ++ bytes : Code)[i]? = if i < code.size then code[i]? else bytes[i - code.size]? := by
  rw [← Array.getElem?_toList, Array.toList_appendList, List.getElem?_append,
    Array.length_toList, Array.getElem?_toList]

theorem Code.getElem?_append_left {code : Code} {bytes : List UInt8} {i : Nat}
    (hi : i < code.size) : (code ++ bytes : Code)[i]? = code[i]? := by
  rw [Code.getElem?_append, if_pos hi]

/-- An instruction stands where it has been appended. -/
theorem instrAt_append (code : Code) (op : Op) (operands : List Nat) :
    InstrAt (code ++ op.encode operands) code.size op operands := by
  intro k _
  rw [Code.getElem?_append, if_neg (by omega), Nat.add_sub_cancel_left]

/-- An instruction depends on its own bytes only. -/
theorem InstrAt.congr {code code' : Code} {p : Nat} {op : Op} {operands : List Nat}
    (h : InstrAt code p op operands)
    (hbytes : ∀ i, p ≤ i → i < p + op.size → code'[i]? = code[i]?) :
    InstrAt code' p op operands := by
  intro k hk
  have hk' : k < op.size := by simpa using hk
  rw [hbytes (p + k) (by omega) (by omega), h k hk]

/-- The first byte of an instruction is that of its operation. -/
theorem InstrAt.head {code : Code} {p : Nat} {op : Op} {operands : List Nat}
    (h : InstrAt code p op operands) : code[p]? = some op.byte := by
  have := h 0 (by simp [Op.size_pos])
  simpa [Op.encode] using this

/-- An instruction lies inside the code that it stands in: its last byte is there, so the code is
long enough. -/
theorem InstrAt.lt_size {code : Code} {p : Nat} {op : Op} {operands : List Nat}
    (h : InstrAt code p op operands) : p + op.size ≤ code.size := by
  have hpos := op.size_pos
  have hlast := h (op.size - 1) (by simp; omega)
  have hsome : (op.encode operands)[op.size - 1]? ≠ none := by
    simp only [ne_eq, List.getElem?_eq_none_iff, Op.length_encode]
    omega
  have hlt : p + (op.size - 1) < code.size := by
    rcases Nat.lt_or_ge (p + (op.size - 1)) code.size with hlt | hge
    · exact hlt
    · rw [Array.getElem?_eq_none hge] at hlast
      exact absurd hlast.symm hsome
  omega

/-- Equal bytes stand for numbers that agree as far as there is room. Induction on the width, which
takes the last byte off both. -/
theorem mod_eq_of_bigEndian {width n n' : Nat} (h : bigEndian width n = bigEndian width n') :
    n % 256 ^ width = n' % 256 ^ width := by
  induction width generalizing n n' with
  | zero => rw [Nat.pow_zero, Nat.mod_one, Nat.mod_one]
  | succ width ih =>
    obtain ⟨hhigh, hlow⟩ := List.append_inj h (by simp)
    have hbyte := congrArg UInt8.toNat (List.head_eq_of_cons_eq hlow)
    rw [UInt8.toNat_ofNat', UInt8.toNat_ofNat'] at hbyte
    rw [Nat.pow_succ, Nat.mul_comm, Nat.mod_mul, Nat.mod_mul, ih hhigh]
    exact congrArg (· + _) hbyte

/-- At most one operation stands at a place, because the byte of an operation can be read back. -/
theorem InstrAt.op_eq {code : Code} {p : Nat} {op op' : Op} {operands operands' : List Nat}
    (h : InstrAt code p op operands) (h' : InstrAt code p op' operands') : op = op' := by
  have hbyte := Option.some.inj (h.head.symm.trans h'.head)
  have hop := congrArg Op.ofByte? hbyte
  rw [Op.ofByte?_byte, Op.ofByte?_byte] at hop
  exact Option.some.inj hop

/-- The operand of an instruction is fixed by its bytes, as far as they have room for it. -/
theorem InstrAt.operand_eq {code : Code} {p width n n' : Nat} {op : Op}
    (hwidths : op.widths = [width]) (h : InstrAt code p op [n]) (h' : InstrAt code p op [n']) :
    n % 256 ^ width = n' % 256 ^ width := by
  have hencode : op.encode [n] = op.encode [n'] := by
    apply List.ext_getElem?
    intro k
    rcases Nat.lt_or_ge k op.size with hk | hk
    · exact (h k (by simpa using hk)).symm.trans (h' k (by simpa using hk))
    · rw [List.getElem?_eq_none (by simpa using hk), List.getElem?_eq_none (by simpa using hk)]
  have hbytes := List.tail_eq_of_cons_eq hencode
  rw [hwidths] at hbytes
  refine mod_eq_of_bigEndian ?_
  simpa [Op.encodeOperands] using hbytes

/-! ## Overwriting and truncating

The compiler overwrites the operand of a jump, and it takes back or replaces the last `pop`. The
first is described by the bytes that change; for the other two it is enough that the result is code
to which something else, or nothing, has been appended. -/

@[simp] theorem Code.size_overwrite (code : Code) (p : Nat) (bytes : List UInt8) :
    (code.overwrite p bytes).size = code.size := by
  induction bytes generalizing code p with
  | nil => rfl
  | cons b bytes ih => rw [Code.overwrite, ih, Array.size_setIfInBounds]

/-- The bytes of code after others have been written over it. Bytes that would lie behind the end of
the code are lost, as in the compiler. -/
theorem Code.getElem?_overwrite (code : Code) (p : Nat) (bytes : List UInt8) (i : Nat) :
    (code.overwrite p bytes)[i]?
      = if p ≤ i ∧ i < p + bytes.length ∧ i < code.size then bytes[i - p]? else code[i]? := by
  induction bytes generalizing code p with
  | nil => rw [if_neg (by simp; omega), Code.overwrite]
  | cons b bytes ih =>
    rw [Code.overwrite, ih, Array.size_setIfInBounds, Array.getElem?_setIfInBounds]
    simp only [List.length_cons]
    by_cases hi : p = i
    · -- the first byte: all later ones are written behind it
      subst hi
      rw [if_neg (by omega), if_pos rfl, Nat.sub_self]
      by_cases hsize : p < code.size
      · rw [if_pos hsize, if_pos (by omega), List.getElem?_cons_zero]
      · rw [if_neg hsize, if_neg (by omega), Array.getElem?_eq_none (by omega)]
    · rw [if_neg hi]
      by_cases hin : p ≤ i ∧ i < p + (bytes.length + 1) ∧ i < code.size
      · rw [if_pos (by omega), if_pos hin, show i - p = (i - (p + 1)) + 1 from by omega,
          List.getElem?_cons_succ]
      · rw [if_neg (by omega), if_neg hin]

/-- Overwriting does not reach behind the code that it lies in. -/
theorem Code.overwrite_append {code : Code} {p : Nat} {bytes more : List UInt8}
    (hp : p + bytes.length ≤ code.size) :
    Code.overwrite (code ++ more) p bytes = code.overwrite p bytes ++ more := by
  apply Array.ext_getElem?
  intro i
  rw [Code.getElem?_overwrite, Code.getElem?_append, Code.getElem?_append,
    Code.getElem?_overwrite, Code.size_overwrite, Code.size_append]
  by_cases hin : p ≤ i ∧ i < p + bytes.length
  · rw [if_pos (by omega), if_pos (by omega), if_pos (by omega)]
  · rw [if_neg (by omega)]
    by_cases hi : i < code.size
    · rw [if_pos hi, if_pos hi, if_neg (by omega)]
    · rw [if_neg hi, if_neg hi]

@[simp] theorem Code.size_truncate (code : Code) (n : Nat) :
    (code.truncate n).size = min n code.size := by
  rw [Code.truncate, Array.size_shrink]

/-- Truncating takes back what was appended. -/
theorem Code.truncate_append (code : Code) (bytes : List UInt8) :
    Code.truncate (code ++ bytes) code.size = code := by
  apply Array.toList_inj.mp
  rw [Code.truncate, Array.toList_shrink, Array.toList_appendList, ← Array.length_toList,
    List.take_left]

/-- What was appended can be overwritten as a whole, by as many bytes. The result is as if the new
bytes had been appended at once. -/
theorem Code.overwrite_end {code : Code} {bytes more : List UInt8}
    (hlength : more.length = bytes.length) :
    Code.overwrite (code ++ bytes) code.size more = code ++ more := by
  apply Array.ext_getElem?
  intro i
  rw [Code.getElem?_overwrite, Code.getElem?_append, Code.getElem?_append, Code.size_append]
  by_cases hi : i < code.size
  · rw [if_neg (by omega), if_pos hi, if_pos hi]
  · rw [if_neg hi, if_neg hi]
    split
    · rfl
    · rw [List.getElem?_eq_none (by omega), List.getElem?_eq_none (by omega)]

/-! ## Patching

A list of patches is described by what it may have changed: the operand bytes of the patched jumps
and nothing else, with each of them an instruction that leads to its target. Jumps stand at least
three bytes apart, so no patch undoes another one, and lists of patches can be put together
(`Patched.append`). -/

/-- The operations that are emitted before their target is known: those with a single operand of two
bytes. -/
def Op.Patchable (op : Op) : Prop :=
  op.widths = [2]

theorem Op.Patchable.size {op : Op} (h : op.Patchable) : op.size = 3 := by
  rw [Op.size, Op.operandSize, h]
  rfl

theorem Op.patchable_jump : Op.Patchable .jump := rfl

theorem Op.patchable_jumpNotTruthy : Op.Patchable .jumpNotTruthy := rfl

/-- The two bytes behind the opcode of a jump at `p`. Two patchable jumps three bytes apart never
share such a byte. -/
def IsOperand (p i : Nat) : Prop :=
  i = p + 1 ∨ i = p + 2

/-- Some jumps of a code have been sent to targets, and nothing else has changed. The target is
promised for whatever patchable operation stood there, because patching reads the operation from the
code and writes it again. -/
structure Patched (jumps : List (Nat × Nat)) (code code' : Code) : Prop where
  size : code'.size = code.size
  same : ∀ i, (∀ j ∈ jumps, ¬ IsOperand j.1 i) → code'[i]? = code[i]?
  target : ∀ j ∈ jumps, ∀ op : Op, op.Patchable → code[j.1]? = some op.byte →
    InstrAt code' j.1 op [j.2]

/-- What `Segment.patch` does to the code of a segment. -/
theorem Compilation.Segment.patch_code {segment : Compilation.Segment} {p target : Nat} {op : Op}
    (hhead : segment.code[p]? = some op.byte) :
    segment.patch p target
      = { segment with code := segment.code.overwrite p (op.encode [target]) } := by
  obtain ⟨code, last, previous, loops, depth⟩ := segment
  have hop : code[p]?.bind Op.ofByte? = some op := by
    rw [show code[p]? = some op.byte from hhead, Option.bind_some, Op.ofByte?_byte]
  simp only [Compilation.Segment.patch, hop]

/-- One patch. It rewrites all three bytes of the instruction, the opcode with the value that it
had. -/
theorem patched_single {code : Code} {p : Nat} (target : Nat) {op : Op} (hop : op.Patchable)
    (hhead : code[p]? = some op.byte) (hsize : p + 3 ≤ code.size) :
    Patched [(p, target)] code (code.overwrite p (op.encode [target])) where
  size := Code.size_overwrite ..
  same i hi := by
    have hi' : ¬ IsOperand p i := hi (p, target) (by simp)
    rw [Code.getElem?_overwrite]
    split
    · rename_i hin
      rw [Op.length_encode, hop.size] at hin
      -- inside the instruction but no operand byte: the byte of the operation itself
      have : i = p := by unfold IsOperand at hi'; omega
      subst this
      rw [Nat.sub_self, hhead]
      rfl
    · rfl
  target j hj op' hop' hhead' := by
    obtain rfl : j = (p, target) := by simpa using hj
    have hbyte : op'.byte = op.byte := by simpa [hhead] using hhead'.symm
    have hsame : op' = op := by
      have := Op.ofByte?_byte op'
      rw [hbyte, Op.ofByte?_byte] at this
      exact (Option.some.inj this).symm
    subst hsame
    intro k hk
    have hk' : k < 3 := by rwa [Op.length_encode, hop.size] at hk
    rw [Code.getElem?_overwrite, if_pos (by simp [hop.size]; omega), Nat.add_sub_cancel_left]

/-- Patches of jumps that do not overlap can be made one after the other. -/
theorem Patched.append {jumps : List (Nat × Nat)} {code code' code'' : Code}
    (h : Patched jumps code code') (more : List (Nat × Nat)) (h' : Patched more code' code'')
    (hapart : ∀ j ∈ jumps, ∀ k ∈ more, j.1 + 3 ≤ k.1 ∨ k.1 + 3 ≤ j.1) :
    Patched (jumps ++ more) code code'' where
  size := h'.size.trans h.size
  same i hi := by
    rw [h'.same i fun j hj => hi j (by simp [hj]), h.same i fun j hj => hi j (by simp [hj])]
  target j hj op hop hhead := by
    rcases List.mem_append.mp hj with hj | hj
    · -- patched first: the later patches touch other bytes
      refine (h.target j hj op hop hhead).congr fun i hi hi' => h'.same i fun k hk hop' => ?_
      have := hapart j hj k hk
      rw [hop.size] at hi'
      unfold IsOperand at hop'
      omega
    · refine h'.target j hj op hop ?_
      rw [h.same j.1 fun k hk hop' => ?_]
      · exact hhead
      · have := hapart k hk j hj
        unfold IsOperand at hop'
        omega

/-- A jump that stands apart from all that is patched still looks as it did. -/
theorem Patched.head {jumps : List (Nat × Nat)} {code code' : Code} {p : Nat}
    (h : Patched jumps code code') (hp : code[p]? = some Op.jump.byte ∧ p + 3 ≤ code.size)
    (hapart : ∀ j ∈ jumps, j.1 + 3 ≤ p ∨ p + 3 ≤ j.1) :
    code'[p]? = some Op.jump.byte ∧ p + 3 ≤ code'.size := by
  refine ⟨(h.same p fun j hj => ?_).trans hp.1, Nat.le_trans hp.2 (Nat.le_of_eq h.size.symm)⟩
  have := hapart j hj
  unfold IsOperand
  omega

theorem patched_nil (code : Code) : Patched [] code code :=
  ⟨rfl, fun _ _ => rfl, fun _ hj => absurd hj (by simp)⟩

end Scriptlet
