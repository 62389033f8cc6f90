import Scriptlet.Bytecode.Listing
import Scriptlet.Proofs.Layout.Bytes

/-!
# Decoding code

Code that consists of whole instructions, one behind the other, decodes into exactly these
(`Tiles.items?_eq`). `Tiles` is the shape in which a layout delivers its instructions: each stands
at the position where the one before it ends. Decoding reads operands back from their bytes, so an
operand that is too large for its width comes back without its high bytes (`readBack`).

The second half says that the tiling of some code is unique (`Tiles.ops_eq`): the boundaries between
instructions are determined by the bytes and the place where one starts. So two descriptions of the
same code, by a layout and by a decoder, agree on where its instructions are.
-/

namespace Scriptlet

/-! ## Operands

Encoding and decoding go through the widths of an operation in step. The induction is on the list of
widths, with the operands general, because a missing operand counts as zero on the one side and is
decoded as zero on the other. -/

theorem ofBigEndian_append (bytes : List UInt8) (b : UInt8) :
    ofBigEndian (bytes ++ [b]) = 256 * ofBigEndian bytes + b.toNat := by
  unfold ofBigEndian
  rw [List.foldl_append]
  rfl

/-- Reading bytes undoes writing them, as far as they have room. -/
theorem ofBigEndian_bigEndian (width n : Nat) :
    ofBigEndian (bigEndian width n) = n % 256 ^ width := by
  induction width generalizing n with
  | zero =>
    rw [Nat.pow_zero, Nat.mod_one]
    rfl
  | succ width ih =>
    have hsplit : n % 256 ^ (width + 1) = 256 * (n / 256 % 256 ^ width) + n % 256 := by
      rw [Nat.pow_succ, Nat.mul_comm, Nat.mod_mul, Nat.add_comm]
    rw [bigEndian, ofBigEndian_append, ih, UInt8.toNat_ofNat', hsplit]

/-- **Decoding undoes encoding, modulo the width of each operand.** Bytes behind the operands are
left alone, so the lemma can be used in the middle of code. -/
theorem decodeOperands?_encodeOperands (widths operands : List Nat) (rest : List UInt8) :
    Op.decodeOperands? widths (Op.encodeOperands widths operands ++ rest)
      = some (readBack widths operands) := by
  induction widths generalizing operands with
  | nil => rfl
  | cons width widths ih =>
    cases operands with
    | nil =>
      rw [Op.encodeOperands, List.append_assoc, Op.decodeOperands?, if_pos (by simp),
        List.drop_left' (length_bigEndian width 0), List.take_left' (length_bigEndian width 0), ih,
        ofBigEndian_bigEndian, Nat.zero_mod]
      rfl
    | cons n operands =>
      rw [Op.encodeOperands, List.append_assoc, Op.decodeOperands?, if_pos (by simp),
        List.drop_left' (length_bigEndian width n), List.take_left' (length_bigEndian width n), ih,
        ofBigEndian_bigEndian]
      rfl

/-- High bytes for which there is no room do not show in the encoding. -/
theorem bigEndian_mod (width n : Nat) : bigEndian width (n % 256 ^ width) = bigEndian width n := by
  induction width generalizing n with
  | zero => rfl
  | succ width ih =>
    have hbyte : UInt8.ofNat (n % 256 ^ (width + 1)) = UInt8.ofNat n := by
      apply UInt8.toNat_inj.mp
      rw [UInt8.toNat_ofNat', UInt8.toNat_ofNat', Nat.pow_succ]
      exact Nat.mod_mod_of_dvd n (Nat.dvd_mul_left 256 _)
    rw [bigEndian, bigEndian, hbyte, Nat.pow_succ, Nat.mul_comm, Nat.mod_mul_right_div_self, ih]

/-- Operands that are read back from their bytes have the same bytes. -/
theorem encodeOperands_readBack (widths operands : List Nat) :
    Op.encodeOperands widths (readBack widths operands) = Op.encodeOperands widths operands := by
  induction widths generalizing operands with
  | nil => rfl
  | cons width widths ih =>
    cases operands with
    | nil => rw [readBack, Op.encodeOperands, Op.encodeOperands, ih]
    | cons n operands => rw [readBack, Op.encodeOperands, Op.encodeOperands, bigEndian_mod, ih]

/-- What stands in code is also the instruction that is read from its bytes, so a layout may be
stated with the operands that the compiler was asked for or with those that the machine will
read. -/
theorem InstrAt.readBack {code : Code} {p : Nat} {op : Op} {operands : List Nat}
    (h : InstrAt code p op operands) : InstrAt code p op (readBack op.widths operands) := by
  unfold InstrAt Op.encode at h ⊢
  rwa [encodeOperands_readBack]

/-! ## Instructions one behind the other

`Tiles` is a recursion on the list of instructions that carries the position along. All lemmas about
it are inductions on that list with the position general. -/

/-- An instruction at its place in code. -/
structure Instruction where
  position : Nat
  op : Op
  operands : List Nat
deriving DecidableEq, Repr

/-- The item of a listing that an instruction is. -/
def Instruction.item (i : Instruction) : Nat × Item :=
  (i.position, .instruction i.op i.operands)

/-- **The code from `p` to `q` consists of the given instructions**: the first stands at `p`, each
further one where the one before it ends, and the last one ends at `q`. -/
def Tiles (code : Code) : (p q : Nat) → List Instruction → Prop
  | p, q, [] => p = q
  | p, q, i :: rest =>
    i.position = p ∧ InstrAt code p i.op i.operands ∧ Tiles code (p + i.op.size) q rest

/-- The positions of instructions. -/
def starts (instrs : List Instruction) : List Nat :=
  instrs.map Instruction.position

theorem mem_starts_append {p : Nat} {instrs more : List Instruction} :
    p ∈ starts (instrs ++ more) ↔ p ∈ starts instrs ∨ p ∈ starts more := by
  rw [starts, List.map_append, List.mem_append]
  rfl

theorem mem_starts_right {p : Nat} (instrs : List Instruction) {more : List Instruction}
    (h : p ∈ starts more) : p ∈ starts (instrs ++ more) :=
  mem_starts_append.mpr (.inr h)

section Tiles

variable {code : Code} {p q r : Nat} {instrs more : List Instruction}

/-- Two parts of code that meet at `q`. -/
theorem Tiles.append (h : Tiles code p q instrs) (h' : Tiles code q r more) :
    Tiles code p r (instrs ++ more) := by
  induction instrs generalizing p with
  | nil =>
    obtain rfl : p = q := h
    exact h'
  | cons i rest ih =>
    obtain ⟨hposition, hinstr, hrest⟩ := h
    exact ⟨hposition, hinstr, ih hrest⟩

/-- A part of code that is not empty starts with an instruction. -/
theorem Tiles.start_mem (h : Tiles code p q instrs) (hlt : p < q) : p ∈ starts instrs := by
  cases instrs with
  | nil =>
    obtain rfl : p = q := h
    exact absurd hlt (Nat.lt_irrefl p)
  | cons i rest =>
    obtain ⟨rfl, -, -⟩ := h
    exact List.mem_cons_self

theorem Tiles.le (h : Tiles code p q instrs) : p ≤ q := by
  induction instrs generalizing p with
  | nil => exact Nat.le_of_eq h
  | cons i rest ih => exact Nat.le_trans (Nat.le_add_right p _) (ih h.2.2)

/-- An empty part of code has no instructions. -/
theorem Tiles.eq_nil (h : Tiles code p p instrs) : instrs = [] := by
  cases instrs with
  | nil => rfl
  | cons i rest =>
    have hle := h.2.2.le
    have hpos := i.op.size_pos
    omega

/-- The bytes behind a position where an instruction stands: its own, and those behind its end. This
turns the pointwise `InstrAt` into the list that the decoder works on. -/
theorem InstrAt.drop_eq {op : Op} {operands : List Nat} (h : InstrAt code p op operands) :
    code.toList.drop p = op.encode operands ++ code.toList.drop (p + op.size) := by
  apply List.ext_getElem?
  intro k
  have hlength := Op.length_encode op operands
  rw [List.getElem?_drop, Array.getElem?_toList]
  by_cases hk : k < op.size
  · rw [List.getElem?_append_left (by omega)]
    exact h k (by omega)
  · rw [List.getElem?_append_right (by omega), List.getElem?_drop, Array.getElem?_toList]
    congr 1
    omega

/-- The first item of bytes that start with an instruction. Its operands come back modulo their
widths, and decoding goes on behind it. -/
theorem itemsFrom?_encode (p : Nat) (op : Op) (operands : List Nat) (rest : List UInt8) :
    Code.itemsFrom? p (op.encode operands ++ rest)
      = (Code.itemsFrom? (p + op.size) rest).map
        ((p, .instruction op (readBack op.widths operands)) :: ·) := by
  have hoperands : op.operands? (Op.encodeOperands op.widths operands ++ rest)
      = some (readBack op.widths operands) := decodeOperands?_encodeOperands ..
  have hdrop : (Op.encodeOperands op.widths operands ++ rest).drop op.operandSize = rest :=
    List.drop_left' (Op.length_encodeOperands ..)
  rw [Op.encode, List.cons_append, Code.itemsFrom?, Op.ofByte?_byte]
  dsimp only
  rw [hoperands]
  dsimp only
  rw [hdrop, Op.size, ← Nat.add_assoc]

/-- **Code decodes into the instructions that it consists of**, if their operands fit their
widths. -/
theorem Tiles.items?_eq (h : Tiles code 0 code.size instrs)
    (hexact : ∀ i ∈ instrs, readBack i.op.widths i.operands = i.operands) :
    code.items? = some (instrs.map Instruction.item) := by
  -- the instructions from any position on are decoded from the bytes behind it
  suffices hfrom : ∀ p, Tiles code p code.size instrs →
      Code.itemsFrom? p (code.toList.drop p) = some (instrs.map Instruction.item) from hfrom 0 h
  clear h
  induction instrs with
  | nil =>
    intro p h
    obtain rfl : p = code.size := h
    rw [List.drop_eq_nil_of_le (by simp), Code.itemsFrom?]
    rfl
  | cons i rest ih =>
    rintro p ⟨rfl, hinstr, hrest⟩
    rw [hinstr.drop_eq, itemsFrom?_encode, hexact i List.mem_cons_self,
      ih (fun j hj => hexact j (List.mem_cons_of_mem i hj)) _ hrest]
    rfl

/-- **There is one way to read code as a row of instructions.** Two rows from the same position
begin with the same operation, which is read from the byte there; so both go on from the same
position. Operands may differ in what their bytes have no room for. -/
theorem Tiles.ops_eq (h : Tiles code p q instrs) (h' : Tiles code p q more) :
    instrs.map (fun i => (i.position, i.op)) = more.map fun i => (i.position, i.op) := by
  induction instrs generalizing p more with
  | nil =>
    obtain rfl : p = q := h
    rw [h'.eq_nil]
  | cons i rest ih =>
    cases more with
    | nil =>
      obtain rfl : p = q := h'
      exact absurd h.eq_nil (by simp)
    | cons j more =>
      obtain ⟨hi, hinstr, hrest⟩ := h
      obtain ⟨hj, hinstr', hmore⟩ := h'
      have hop := hinstr.op_eq hinstr'
      rw [← hop] at hmore
      rw [List.map_cons, List.map_cons, hi, hj, hop, ih hrest hmore]

/-- Behind an instruction stands another one, or the row ends there. -/
theorem Tiles.next (h : Tiles code p q instrs) {i : Instruction} (hi : i ∈ instrs) :
    i.position + i.op.size ∈ starts instrs ∨ i.position + i.op.size = q := by
  induction instrs generalizing p with
  | nil => exact absurd hi List.not_mem_nil
  | cons j rest ih =>
    obtain ⟨rfl, -, hrest⟩ := h
    rcases List.mem_cons.mp hi with rfl | hi
    · rcases Nat.eq_or_lt_of_le hrest.le with heq | hlt
      · exact .inr heq
      · exact .inl (List.mem_cons_of_mem _ (hrest.start_mem hlt))
    · exact (ih hrest hi).imp_left (List.mem_cons_of_mem _)

/-- An instruction of the row lies inside of the code that the row covers. -/
theorem Tiles.end_le (h : Tiles code p q instrs) {i : Instruction} (hi : i ∈ instrs) :
    i.position + i.op.size ≤ q := by
  induction instrs generalizing p with
  | nil => exact absurd hi List.not_mem_nil
  | cons j rest ih =>
    obtain ⟨rfl, -, hrest⟩ := h
    rcases List.mem_cons.mp hi with rfl | hi
    · exact hrest.le
    · exact ih hrest hi

theorem Tiles.instrAt (h : Tiles code p q instrs) {i : Instruction} (hi : i ∈ instrs) :
    InstrAt code i.position i.op i.operands := by
  induction instrs generalizing p with
  | nil => exact absurd hi List.not_mem_nil
  | cons j rest ih =>
    obtain ⟨rfl, hinstr, hrest⟩ := h
    rcases List.mem_cons.mp hi with rfl | hi
    · exact hinstr
    · exact ih hrest hi

theorem Tiles.starts_eq (h : Tiles code p q instrs) (h' : Tiles code p q more) :
    starts instrs = starts more := by
  have hops := congrArg (List.map Prod.fst) (h.ops_eq h')
  rwa [List.map_map, List.map_map] at hops

/-- What is read from the bytes at a position is the same for all that stands there. -/
theorem InstrAt.readBack_eq {op : Op} {operands operands' : List Nat}
    (h : InstrAt code p op operands) (h' : InstrAt code p op operands') :
    Scriptlet.readBack op.widths operands = Scriptlet.readBack op.widths operands' := by
  have hdrop := h.drop_eq.symm.trans h'.drop_eq
  rw [Op.encode, Op.encode, List.cons_append, List.cons_append] at hdrop
  have hread := congrArg (Op.decodeOperands? op.widths) (List.tail_eq_of_cons_eq hdrop)
  rw [decodeOperands?_encodeOperands, decodeOperands?_encodeOperands] at hread
  exact Option.some.inj hread

end Tiles

end Scriptlet
