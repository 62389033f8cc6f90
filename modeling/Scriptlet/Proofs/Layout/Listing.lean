import Scriptlet.Proofs.Layout.Decoding

/-!
# Streams of instructions

Code has no marks between its instructions, so where one starts depends on the widths of all before
it. Encoding any instructions one behind the other and decoding the bytes gives the same operations,
each at the sum of the sizes before it, with its operands cut to the widths that it has for them
(`Op.cut`). The listing has one line for each (`Code.listing?_ofInstructions`).
-/

namespace Scriptlet

/-- The operands that an instruction has room for: one for each width, modulo the numbers of so many
bytes. A missing one is zero, and those beyond are dropped. -/
def Op.cut (op : Op) (operands : List Nat) : List Nat :=
  op.widths.mapIdx fun i width => operands.getD i 0 % 2 ^ (8 * width)

/-- The line of an instruction in a listing: position, name and operands. -/
def Instruction.line (i : Instruction) : String :=
  fourDigits i.position ++ " " ++ i.op.name
    ++ String.join (i.operands.map fun n => " " ++ toString n)

namespace Code

/-- Where the instruction with an index starts: behind all those before it. -/
def offset : (instrs : List (Op × List Nat)) → (index : Nat) → Nat
  | (op, _) :: instrs, index + 1 => op.size + offset instrs index
  | _, _ => 0

/-- Instructions in a row from a position on, each at its place and with the operands that it has
room for. -/
def placed (p : Nat) (instrs : List (Op × List Nat)) : List Instruction :=
  instrs.mapIdx fun index instr => ⟨p + offset instrs index, instr.1, instr.1.cut instr.2⟩

end Code

/-! ## Items -/

theorem readBack_eq_mapIdx (widths operands : List Nat) :
    readBack widths operands
      = widths.mapIdx fun i width => operands.getD i 0 % 2 ^ (8 * width) := by
  induction widths generalizing operands with
  | nil => rfl
  | cons width widths ih =>
    have hpow : 2 ^ (8 * width) = 256 ^ width := Nat.pow_mul 2 8 width
    cases operands with
    | nil =>
      rw [readBack, ih, List.mapIdx_cons]
      simp
    | cons n operands =>
      rw [readBack, ih, List.mapIdx_cons, List.getD_cons_zero, hpow]
      rfl

namespace Code

theorem placed_cons (p : Nat) (instr : Op × List Nat) (instrs : List (Op × List Nat)) :
    placed p (instr :: instrs)
      = ⟨p, instr.1, instr.1.cut instr.2⟩ :: placed (p + instr.1.size) instrs := by
  have hoffset : ∀ index,
      p + offset (instr :: instrs) (index + 1) = p + instr.1.size + offset instrs index :=
    fun index => (Nat.add_assoc p instr.1.size (offset instrs index)).symm
  rw [placed, List.mapIdx_cons]
  simp only [hoffset]
  rfl

/-- The items of the bytes of instructions, from a position on. -/
theorem itemsFrom?_flatMap (p : Nat) (instrs : List (Op × List Nat)) :
    itemsFrom? p (instrs.flatMap fun (op, operands) => op.encode operands)
      = some ((placed p instrs).map Instruction.item) := by
  induction instrs generalizing p with
  | nil => rw [List.flatMap_nil, itemsFrom?, placed, List.mapIdx_nil, List.map_nil]
  | cons instr instrs ih =>
    rw [List.flatMap_cons, itemsFrom?_encode, ih, placed_cons, readBack_eq_mapIdx]
    rfl

theorem items?_ofInstructions (instrs : List (Op × List Nat)) :
    (ofInstructions instrs).items? = some ((placed 0 instrs).map Instruction.item) :=
  itemsFrom?_flatMap 0 instrs

end Code

/-! ## Lines -/

theorem newline_not_mem_digits (n : Nat) : '\n' ∉ Nat.toDigits 10 n :=
  fun h => absurd (Nat.isDigit_of_mem_toDigits (by decide) (by decide) h) (by decide)

theorem newline_not_mem_fourDigits (n : Nat) : '\n' ∉ (fourDigits n).toList := by
  unfold fourDigits
  rw [String.toList_ofList, List.mem_append, List.mem_replicate]
  rintro (⟨-, hzero⟩ | hdigit)
  · cases hzero
  · exact newline_not_mem_digits n hdigit

theorem newline_not_mem_operands (operands : List Nat) :
    '\n' ∉ (String.join (operands.map fun n => " " ++ toString n)).toList := by
  rw [String.toList_join]
  intro h
  obtain ⟨text, htext, hmem⟩ := List.mem_flatMap.mp h
  obtain ⟨n, -, rfl⟩ := List.mem_map.mp htext
  rw [String.toList_append, List.mem_append] at hmem
  rcases hmem with hspace | hdigit
  · exact absurd hspace (by decide)
  · rw [Nat.toString_eq_ofList_toDigits, String.toList_ofList] at hdigit
    exact newline_not_mem_digits n hdigit

/-- A line is one line. -/
theorem Instruction.newline_not_mem_line (i : Instruction) : '\n' ∉ i.line.toList := by
  have hname : '\n' ∉ i.op.name.toList := by
    cases i.op
    all_goals decide
  simp only [line, String.toList_append, List.mem_append]
  rintro (((hposition | hspace) | hop) | hoperands)
  · exact newline_not_mem_fourDigits _ hposition
  · exact absurd hspace (by decide)
  · exact hname hop
  · exact newline_not_mem_operands _ hoperands

/-- Decoding the bytes of instructions gives the same operations, each behind the sizes of those
before it, with the operands that it has room for. The listing has one line for each. -/
theorem Code.listing?_ofInstructions (instrs : List (Op × List Nat)) :
    (ofInstructions instrs).items? = some ((placed 0 instrs).map Instruction.item)
      ∧ (ofInstructions instrs).listing?
        = some (String.join ((placed 0 instrs).map fun i => i.line ++ "\n"))
      ∧ ∀ i ∈ placed 0 instrs, '\n' ∉ i.line.toList := by
  have hitems := items?_ofInstructions instrs
  refine ⟨hitems, ?_, fun i _ => i.newline_not_mem_line⟩
  rw [listing?, hitems, Option.map_some, List.map_map]
  rfl

end Scriptlet
