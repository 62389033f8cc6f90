/-!
# Memory

A memory is a row of cells that all hold one value until they are written. Only the written part is
stored; reading a cell after any write gives what was written last.
-/

namespace Scriptlet.Machine

/-- Cells numbered from zero. -/
structure Memory (α : Type) where
  /-- What a cell holds before it is written. -/
  unset : α
  written : Array α

namespace Memory

variable {α : Type}

/-- The value of a cell. -/
def read (memory : Memory α) (index : Nat) : α :=
  memory.written[index]?.getD memory.unset

/-- Writes a cell. -/
def write (memory : Memory α) (index : Nat) (value : α) : Memory α :=
  match memory with
  | ⟨unset, written⟩ =>
    if index < written.size then ⟨unset, written.setIfInBounds index value⟩
    else ⟨unset, (written ++ Array.replicate (index - written.size) unset).push value⟩

theorem read_write (memory : Memory α) (index other : Nat) (value : α) :
    (memory.write index value).read other = if other = index then value else memory.read other := by
  obtain ⟨unset, written⟩ := memory
  simp only [write]
  split
  · rename_i inside
    by_cases h : other = index
    · subst h
      simp [read, inside]
    · simp [read, h, Ne.symm h]
  · rename_i outside
    simp only [read, Array.getElem?_push, Array.getElem?_append, Array.size_append,
      Array.size_replicate, Array.getElem?_replicate]
    have size : written.size + (index - written.size) = index := by omega
    rw [size]
    by_cases h : other = index
    · simp [h]
    · simp only [h, if_false]
      split
      · rfl
      · rename_i behind
        rw [Array.getElem?_eq_none (by omega)]
        split <;> rfl

end Memory

end Scriptlet.Machine
