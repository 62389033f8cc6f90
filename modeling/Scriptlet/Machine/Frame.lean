import Scriptlet.Value

/-!
# Frames

A frame is one activation of a function: its code, the position in it, where its locals start on the
stack, and the cells that it knows. A local that a closure has captured lives in a cell from then
on, and its slot on the stack is not used any more.
-/

namespace Scriptlet.Machine

/-- One activation of a function. -/
structure Frame where
  code : FunctionCode
  /-- The cells of the variables that the running closure has captured. -/
  free : Array CellId
  /-- The position of the next instruction. -/
  position : Nat
  /-- The stack slot of the first local. -/
  base : Nat
  /-- The cells of the locals that are captured, by the index of the local. -/
  captured : List (Nat × CellId)

namespace Frame

/-- The start of a function. -/
def enter (code : FunctionCode) (free : Array CellId) (base : Nat) : Frame :=
  ⟨code, free, 0, base, []⟩

/-- The cell of a local, if it is captured. -/
def cell? (frame : Frame) (index : Nat) : Option CellId :=
  frame.captured.lookup index

/-- Moves a local into a cell, unless it is in one; `next` is an unused cell. Returns the cell of
the local and whether it is the new one. -/
def capture (frame : Frame) (index : Nat) (next : CellId) : CellId × Bool × Frame :=
  match frame.cell? index with
  | some cell => (cell, false, frame)
  | none => (next, true, { frame with captured := (index, next) :: frame.captured })

end Frame

end Scriptlet.Machine
