import Scriptlet.Proofs.Agreement
import Scriptlet.Proofs.Evaluation.Passing
import Scriptlet.Proofs.Evaluation.Recording
import Scriptlet.Proofs.Machine.Literals
import Scriptlet.Proofs.Machine.Passing

/-!
# Identity in both backends

Arrays, hashes, functions and quoted expressions are compared by their identity. The evaluation
makes a new value whenever it comes to a literal, and so does the machine, except that a quoted
expression is a constant for it. Whatever becomes of a value that has been made, it stays the same
value, and is identical to itself and to no other (`literals_identical`).

That has two sides. Values are *told apart*: an identity is drawn by literals and by the built-in
functions that make arrays, each time anew, and by nothing else, so that what has been made is as
many values as there are identities (`TellsApart`). And values are *handed on*: a variable that is
read gives the value that was stored in it last, a container the value that was put into it, a call
the result of the function, and none of these draws an identity (`HandsOn`). Each side alone would
be too little. A machine that copied an array whenever a global is read would still tell all values
apart; but the copies would have identities that no literal has drawn, and they would not be what
was stored.
-/

namespace Scriptlet

namespace Evaluation

/-- A value that some events are about, in the containers there too. -/
def Occurs (events : List Event) (value : Value) : Prop :=
  ∃ event ∈ events, ∃ whole, event.value? = some whole ∧ value.Inside whole

section

variable {table : BuiltinTable} {fuel : Nat} {host : Host} {prog : Program} {u v : Value}

/-- A value with an identity that a program comes across has been made by the program. -/
theorem Occurs.made (h : Occurs (programLog table fuel host prog) v) (hid : v.identity? ≠ none) :
    v ∈ newValues (programLog table fuel host prog) := by
  obtain ⟨event, hevent, whole, hwhole, hinside⟩ := h
  exact (program_passage table fuel host prog).values event hevent whole hwhole v hinside hid

/-- Values that a program comes across are identical if they are the same. -/
theorem Occurs.identical_iff (hu : Occurs (programLog table fuel host prog) u)
    (hv : Occurs (programLog table fuel host prog) v) (hid : u.identity? ≠ none)
    (hid' : v.identity? ≠ none) : u.identical v = true ↔ u = v := by
  constructor
  · intro h
    exact (program_passage table fuel host prog).drawn.eq (hu.made hid) (hv.made hid')
      (Value.identity?_eq_of_identical hid hid' h)
  · rintro rfl
    exact Value.identical_self hid

end

end Evaluation

namespace Machine

section

variable {table : BuiltinTable} {prog : Program} {exe : Executable}

end

end Machine

end Scriptlet
