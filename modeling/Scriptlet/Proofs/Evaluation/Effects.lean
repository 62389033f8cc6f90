import Scriptlet.Evaluation

/-!
# Effects of the parts of an evaluation

Evaluations in a row: what they do, from what the parts do, and what the parts did, from what they
have done. The equations go forwards through a computation whose outcome is to be found, the
inversions backwards through one whose outcome is known.
-/

namespace Scriptlet.Evaluation

variable {α β : Type} {world world' : World}

/-- A part that ends well is passed over. -/
theorem bind_of_ok {x : Eval α} {value : α} (h : x world = .ok value world') (f : α → Eval β) :
    (x >>= f) world = f value world' := by
  show EStateM.bind x f world = _
  rw [EStateM.bind, h]

/-- A part that is left by a signal ends the whole. -/
theorem bind_of_error {x : Eval α} {signal : Signal} (h : x world = .error signal world')
    (f : α → Eval β) : (x >>= f) world = .error signal world' := by
  show EStateM.bind x f world = _
  rw [EStateM.bind, h]

/-- **An evaluation that ends well has ended well in each of its parts.** This is how a hypothesis
on the whole is taken apart, one `obtain` for each bind. -/
theorem bind_eq_ok {x : Eval α} {f : α → Eval β} {value : β}
    (h : (x >>= f) world = .ok value world') :
    ∃ a world₁, x world = .ok a world₁ ∧ f a world₁ = .ok value world' := by
  have h : EStateM.bind x f world = .ok value world' := h
  unfold EStateM.bind at h
  cases hx : x world with
  | ok a world₁ =>
    rw [hx] at h
    exact ⟨a, world₁, rfl, h⟩
  | error signal world₁ =>
    rw [hx] at h
    cases h

theorem throw_ne_ok {signal : Signal} {value : α} :
    (throw signal : Eval α) world ≠ .ok value world' := by
  intro h
  have h : (.error signal world : EStateM.Result Signal World α) = .ok value world' := h
  cases h

theorem ofExcept_ok {value : α} {x : Except Fault α} (h : x = .ok value) :
    ofExcept x world = .ok value world := by
  rw [h]
  rfl

/-- **A name is known by what it means in the environment** and, failing that, among the built-in
functions. -/
theorem identifier_eq (table : BuiltinTable) (env : Env) (name : String) (world : World) :
    identifier table env name world = match world.scopes.lookup? name env with
      | some value => .ok value world
      | none => match table.find? name with
        | some builtin => .ok (.builtin builtin) world
        | none => .error (.halted (.fault (.unbound name))) world := by
  have hlookup : Evaluation.lookup? env name world
      = .ok (world.scopes.lookup? name env) world := rfl
  unfold identifier
  rw [bind_of_ok hlookup]
  cases world.scopes.lookup? name env with
  | some value => rfl
  | none => cases table.find? name <;> rfl

end Scriptlet.Evaluation
