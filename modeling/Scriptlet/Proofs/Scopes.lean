import Scriptlet.Evaluation

/-!
# Scopes and their bindings

What the operations on scopes do to the bindings of each scope: one is changed, all others stay.
Scopes are only ever added, so a scope keeps its number, and whether it belongs to a loop.

All of this is said of `bound?`, what one scope holds for one name. An environment is a list of
scopes, so what a name means in it follows from what its scopes hold, without a look at the maps
they are made of.
-/

namespace Scriptlet.Scopes

variable {scopes : Scopes} {id other : ScopeId} {name name' : String} {value : Value}

/-! ## One scope

For each operation, what every scope holds for every name afterwards. -/

@[simp] theorem size_bind (scopes : Scopes) (id : ScopeId) (name : String) (value : Value) :
    (scopes.bind id name value).size = scopes.size := by
  simp [bind]

theorem bound?_bind_self (hid : id < scopes.size) :
    (scopes.bind id name value).bound? id name = some value := by
  simp [bound?, bind, Array.getElem?_modify, Array.getElem?_eq_getElem hid]

theorem bound?_bind_name (hname : name' ≠ name) :
    (scopes.bind id name value).bound? other name' = scopes.bound? other name' := by
  simp only [bound?, bind, Array.getElem?_modify]
  split
  · rename_i heq
    subst heq
    cases scopes[id]? with
    | none => rfl
    | some scope => simp [Std.TreeMap.getElem?_insert, Ne.symm hname]
  · rfl

theorem bound?_bind_other (hid : other ≠ id) :
    (scopes.bind id name value).bound? other name' = scopes.bound? other name' := by
  simp [bound?, bind, Array.getElem?_modify, Ne.symm hid]

/-- There is nothing to bind in a scope that does not exist. -/
theorem bind_of_size_le (hid : scopes.size ≤ id) : scopes.bind id name value = scopes := by
  apply Array.ext_getElem?
  intro i
  rw [bind, Array.getElem?_modify]
  split
  · rename_i heq
    subst heq
    rw [Array.getElem?_eq_none hid, Option.map_none]
  · rfl

/-- A binding is the one that was made last, or was there before. -/
theorem bound?_bind_cases {v : Value}
    (h : (scopes.bind id name value).bound? other name' = some v) :
    v = value ∨ scopes.bound? other name' = some v := by
  by_cases hname : name' = name
  · by_cases hid : other = id
    · subst hname hid
      by_cases hsize : other < scopes.size
      · rw [bound?_bind_self hsize] at h
        exact .inl (Option.some.inj h).symm
      · simp [bound?, bind, hsize] at h
    · rw [bound?_bind_other hid] at h
      exact .inr h
  · rw [bound?_bind_name hname] at h
    exact .inr h

@[simp] theorem size_add (scopes : Scopes) (inLoop : Bool) :
    (scopes.add inLoop).size = scopes.size + 1 := by
  simp [add]

theorem bound?_add (inLoop : Bool) (hid : id < scopes.size) :
    (scopes.add inLoop).bound? id name = scopes.bound? id name := by
  simp only [bound?, add, Array.getElem?_push]
  rw [if_neg (Nat.ne_of_lt hid)]

/-- A new scope has no bindings. -/
theorem bound?_add_next (inLoop : Bool) :
    (scopes.add inLoop).bound? scopes.next name = none := by
  simp [bound?, add, next]

theorem bound?_of_add {inLoop : Bool}
    (h : (scopes.add inLoop).bound? id name = some value) : scopes.bound? id name = some value := by
  rcases Nat.lt_trichotomy id scopes.size with hid | rfl | hid
  · rwa [bound?_add inLoop hid] at h
  · rw [show (scopes.add inLoop).bound? scopes.size name = none from bound?_add_next inLoop] at h
    cases h
  · simp [bound?, add, Array.getElem?_push, Nat.ne_of_gt hid, Nat.not_lt_of_gt hid] at h

theorem bound?_bind (hid : id < scopes.size) :
    (scopes.bind id name value).bound? other name'
      = if other = id ∧ name' = name then some value else scopes.bound? other name' := by
  split
  · rename_i h
    rw [h.1, h.2, bound?_bind_self hid]
  · rename_i h
    rcases Decidable.not_and_iff_or_not.mp h with hother | hname
    · exact bound?_bind_other hother
    · exact bound?_bind_name hname

/-- A new scope has no bindings, as before. -/
theorem bound?_add_eq (inLoop : Bool) (id : ScopeId) (name : String) :
    (scopes.add inLoop).bound? id name = scopes.bound? id name := by
  by_cases hid : id < scopes.size
  · exact bound?_add inLoop hid
  · have hnone : scopes.bound? id name = none := by
      rw [bound?, Array.getElem?_eq_none (Nat.le_of_not_lt hid), Option.bind_none]
    rw [hnone, Option.eq_none_iff_forall_ne_some]
    exact fun value hvalue => Option.some_ne_none value ((bound?_of_add hvalue).symm.trans hnone)

/-! ## Scopes of loops

Whether a scope belongs to a loop is decided when it is made, and no binding changes it. -/

/-- Whether a scope belongs to a loop. -/
def ofLoop (scopes : Scopes) (id : ScopeId) : Bool :=
  (scopes[id]?.map Scope.inLoop).getD false

theorem lt_size_of_ofLoop (h : scopes.ofLoop id = true) : id < scopes.size :=
  Nat.lt_of_not_le fun hle => by simp [ofLoop, hle] at h

theorem ofLoop_bind : (scopes.bind id name value).ofLoop other = scopes.ofLoop other := by
  simp only [ofLoop, bind, Array.getElem?_modify]
  split
  · rename_i heq
    subst heq
    cases scopes[id]? <;> rfl
  · rfl

theorem ofLoop_add (inLoop : Bool) (hid : id < scopes.size) :
    (scopes.add inLoop).ofLoop id = scopes.ofLoop id := by
  simp only [ofLoop, add, Array.getElem?_push]
  rw [if_neg (Nat.ne_of_lt hid)]

theorem ofLoop_add_next (inLoop : Bool) : (scopes.add inLoop).ofLoop scopes.next = inLoop := by
  simp [ofLoop, add, next]

theorem inLoop_cons_of_ofLoop (h : scopes.ofLoop id = true) (env : Env) :
    scopes.inLoop (id :: env) = true := by
  have hid : (scopes[id]?.map Scope.inLoop).getD false = true := h
  simp [inLoop, hid]

/-! ## Environments

An environment is gone through from its innermost scope outwards: either the scope has the name, or
the others decide. -/

theorem lookup?_cons_of_bound {env : Env} (h : scopes.bound? id name = some value) :
    scopes.lookup? name (id :: env) = some value := by
  rw [lookup?, h]

theorem lookup?_cons_of_unbound {env : Env} (h : scopes.bound? id name = none) :
    scopes.lookup? name (id :: env) = scopes.lookup? name env := by
  rw [lookup?, h]

theorem lookup?_root (scopes : Scopes) (name : String) (id : ScopeId) :
    scopes.lookup? name [id] = scopes.bound? id name := by
  rw [lookup?, lookup?]
  cases scopes.bound? id name <;> rfl

theorem assign_cons_of_bound {env : Env} (henv : env ≠ [])
    (h : (scopes.bound? id name).isSome) :
    scopes.assign name value (id :: env) = scopes.bind id name value := by
  cases env with
  | nil => exact absurd rfl henv
  | cons next env => rw [assign, if_pos h]; exact fun h' => absurd h' (by simp)

theorem assign_cons_of_unbound {env : Env} (henv : env ≠ [])
    (h : scopes.bound? id name = none) :
    scopes.assign name value (id :: env) = scopes.assign name value env := by
  cases env with
  | nil => exact absurd rfl henv
  | cons next env => rw [assign, if_neg (by simp [h])]; exact fun h' => absurd h' (by simp)

/-- Defining a name changes one binding, unless there is no scope at all. -/
theorem define_cases (scopes : Scopes) (env : Env) (name : String) (value : Value) :
    scopes.define env name value = scopes
      ∨ ∃ id, scopes.define env name value = scopes.bind id name value := by
  cases env with
  | nil => exact .inl rfl
  | cons id outer => exact .inr ⟨id, rfl⟩

/-- So does assigning it. -/
theorem assign_cases (scopes : Scopes) (name : String) (value : Value) (env : Env) :
    scopes.assign name value env = scopes
      ∨ ∃ id, scopes.assign name value env = scopes.bind id name value := by
  induction env with
  | nil => exact .inl rfl
  | cons id env ih =>
    cases env with
    | nil => exact .inr ⟨id, rfl⟩
    | cons next env =>
      rw [assign]
      · split
        · exact .inr ⟨id, rfl⟩
        · exact ih
      · simp

/-! ## Where a name is found

An environment finds a name in the nearest of its scopes that holds it (`holder?`). Reading,
defining and assigning are all told by that scope: a read gives what it holds (`lookup?_eq`), an
assignment stores in it, or in the outermost scope if there is none (`assign_eq`), and a definition
stores in the innermost scope whatever the others hold (`define_eq`). -/

section Chains

variable {env : Env}

/-- The nearest scope of an environment that holds a name. -/
def holder? (scopes : Scopes) (name : String) (env : Env) : Option ScopeId :=
  env.find? fun id => (scopes.bound? id name).isSome

theorem holder?_cons_of_bound (h : (scopes.bound? id name).isSome) :
    scopes.holder? name (id :: env) = some id :=
  List.find?_cons_of_pos h

theorem holder?_cons_of_unbound (h : scopes.bound? id name = none) :
    scopes.holder? name (id :: env) = scopes.holder? name env :=
  List.find?_cons_of_neg (by simp [h])

theorem isSome_bound?_holder (h : scopes.holder? name env = some id) :
    (scopes.bound? id name).isSome :=
  List.find?_some (p := fun id => (scopes.bound? id name).isSome) h

theorem lookup?_eq (scopes : Scopes) (name : String) (env : Env) :
    scopes.lookup? name env = (scopes.holder? name env).bind fun id => scopes.bound? id name := by
  induction env with
  | nil => rfl
  | cons id env ih =>
    cases hbound : scopes.bound? id name with
    | none => rw [lookup?_cons_of_unbound hbound, holder?_cons_of_unbound hbound, ih]
    | some value =>
      rw [lookup?_cons_of_bound hbound, holder?_cons_of_bound (by simp [hbound]),
        Option.bind_some, hbound]

/-- Binds a name in a scope, if there is one. -/
def bindAt (scopes : Scopes) (id : Option ScopeId) (name : String) (value : Value) : Scopes :=
  id.elim scopes fun id => scopes.bind id name value

theorem define_eq (scopes : Scopes) (env : Env) (name : String) (value : Value) :
    scopes.define env name value = scopes.bindAt env.head? name value := by
  cases env <;> rfl

theorem assign_eq (scopes : Scopes) (name : String) (value : Value) (env : Env) :
    scopes.assign name value env
      = scopes.bindAt ((scopes.holder? name env).or env.getLast?) name value := by
  induction env with
  | nil => rfl
  | cons id env ih =>
    cases env with
    | nil =>
      have htarget : (scopes.holder? name [id]).or (some id) = some id := by
        cases hbound : scopes.bound? id name with
        | none => rw [holder?_cons_of_unbound hbound]; rfl
        | some v => rw [holder?_cons_of_bound (by simp [hbound])]; rfl
      rw [List.getLast?_singleton, htarget]
      rfl
    | cons next env =>
      cases hbound : scopes.bound? id name with
      | none =>
        rw [assign_cons_of_unbound (List.cons_ne_nil _ _) hbound, ih,
          holder?_cons_of_unbound hbound, List.getLast?_cons_cons]
      | some v =>
        have hsome : (scopes.bound? id name).isSome := by simp [hbound]
        rw [assign_cons_of_bound (List.cons_ne_nil _ _) hsome, holder?_cons_of_bound hsome]
        rfl

end Chains

end Scriptlet.Scopes
