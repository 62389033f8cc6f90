import Scriptlet.Proofs.Values

/-!
# Values with an identity

Containers, functions and quoted expressions have an identity, by which the language compares them.
Operators, subscripts and built-in functions hand such values on as they are, or take parts of them;
only `rest` and `push` make an array, whose identity they draw. A property of values is `Hereditary`
if this cannot lose it.

A run deals with values in many steps, each of which takes apart or hands on what it is given. A
hereditary property is one that can be followed through all of them at once, without a look at what
the steps do.
-/

namespace Scriptlet

namespace Value

/-- The identity of a value that has one. -/
def identity? : Value → Option Identity
  | array id _ | hash id _ | function id _ _ _ | compiled id _ | closure id _ _ | quote id _ =>
    some id
  | _ => none

/-- The code of a function. -/
def code? : Value → Option FunctionCode
  | compiled _ code | closure _ code _ => some code
  | _ => none

/-- A value with an identity is identical to itself. -/
theorem identical_self {v : Value} (h : v.identity? ≠ none) : v.identical v = true := by
  cases v <;> first | exact absurd rfl h | exact beq_self_eq_true _

/-- Values with two identities are not identical. -/
theorem identical_of_ne {v w : Value} {i j : Identity} (hv : v.identity? = some i)
    (hw : w.identity? = some j) (hne : i ≠ j) : v.identical w = false := by
  cases v <;> cases hv <;> cases w <;> cases hw
  all_goals first | exact beq_eq_false_iff_ne.mpr hne | rfl

/-- Identical values have the same identity, if both have one. -/
theorem identity?_eq_of_identical {v w : Value} (hv : v.identity? ≠ none) (hw : w.identity? ≠ none)
    (h : v.identical w = true) : v.identity? = w.identity? := by
  obtain ⟨i, hi⟩ := Option.ne_none_iff_exists'.mp hv
  obtain ⟨j, hj⟩ := Option.ne_none_iff_exists'.mp hw
  by_cases hij : i = j
  · rw [hi, hj, hij]
  · rw [identical_of_ne hi hj hij] at h
    cases h

theorem Scalar.identity?_eq {v : Value} (h : v.Scalar) : v.identity? = none := by
  cases v <;> first | rfl | cases h

/-! ## Parts

Two ways to look inside of a value: one level deep (`Parts`), as the operations do, and all the way
down (`Inside`), as a program may by using them again and again. -/

/-- **A value occurs in another one**, as it is or inside of a container. -/
inductive Inside (v : Value) : Value → Prop
  | self : Inside v v
  | element {id : Identity} {elements : List Value} {w : Value} (hw : w ∈ elements)
    (h : Inside v w) : Inside v (.array id elements)
  | shown {id : Identity} {entries : List (Entry Value)} {e : Entry Value} (he : e ∈ entries)
    (h : Inside v e.shown) : Inside v (.hash id entries)
  | value {id : Identity} {entries : List (Entry Value)} {e : Entry Value} (he : e ∈ entries)
    (h : Inside v e.value) : Inside v (.hash id entries)

/-- Values that a constant may be: numbers, strings, the code of functions and quoted
expressions. -/
def IsConstant : Value → Prop
  | int _ | float _ | str _ | compiled _ _ | quote _ _ => True
  | _ => False

/-- The elements of an array have a property, and so have the keys and values of a hash. -/
def Parts (P : Value → Prop) : Value → Prop
  | array _ elements => ∀ v ∈ elements, P v
  | hash _ entries => ∀ e ∈ entries, P e.shown ∧ P e.value
  | _ => True

theorem Parts.mono {P Q : Value → Prop} {v : Value} (h : v.Parts P) (hPQ : ∀ w, P w → Q w) :
    v.Parts Q := by
  cases v with
  | array id elements => exact fun w hw => hPQ w (h w hw)
  | hash id entries => exact fun e he => (h e he).imp (hPQ _) (hPQ _)
  | _ => trivial

/-- **A property that is kept by taking parts of values**, and that all values without an identity
have. -/
structure Hereditary (P : Value → Prop) : Prop where
  plain : ∀ v, v.identity? = none → P v
  parts : ∀ v, P v → v.Parts P

variable {P : Value → Prop}

theorem Hereditary.scalar (h : Hereditary P) {v : Value} (hv : v.Scalar) : P v :=
  h.plain v hv.identity?_eq

/-- **All that is in a value, and has an identity, is known.** Whatever `known` is, this is
hereditary (`hereditary_known`). -/
def Known (known : Value → Prop) (v : Value) : Prop :=
  ∀ u, u.Inside v → u.identity? ≠ none → known u

theorem Known.mono {known known' : Value → Prop} {v : Value} (h : v.Known known)
    (hknown : ∀ u, known u → known' u) : v.Known known' :=
  fun u hu hid => hknown u (h u hu hid)

theorem hereditary_known (known : Value → Prop) : Hereditary (Known known) where
  plain v hv u hu hid := by
    cases hu with
    | self => exact absurd hv hid
    | _ => cases hv
  parts v hv := by
    cases v with
    | array id elements => exact fun w hw u hu => hv u (.element hw hu)
    | hash id entries => exact fun e he =>
        ⟨fun u hu => hv u (.shown he hu), fun u hu => hv u (.value he hu)⟩
    | _ => trivial

/-- What is made of known parts is known if it is known itself. -/
theorem known_of_parts {known : Value → Prop} {v : Value} (h : known v)
    (hparts : v.Parts (Known known)) : v.Known known := by
  intro u hu hid
  cases hu with
  | self => exact h
  | element hw hu => exact hparts _ hw u hu hid
  | shown he hu => exact (hparts _ he).1 u hu hid
  | value he hu => exact (hparts _ he).2 u hu hid

/-- What a subscript gives is a part of the container, or `null`. -/
theorem subscript_of_hereditary (h : Hereditary P) {container index v : Value}
    (hcontainer : P container) (hv : container.subscript index = .ok v) : P v := by
  have hnull : P .null := h.plain _ rfl
  have hparts := h.parts _ hcontainer
  unfold subscript at hv
  split at hv
  · rename_i elements i
    split at hv <;> cases hv
    · cases hget : elements[i.toInt.toNat]? with
      | none => exact hnull
      | some element => exact hparts element (List.mem_of_getElem? hget)
    · exact hnull
  · rename_i id entries
    split at hv <;> cases hv
    rename_i key hkey
    cases hfind : Entry.find? key entries with
    | none => exact hnull
    | some element =>
      obtain ⟨e, he, rfl⟩ := Option.map_eq_some_iff.mp hfind
      exact (hparts e (List.mem_of_find?_eq_some he)).2
  · cases hv

theorem insert_of_hereditary {new : Entry Value} {entries : List (Entry Value)}
    (hnew : P new.shown ∧ P new.value) (h : ∀ e ∈ entries, P e.shown ∧ P e.value) :
    ∀ e ∈ Entry.insert new entries, P e.shown ∧ P e.value := by
  induction entries with
  | nil => simpa [Entry.insert] using hnew
  | cons first rest ih =>
    obtain ⟨hfirst, hrest⟩ := List.forall_mem_cons.mp h
    unfold Entry.insert
    split
    · exact List.forall_mem_cons.mpr ⟨hnew, h⟩
    · exact List.forall_mem_cons.mpr ⟨hnew, hrest⟩
    · exact List.forall_mem_cons.mpr ⟨hfirst, ih hrest⟩

end Value

/-! ## Built-in functions

What a built-in function gives was in an argument, or is an array of such. Which of the two it was
can be told from the identities that it has drawn. -/

/-- The built-in functions that make arrays. Their results are copies of their arguments with an
element less or one more; all other functions hand on a part of an argument, or give a scalar. -/
def Builtin.makes : Builtin → Bool
  | rest | push => true
  | _ => false

/-- **An effect on the surroundings gives a value that has a property, or makes an array of such**,
with the identity that it draws. Only if `makes` holds it may do the latter. -/
def HostM.Gives (P : Value → Prop) (makes : Bool) (action : HostM Value) : Prop :=
  ∀ host, match action host with
    | .ok v host' => host'.fresh = host.fresh ∧ P v
        ∨ makes = true ∧ host'.fresh = host.fresh + 1
          ∧ ∃ elements, v = .array host.fresh elements ∧ ∀ w ∈ elements, P w
    | .error _ host' => host'.fresh = host.fresh

namespace Builtin

variable {P : Value → Prop}

theorem gives_pure {makes : Bool} {v : Value} (h : P v) : HostM.Gives P makes (pure v) :=
  fun _ => .inl ⟨rfl, h⟩

theorem gives_array {elements : List Value} (h : ∀ v ∈ elements, P v) :
    HostM.Gives P true (HostM.array elements) :=
  fun _ => .inr ⟨rfl, rfl, elements, rfl, h⟩

theorem print_fresh (args : List Value) (host : Host) :
    ∃ host', (args.forM fun v => HostM.print v.text : HostM Unit) host = .ok () host'
      ∧ host'.fresh = host.fresh := by
  induction args generalizing host with
  | nil => exact ⟨host, rfl, rfl⟩
  | cons v vs ih => exact ih { host with output := host.output ++ v.text ++ "\n" }

theorem gives_callOne (h : Value.Hereditary P) (b : Builtin) {arg : Value} (harg : P arg) :
    HostM.Gives P b.makes (b.callOne arg) := by
  have hpure : ∀ {makes : Bool} (v : Value), v.Scalar → HostM.Gives P makes (pure v) := fun v hv =>
    gives_pure (h.scalar hv)
  have hparts := h.parts _ harg
  unfold callOne
  split
  case h_4 =>
    rename_i id elements
    cases elements with
    | nil => exact hpure _ trivial
    | cons v vs => exact gives_pure (hparts v List.mem_cons_self)
  case h_5 => split <;> exact hpure _ trivial
  case h_6 =>
    rename_i id elements
    refine gives_pure ?_
    rw [List.getLastD_eq_getLast?]
    cases hlast : elements.getLast? with
    | none => exact h.plain _ rfl
    | some v => exact hparts v (List.mem_of_getLast? hlast)
  case h_7 => split <;> exact hpure _ trivial
  case h_9 => exact gives_array fun v hv => hparts v (List.mem_cons_of_mem _ hv)
  case h_10 => split <;> exact hpure _ trivial
  all_goals first | exact hpure _ trivial | exact fun _ => rfl

/-- **A built-in function hands on a part of its arguments, or makes an array of such.** -/
theorem gives_call (h : Value.Hereditary P) (b : Builtin) {args : List Value}
    (hargs : ∀ v ∈ args, P v) : HostM.Gives P b.makes (b.call args) := by
  have hpure : ∀ {makes : Bool} (v : Value), v.Scalar → HostM.Gives P makes (pure v) := fun v hv =>
    gives_pure (h.scalar hv)
  unfold call
  split
  -- `puts`, which prints and gives `null`
  case h_1 =>
    intro host
    obtain ⟨host', hprint, hfresh⟩ := print_fresh args host
    have hcall : (do args.forM fun v => HostM.print v.text; return .null : HostM Value) host
        = .ok .null host' := by
      show EStateM.bind _ _ host = _
      rw [EStateM.bind, hprint]
      rfl
    rw [hcall]
    exact .inl ⟨hfresh, h.plain _ rfl⟩
  -- `push` on an array, the one function here that makes a value with an identity
  case h_2 id elements v =>
    refine gives_array fun w hw => ?_
    rcases List.mem_append.mp hw with hw | hw
    · exact h.parts _ (hargs (.array id elements) (by simp)) w hw
    · obtain rfl := List.mem_singleton.mp hw
      exact hargs _ (by simp)
  case h_6 => exact fun _ => .inl ⟨rfl, h.plain _ rfl⟩
  case h_12 => exact gives_callOne h _ (hargs _ (by simp))
  all_goals first | exact hpure _ trivial | exact fun _ => rfl

end Builtin

end Scriptlet
