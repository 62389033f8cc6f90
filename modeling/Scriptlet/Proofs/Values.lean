import Scriptlet.Builtin.Call

/-!
# What is inside values

Operators, subscripts and built-in functions make numbers, truth values, texts and containers, and
nothing else: any other value in a result was in an operand. `Value.All` says that every value in a
value, however deep, has a property; all operations on values keep it. `Value.Closures` is the case
of a property of closures. The faults of these operations are about their operands
(`Fault.OfOperands`), so they come from the program and not from the code that runs it
(`Fault.Internal`).

Both backends compute with these operations. What is said of them here is used by the evaluator and
by the machine alike, with the property that each of them needs.
-/

namespace Scriptlet

/-- **Faults of code that the compiler never makes.** -/
def Fault.Internal : Fault → Prop
  | .unknownOp _ | .unknownBuiltin _ | .notFunctionConstant _ => True
  | _ => False

/-- Faults that operators, subscripts and built-in functions report. -/
def Fault.OfOperands : Fault → Prop
  | .typeMismatch _ _ _ | .unknownInfix _ _ _ | .unknownPrefix _ _ | .divisionByZero
  | .unusableKey _ | .notIndexable _ | .builtinArity _ _ _ | .builtinArgument _ _ => True
  | _ => False

theorem Fault.OfOperands.not_internal {fault : Fault} (h : fault.OfOperands) :
    ¬ fault.Internal := by
  cases fault <;> first | exact id | cases h

mutual

/-- **Every value in a value has the property `ok`**, containers apart. A container has it as soon
as what it contains has, so nothing is asked of the container itself. -/
def Value.All (ok : Value → Prop) : Value → Prop
  | .array _ elements => Value.AllList ok elements
  | .hash _ entries => Value.AllEntries ok entries
  | v => ok v

/-- Every value in some values has the property `ok`. -/
def Value.AllList (ok : Value → Prop) : List Value → Prop
  | [] => True
  | v :: vs => v.All ok ∧ Value.AllList ok vs

/-- Every value in the entries of a hash has the property `ok`. -/
def Value.AllEntries (ok : Value → Prop) : List (Entry Value) → Prop
  | [] => True
  | ⟨_, shown, value⟩ :: es => shown.All ok ∧ value.All ok ∧ Value.AllEntries ok es

end

/-- The values that operators and built-in functions make anew, containers apart. -/
def Value.Scalar : Value → Prop
  | .int _ | .float _ | .bool _ | .str _ | .null => True
  | _ => False

namespace Value

/-- Only an integer is the same as an integer. -/
theorem eq_of_same_int {i : Int64} {v : Value} (h : (int i).same v = true) : v = .int i := by
  cases v with
  | int j => exact congrArg int (eq_of_beq h).symm
  | _ => cases h

theorem Scalar.all {ok : Value → Prop} {v : Value} (h : v.Scalar) (hok : ok v) : v.All ok := by
  cases v <;> first | exact hok | cases h

theorem allList_iff {ok : Value → Prop} {vs : List Value} :
    AllList ok vs ↔ ∀ v ∈ vs, v.All ok := by
  induction vs with
  | nil => simp [AllList]
  | cons v vs ih => simp [AllList, ih]

theorem allEntries_iff {ok : Value → Prop} {es : List (Entry Value)} :
    AllEntries ok es ↔ ∀ e ∈ es, e.shown.All ok ∧ e.value.All ok := by
  induction es with
  | nil => simp [AllEntries]
  | cons e es ih => simp [AllEntries, ih, and_assoc]

/-! ## Operators

An operator looks at its operands and ends with a number, a truth value or a text, or with a fault
that is about them. -/

/-- How an operator ends: with a number or a truth value, or with a fault about its operands. -/
def Operates : Except Fault Value → Prop
  | .ok v => v.Scalar
  | .error fault => fault.OfOperands

theorem infixInt_operates (op : Token) (a b : Int64) : Operates (infixInt op a b) := by
  unfold infixInt
  split
  case h_4 => cases quotient? a b <;> trivial
  all_goals trivial

theorem infixOp_operates (op : Token) (left right : Value) :
    Operates (left.infixOp op right) := by
  unfold infixOp
  split
  · trivial
  · split
    · exact infixInt_operates op _ _
    all_goals trivial

theorem prefixOp_operates (op : Token) (operand : Value) : Operates (operand.prefixOp op) := by
  unfold prefixOp
  split <;> trivial

theorem subscript_error {container index : Value} {fault : Fault}
    (h : container.subscript index = .error fault) : fault.OfOperands := by
  unfold subscript at h
  split at h
  · split at h <;> cases h
  · split at h <;> cases h
    trivial
  · cases h
    trivial

theorem insertPair_error {es : List (Entry Value)} {shown value : Value} {fault : Fault}
    (h : insertPair es shown value = .error fault) : fault.OfOperands := by
  unfold insertPair at h
  split at h <;> cases h
  trivial

/-! ## Containers

What comes out of a container was in it, and what was put into it is in it. -/

section Containers

variable {ok : Value → Prop}

theorem find?_all {key : Key} {es : List (Entry Value)} {v : Value} (h : AllEntries ok es)
    (hv : Entry.find? key es = some v) : v.All ok := by
  obtain ⟨e, he, rfl⟩ := Option.map_eq_some_iff.mp hv
  exact (allEntries_iff.mp h e (List.mem_of_find?_eq_some he)).2

/-- An element of a container was in it, or is `null`. -/
theorem subscript_all {container index v : Value} (hnull : ok .null) (h : container.All ok)
    (hv : container.subscript index = .ok v) : v.All ok := by
  have hnull : Value.null.All ok := hnull
  unfold subscript at hv
  split at hv
  · rename_i elements i
    split at hv
    · cases hv
      cases hget : elements[i.toInt.toNat]? with
      | none => exact hnull
      | some element => exact allList_iff.mp h element (List.mem_of_getElem? hget)
    · cases hv
      exact hnull
  · rename_i id es
    split at hv
    · rename_i key hkey
      cases hv
      cases hfind : Entry.find? key es with
      | none => exact hnull
      | some element => exact find?_all h hfind
    · cases hv
  · cases hv

theorem insert_all {new : Entry Value} {es : List (Entry Value)}
    (hnew : new.shown.All ok ∧ new.value.All ok) (h : AllEntries ok es) :
    AllEntries ok (Entry.insert new es) := by
  induction es with
  | nil => exact ⟨hnew.1, hnew.2, trivial⟩
  | cons e es ih =>
    obtain ⟨hshown, hvalue, hrest⟩ := h
    unfold Entry.insert
    split
    · exact ⟨hnew.1, hnew.2, hshown, hvalue, hrest⟩
    · exact ⟨hnew.1, hnew.2, hrest⟩
    · exact ⟨hshown, hvalue, ih hrest⟩

theorem insertPair_all {es es' : List (Entry Value)} {shown value : Value}
    (h : AllEntries ok es) (hshown : shown.All ok) (hvalue : value.All ok)
    (hes : insertPair es shown value = .ok es') : AllEntries ok es' := by
  unfold insertPair at hes
  split at hes
  · cases hes
    exact insert_all ⟨hshown, hvalue⟩ h
  · cases hes

end Containers

end Value

/-! ## Built-in functions

`Meets` is a Hoare triple for an effect on the surroundings. Faults are part of it, and that
identities are never drawn twice. -/

/-- **How an effect on the surroundings ends.** Its result meets `post`, a halt is one of `halts`,
and an identity that has been drawn is not drawn again. -/
def HostM.Meets {α : Type} (action : HostM α) (host : Host) (post : α → Prop)
    (halts : Halt → Prop) : Prop :=
  match action host with
  | .ok a host' => host.fresh ≤ host'.fresh ∧ post a
  | .error halt _ => halts halt

theorem HostM.Meets.bind {α β : Type} {action : HostM α} {next : α → HostM β} {host : Host}
    (mid : α → Prop) {post : β → Prop} {halts : Halt → Prop} (h : action.Meets host mid halts)
    (hnext : ∀ a host, mid a → (next a).Meets host post halts) :
    HostM.Meets (action >>= next) host post halts := by
  have hbind : (action >>= next) host = EStateM.bind action next host := rfl
  unfold HostM.Meets at h ⊢
  rw [hbind, EStateM.bind]
  split at h
  · rename_i a host' heq
    have hrest := hnext a host' h.2
    unfold HostM.Meets at hrest
    rw [heq]
    dsimp only
    cases hresult : next a host' with
    | ok b host'' =>
      rw [hresult] at hrest
      exact ⟨Nat.le_trans h.1 hrest.1, hrest.2⟩
    | error halt host'' =>
      rw [hresult] at hrest
      exact hrest
  · rename_i halt host' heq
    rw [heq]
    exact h

/-- A result without an effect. -/
theorem HostM.Meets.pure {α : Type} {a : α} {host : Host} {post : α → Prop} {halts : Halt → Prop}
    (h : post a) : HostM.Meets (Pure.pure a) host post halts :=
  ⟨Nat.le_refl _, h⟩

/-- A container is made of its elements. -/
theorem HostM.array_meets {ok : Value → Prop} {elements : List Value} {host : Host}
    {halts : Halt → Prop} (h : Value.AllList ok elements) :
    (HostM.array elements).Meets host (fun v => v.All ok) halts :=
  ⟨Nat.le_succ _, h⟩

theorem HostM.hash_meets {ok : Value → Prop} {entries : List (Entry Value)} {host : Host}
    {halts : Halt → Prop} (h : Value.AllEntries ok entries) :
    (HostM.hash entries).Meets host (fun v => v.All ok) halts :=
  ⟨Nat.le_succ _, h⟩

/-- A program ends by `exit` or by a fault of its own. -/
def Halt.Plain : Halt → Prop
  | .exit _ => True
  | .fault f => ¬ f.Internal

/-- A built-in function ends the program by `exit` or by a fault about its arguments. -/
def Halt.OfOperands : Halt → Prop
  | .exit _ => True
  | .fault f => f.OfOperands

theorem Halt.OfOperands.plain {halt : Halt} (h : halt.OfOperands) : halt.Plain := by
  cases halt with
  | exit status => trivial
  | fault f => exact Fault.OfOperands.not_internal h

namespace Builtin

variable {ok : Value → Prop}

theorem headD_all {vs : List Value} (hnull : ok .null) (h : Value.AllList ok vs) :
    (vs.headD .null).All ok := by
  cases vs with
  | nil => exact hnull
  | cons v vs => exact h.1

theorem getLastD_all {vs : List Value} (hnull : ok .null) (h : Value.AllList ok vs) :
    (vs.getLastD .null).All ok := by
  cases hlast : vs.getLast? with
  | none =>
    rw [List.getLastD_eq_getLast?, hlast]
    exact hnull
  | some v =>
    rw [List.getLastD_eq_getLast?, hlast]
    exact Value.allList_iff.mp h v (List.mem_of_getLast? hlast)

theorem callOne_meets (b : Builtin) {arg : Value} (host : Host)
    (hscalar : ∀ v : Value, v.Scalar → ok v) (h : arg.All ok) :
    (b.callOne arg).Meets host (fun v => v.All ok) Halt.OfOperands := by
  have hpure : ∀ v : Value, v.Scalar →
      (Pure.pure v : HostM Value).Meets host (fun v => v.All ok) Halt.OfOperands :=
    fun v hv => .pure (hv.all (hscalar v hv))
  unfold callOne
  split
  case h_4 => exact .pure (headD_all (hscalar _ trivial) h)
  case h_5 => split <;> exact hpure _ trivial
  case h_6 => exact .pure (getLastD_all (hscalar _ trivial) h)
  case h_7 => split <;> exact hpure _ trivial
  case h_9 => exact HostM.array_meets h.2
  case h_10 => split <;> exact hpure _ trivial
  all_goals first | exact hpure _ trivial | trivial

theorem print_meets (args : List Value) (host : Host) :
    (args.forM fun v => HostM.print v.text : HostM Unit).Meets host (fun _ => True)
      Halt.OfOperands := by
  induction args generalizing host with
  | nil => exact .pure trivial
  | cons v vs ih => exact ih { host with output := host.output ++ v.text ++ "\n" }

/-- **The result of a built-in function is made from its arguments**, and if it ends the program,
then by `exit` or by a fault about its arguments. -/
theorem call_meets (b : Builtin) {args : List Value} (host : Host)
    (hscalar : ∀ v : Value, v.Scalar → ok v) (h : ∀ v ∈ args, v.All ok) :
    (b.call args).Meets host (fun v => v.All ok) Halt.OfOperands := by
  have hpure : ∀ (v : Value) (host : Host), v.Scalar →
      (Pure.pure v : HostM Value).Meets host (fun v => v.All ok) Halt.OfOperands :=
    fun v host hv => .pure (hv.all (hscalar v hv))
  unfold call
  split
  case h_1 =>
    exact HostM.Meets.bind (fun _ => True) (print_meets _ host) fun _ host _ => hpure _ host trivial
  case h_2 id elements v =>
    have helements := h (.array id elements) (by simp)
    refine HostM.array_meets (Value.allList_iff.mpr fun w hw => ?_)
    rcases List.mem_append.mp hw with hw | hw
    · exact Value.allList_iff.mp helements w hw
    · obtain rfl := List.mem_singleton.mp hw
      exact h _ (by simp)
  case h_12 => exact callOne_meets _ host hscalar (h _ (by simp))
  -- the clock is read but does not change
  case h_6 => exact ⟨Nat.le_refl _, hscalar _ trivial⟩
  all_goals first | exact hpure _ host trivial | trivial

end Builtin

/-! ## Closures

A closure is the one value that carries code and cells, so it is what the machine has to know about
the values that it has. -/

/-- A property of closures: their identity, their code and the cells that they have captured. -/
abbrev ClosureProperty := Identity → FunctionCode → Array CellId → Prop

mutual

/-- **Every closure in a value has the property `ok`.** It is `Value.All` for a property that only
closures may lack (`all_closureHas`), said so that `simp` can open it. -/
def Value.Closures (ok : ClosureProperty) : Value → Prop
  | .array _ elements => Value.ClosuresList ok elements
  | .hash _ entries => Value.ClosuresEntries ok entries
  | .closure id code cells => ok id code cells
  | _ => True

/-- Every closure in some values has the property `ok`. -/
def Value.ClosuresList (ok : ClosureProperty) : List Value → Prop
  | [] => True
  | v :: vs => v.Closures ok ∧ Value.ClosuresList ok vs

/-- Every closure in the entries of a hash has the property `ok`. -/
def Value.ClosuresEntries (ok : ClosureProperty) : List (Entry Value) → Prop
  | [] => True
  | ⟨_, shown, value⟩ :: es =>
    shown.Closures ok ∧ value.Closures ok ∧ Value.ClosuresEntries ok es

end

namespace Value

variable {ok ok' : ClosureProperty}

theorem closuresList_iff {vs : List Value} :
    ClosuresList ok vs ↔ ∀ v ∈ vs, v.Closures ok := by
  induction vs with
  | nil => simp [ClosuresList]
  | cons v vs ih => simp [ClosuresList, ih]

mutual

theorem Closures.mono (h : ∀ id code cells, ok id code cells → ok' id code cells) :
    (v : Value) → v.Closures ok → v.Closures ok'
  | .array _ elements, hv => ClosuresList.mono h elements hv
  | .hash _ entries, hv => ClosuresEntries.mono h entries hv
  | .closure id code cells, hv => h id code cells hv
  | .int _, _ | .float _, _ | .bool _, _ | .str _, _ | .null, _ | .error _, _
  | .function _ _ _ _, _ | .compiled _ _, _ | .builtin _, _ | .quote _ _, _ => trivial

theorem ClosuresList.mono (h : ∀ id code cells, ok id code cells → ok' id code cells) :
    (vs : List Value) → ClosuresList ok vs → ClosuresList ok' vs
  | [], _ => trivial
  | v :: vs, hv => ⟨Closures.mono h v hv.1, ClosuresList.mono h vs hv.2⟩

theorem ClosuresEntries.mono (h : ∀ id code cells, ok id code cells → ok' id code cells) :
    (es : List (Entry Value)) → ClosuresEntries ok es → ClosuresEntries ok' es
  | [], _ => trivial
  | ⟨_, shown, value⟩ :: es, hv =>
    ⟨Closures.mono h shown hv.1, Closures.mono h value hv.2.1, ClosuresEntries.mono h es hv.2.2⟩

end

/-- The property of a closure, as one of values. -/
def closureHas (ok : ClosureProperty) : Value → Prop
  | .closure id code cells => ok id code cells
  | _ => True

theorem Scalar.closureHas {v : Value} (h : v.Scalar) : v.closureHas ok := by
  cases v <;> trivial

theorem Scalar.closures {v : Value} (h : v.Scalar) : v.Closures ok := by
  cases v <;> trivial

mutual

theorem all_closureHas : (v : Value) → (v.All (closureHas ok) ↔ v.Closures ok)
  | .array _ elements => allList_closureHas elements
  | .hash _ entries => allEntries_closureHas entries
  | .closure _ _ _ | .int _ | .float _ | .bool _ | .str _ | .null | .error _ | .function _ _ _ _
  | .compiled _ _ | .builtin _ | .quote _ _ => Iff.rfl

theorem allList_closureHas : (vs : List Value) →
    (AllList (closureHas ok) vs ↔ ClosuresList ok vs)
  | [] => Iff.rfl
  | v :: vs => and_congr (all_closureHas v) (allList_closureHas vs)

theorem allEntries_closureHas : (es : List (Entry Value)) →
    (AllEntries (closureHas ok) es ↔ ClosuresEntries ok es)
  | [] => Iff.rfl
  | ⟨_, shown, value⟩ :: es => and_congr (all_closureHas shown)
    (and_congr (all_closureHas value) (allEntries_closureHas es))

end

theorem subscript_closures {container index v : Value} (h : container.Closures ok)
    (hv : container.subscript index = .ok v) : v.Closures ok :=
  (all_closureHas v).mp (subscript_all trivial ((all_closureHas container).mpr h) hv)

theorem insertPair_closures {es es' : List (Entry Value)} {shown value : Value}
    (h : ClosuresEntries ok es) (hshown : shown.Closures ok) (hvalue : value.Closures ok)
    (hes : insertPair es shown value = .ok es') : ClosuresEntries ok es' :=
  (allEntries_closureHas es').mp (insertPair_all ((allEntries_closureHas es).mpr h)
    ((all_closureHas shown).mpr hshown) ((all_closureHas value).mpr hvalue) hes)

end Value

theorem Builtin.call_closures {ok : ClosureProperty} (b : Builtin) {args : List Value} (host : Host)
    (h : ∀ v ∈ args, v.Closures ok) :
    (b.call args).Meets host (fun v => v.Closures ok) Halt.OfOperands := by
  have hcall := b.call_meets host (fun _ => Value.Scalar.closureHas)
    fun v hv => (Value.all_closureHas v).mpr (h v hv)
  simpa only [Value.all_closureHas] using hcall

/-- A result of a built-in function. -/
theorem Builtin.call_ok {ok : ClosureProperty} {b : Builtin} {args : List Value}
    {host host' : Host} {v : Value} (h : b.call args host = .ok v host')
    (hargs : ∀ a ∈ args, a.Closures ok) : host.fresh ≤ host'.fresh ∧ v.Closures ok := by
  have hcall := b.call_closures host hargs
  unfold HostM.Meets at hcall
  rwa [h] at hcall

end Scriptlet
