import Mathlib.Data.List.Pairwise
import Scriptlet.Proofs.Evaluation.Events
import Scriptlet.Proofs.Scopes

/-!
# What the events of an evaluation say

`Records nesting x log post` ties a computation to its events, whatever it comes to: it starts and
ends inside of `nesting` calls, the values that it makes have ascending identities that were not in
use before and are all that it draws, the scopes hold what has been stored in them last and a read
gives just that, a call is counted one deeper than the calls around it, and all values come from
those that were there before and those that are made. The last is said with any hereditary property
that accepts the values that are made of accepted parts.

`Passage` is the relation of two worlds and the events between them. It is closed under putting one
list of events behind the other (`Passage.append`), which is all that the rule for sequences needs
(`Records.bind`); what remains is a rule for each event.

A computation that fails has events too, those up to the failure. So `Records` asks for a passage on
both outcomes, and a failed evaluation is accounted for in the same way as one that ends well.
-/

namespace Scriptlet.Evaluation

/-- All values that are bound have a property. -/
def World.Has (P : Value → Prop) (world : World) : Prop :=
  ∀ id name v, world.scopes.bound? id name = some v → P v

/-- A value that leaves a call has a property. -/
def Signal.Has (P : Value → Prop) : Signal → Prop
  | .returned v => P v
  | _ => True

/-! ## Identities

Identities are drawn in turn from a counter, so the values of a run are in the order of their
identities. That they are apart, and that none is used twice, follows from the order alone. -/

/-- **Some values have ascending identities** from `first` on, and below `last`. All identities
between are theirs, so nothing else can have drawn one meanwhile. -/
structure Drawn (first last : Nat) (values : List Value) : Prop where
  length : first + values.length = last
  between : ∀ v ∈ values, ∃ id, v.identity? = some id ∧ first ≤ id ∧ id < last
  ascending : values.Pairwise fun v w =>
    ∀ i j, v.identity? = some i → w.identity? = some j → i < j

section Drawn

variable {first mid last : Nat} {values values' : List Value} {v : Value}

theorem drawn_nil (first : Nat) : Drawn first first [] :=
  ⟨rfl, fun _ hv => absurd hv List.not_mem_nil, .nil⟩

theorem Drawn.le (h : Drawn first last values) : first ≤ last := by
  rw [← h.length]
  exact Nat.le_add_right first values.length

theorem drawn_single (h : v.identity? = some first) : Drawn first (first + 1) [v] := by
  refine ⟨rfl, fun w hw => ?_, List.pairwise_singleton _ _⟩
  obtain rfl := List.mem_singleton.mp hw
  exact ⟨first, h, Nat.le_refl _, Nat.lt_succ_self _⟩

/-- Values that have been drawn behind others have larger identities than they. -/
theorem Drawn.append (h : Drawn first mid values) (h' : Drawn mid last values') :
    Drawn first last (values ++ values') := by
  refine ⟨?_, fun v hv => ?_, ?_⟩
  · rw [List.length_append, ← Nat.add_assoc, h.length, h'.length]
  · rcases List.mem_append.mp hv with hv | hv
    · obtain ⟨id, hid, hfirst, hmid⟩ := h.between v hv
      exact ⟨id, hid, hfirst, Nat.lt_of_lt_of_le hmid h'.le⟩
    · obtain ⟨id, hid, hmid, hlast⟩ := h'.between v hv
      exact ⟨id, hid, Nat.le_trans h.le hmid, hlast⟩
  · refine List.pairwise_append.mpr ⟨h.ascending, h'.ascending, fun v hv w hw i j hi hj => ?_⟩
    obtain ⟨id, hid, -, hmid⟩ := h.between v hv
    obtain ⟨id', hid', hmid', -⟩ := h'.between w hw
    obtain rfl := Option.some.inj (hid.symm.trans hi)
    obtain rfl := Option.some.inj (hid'.symm.trans hj)
    exact Nat.lt_of_lt_of_le hmid hmid'

/-- Values with ascending identities are told apart by them. -/
theorem Drawn.eq (h : Drawn first last values) {w : Value} (hv : v ∈ values) (hw : w ∈ values)
    (heq : v.identity? = w.identity?) : v = w := by
  by_contra hne
  have happly : values.Pairwise fun v w => v.identity? ≠ w.identity? :=
    h.ascending.imp_of_mem fun {v w} hv _ hlt heq => by
      obtain ⟨i, hi, -⟩ := h.between v hv
      exact Nat.lt_irrefl i (hlt i i hi (heq ▸ hi))
  have hsymm : Std.Symm fun v w : Value => v.identity? ≠ w.identity? := ⟨fun _ _ h => h.symm⟩
  exact happly.forall hv hw hne heq

end Drawn

/-! ## Passages

What two worlds and the events between them have to do with each other. -/

/-- **What has become of a world behind some events.** The depth is what it was, the identities
drawn are those of the values made, and the scopes hold what the events have stored there. A read
gives what the events in front of it say, and each call is counted from the depth that it starts
at. -/
structure Passage (P : Value → Prop) (world world' : World) (events : List Event) : Prop where
  depth : world'.depth = world.depth
  drawn : Drawn world.host.fresh world'.host.fresh (newValues events)
  has : world'.Has P
  values : ∀ event ∈ events, ∀ v, event.value? = some v → P v
  /-- A scope holds what has been stored in it last, or what it has held before. -/
  bound : ∀ scope name, world'.scopes.bound? scope name
    = heldBehind events scope name (world.scopes.bound? scope name)
  /-- What is read is what the scope holds at that time. -/
  reads : ∀ front scope name v rest, events = front ++ .read scope name v :: rest →
    heldBehind front scope name (world.scopes.bound? scope name) = some v
  nested : ∀ nesting callee args start, .called nesting callee args start ∈ events →
    start.depth + 1 = nesting

/-- Values that are made of parts with a property have it as well. It is asked of the events of one
computation only, so that the property may speak of just these: that a value is among them, for
instance. -/
def Accepts (P : Value → Prop) (events : List Event) : Prop :=
  ∀ v ∈ newValues events, v.Parts P → P v

section Passage

variable {P : Value → Prop} {world world₁ world' : World} {events events' : List Event}

/-- Without an event, what is bound stays as it is. -/
theorem Passage.still (hdepth : world'.depth = world.depth)
    (hfresh : world'.host.fresh = world.host.fresh) (h : world'.Has P)
    (hbound : ∀ scope name, world'.scopes.bound? scope name = world.scopes.bound? scope name) :
    Passage P world world' [] where
  depth := hdepth
  drawn := hfresh ▸ drawn_nil _
  has := h
  values _ hevent := absurd hevent List.not_mem_nil
  bound := hbound
  reads _ _ _ _ _ hnil := absurd hnil.symm (List.append_ne_nil_of_right_ne_nil _ nofun)
  nested _ _ _ _ hcall := absurd hcall List.not_mem_nil

theorem Passage.refl (h : world.Has P) : Passage P world world [] :=
  .still rfl rfl h fun _ _ => rfl

/-- One event. -/
theorem Passage.single {event : Event} (hdepth : world'.depth = world.depth)
    (hdrawn : Drawn world.host.fresh world'.host.fresh (newValues [event])) (h : world'.Has P)
    (hvalue : ∀ v, event.value? = some v → P v)
    (hbound : ∀ scope name, world'.scopes.bound? scope name
      = event.holding scope name (world.scopes.bound? scope name))
    (hread : ∀ scope name v, event = .read scope name v →
      world.scopes.bound? scope name = some v)
    (hcall : ∀ nesting callee args start, event = .called nesting callee args start →
      start.depth + 1 = nesting) : Passage P world world' [event] where
  depth := hdepth
  drawn := hdrawn
  has := h
  values other hother v hv := by
    obtain rfl := List.mem_singleton.mp hother
    exact hvalue v hv
  bound := hbound
  reads front scope name v rest heq := by
    obtain ⟨rfl, hrest⟩ | ⟨rfl, hevent⟩ := List.singleton_eq_append_iff.mp heq
    · exact hread scope name v (List.cons.inj hrest).1.symm
    · cases hevent
  nested n callee args start hmem := hcall n callee args start (List.mem_singleton.mp hmem).symm

/-- **Events behind each other.** A read in the second part sees what the first part has stored,
since what the second starts from is what the first has left. -/
theorem Passage.append (h : Passage P world world₁ events) (h' : Passage P world₁ world' events') :
    Passage P world world' (events ++ events') where
  depth := h'.depth.trans h.depth
  drawn := by
    unfold newValues
    rw [List.filterMap_append]
    exact h.drawn.append h'.drawn
  has := h'.has
  values event hevent := (List.mem_append.mp hevent).elim (h.values event) (h'.values event)
  bound scope name := by
    rw [h'.bound, h.bound, heldBehind, heldBehind, heldBehind, List.foldl_append]
  reads front scope name v rest heq := by
    -- the read is in the second part, with all of the first before it, or in the first part
    rcases List.append_eq_append_iff.mp heq with ⟨mid, rfl, hmid⟩ | ⟨mid, rfl, hmid⟩
    · have hread := h'.reads mid scope name v rest hmid
      rwa [h.bound, heldBehind, heldBehind, ← List.foldl_append] at hread
    · cases mid with
      | nil =>
        have hread := h'.reads [] scope name v rest hmid.symm
        rw [h.bound, List.append_nil] at hread
        exact hread
      | cons event mid =>
        obtain ⟨rfl, rfl⟩ := List.cons.inj hmid
        exact h.reads front scope name v mid rfl
  nested n callee args start hcall :=
    (List.mem_append.mp hcall).elim (h.nested n callee args start) (h'.nested n callee args start)

theorem Accepts.left (h : Accepts P (events ++ events')) : Accepts P events := by
  intro v hv
  unfold Accepts newValues at h
  rw [List.filterMap_append] at h
  exact h v (List.mem_append_left _ hv)

theorem Accepts.right (h : Accepts P (events ++ events')) : Accepts P events' := by
  intro v hv
  unfold Accepts newValues at h
  rw [List.filterMap_append] at h
  exact h v (List.mem_append_right _ hv)

end Passage

/-! ## Recorded computations

The rules below have the shape of a Hoare logic: `post` is what is known of the result, `nesting`
and `P` are what is known before. -/

/-- **The events of a computation are those that `log` says.** From every world at the depth
`nesting` in which all bound values have the property, whatever the computation comes to. -/
def Records {α : Type} (P : Value → Prop) (nesting : Nat) (x : Eval α) (log : Log)
    (post : α → Prop) : Prop :=
  ∀ world : World, world.depth = nesting → world.Has P → Accepts P (log world) →
    match x world with
    | .ok a world' => Passage P world world' (log world) ∧ post a
    | .error signal world' => Passage P world world' (log world) ∧ signal.Has P

section Records

variable {α β : Type} {P : Value → Prop} {nesting : Nat} {x : Eval α} {f : α → Eval β} {log : Log}
  {rest : α → Log} {post mid : α → Prop} {post' : β → Prop} {env : Env}

/-- **Computations in a row.** The events of the second one are those of the world that the first
one leaves; if the first one fails, there are none. -/
theorem Records.bind (h : Records P nesting x log mid)
    (hf : ∀ a, mid a → Records P nesting (f a) (rest a) post') :
    Records P nesting (x >>= f) (log.andThen x rest) post' := by
  intro world hdepth hhas haccepts
  unfold Log.andThen at haccepts ⊢
  have hx := h world hdepth hhas haccepts.left
  cases hr : x world with
  | error signal world₁ =>
    rw [hr] at hx
    rw [bind_of_error hr, List.append_nil]
    exact hx
  | ok a world₁ =>
    rw [hr] at hx haccepts
    obtain ⟨hpassage, hmid⟩ := hx
    have hy := hf a hmid world₁ (hpassage.depth.trans hdepth) hpassage.has haccepts.right
    rw [bind_of_ok hr]
    split
    · rename_i hs
      rw [hs] at hy
      exact ⟨hpassage.append hy.1, hy.2⟩
    · rename_i hs
      rw [hs] at hy
      exact ⟨hpassage.append hy.1, hy.2⟩

/-- Nothing happens behind a computation. -/
theorem Records.bind_last (h : Records P nesting x log mid)
    (hf : ∀ a, mid a → Records P nesting (f a) .nothing post') :
    Records P nesting (x >>= f) log post' := by
  have hbind := h.bind hf
  have hlog : log.andThen x (fun _ => .nothing) = log := by
    funext world
    unfold Log.andThen
    split <;> exact List.append_nil _
  rwa [hlog] at hbind

/-- **An expression has come to its value.** The event is the last one and stores nothing, so what
has been said of the events before goes on to hold. -/
theorem Records.comes {x : Eval Value} (e : Expr) (h : Records P nesting x log P) :
    Records P nesting x (log.comes e x) P := by
  intro world hdepth hhas haccepts
  unfold Log.comes at haccepts ⊢
  have hx := h world hdepth hhas haccepts.left
  cases hr : x world with
  | error signal world₁ =>
    rw [hr] at hx
    simpa using hx
  | ok value world₁ =>
    rw [hr] at hx
    obtain ⟨hpassage, hvalue⟩ := hx
    have hcame : Passage P world₁ world₁ [.came e value] := by
      refine .single rfl (drawn_nil _) hpassage.has (fun v hv => ?_) (fun _ _ => rfl) nofun nofun
      cases hv
      exact hvalue
    exact ⟨hpassage.append hcame, hvalue⟩

/-! ## Without events -/

theorem records_pure {a : α} (h : post a) : Records P nesting (pure a) .nothing post :=
  fun _ _ hhas _ => ⟨.refl hhas, h⟩

theorem records_throw {signal : Signal} (h : signal.Has P) :
    Records P nesting (throw signal) .nothing post :=
  fun _ _ hhas _ => ⟨.refl hhas, h⟩

theorem records_outOfFuel : Records P nesting (throw .outOfFuel) .nothing post :=
  fun _ _ hhas _ => ⟨.refl hhas, trivial⟩

theorem records_fault (fault : Fault) :
    Records P nesting (Evaluation.fault fault) .nothing post :=
  records_throw trivial

theorem records_ofExcept {result : Except Fault α} (h : ∀ a, result = .ok a → post a) :
    Records P nesting (ofExcept result) .nothing post := by
  cases result with
  | ok a => exact records_pure (h a rfl)
  | error fault => exact records_fault fault

/-- The world is looked at first. -/
theorem records_get {f : World → Eval β} {log : Log}
    (h : ∀ world, Records P nesting (f world) log post') :
    Records P nesting (get >>= f) log post' :=
  fun world => h world world

/-! ## Scopes

Storing and reading are the events that the history of a scope is about. -/

/-- **A value with the property is stored in a scope, or nothing is changed.** If there is such a
scope, the event says that the value is stored there; if there is none, there is no event, and the
scopes are the same. -/
theorem records_onScopes {scope? : World → Option ScopeId} {change : Scopes → Scopes}
    {name : String} {v : Value} (hv : P v)
    (hchange : ∀ world : World, change world.scopes = world.scopes.bindAt (scope? world) name v) :
    Records P nesting (onScopes change) (.stores scope? name v) fun _ => True := by
  intro world hdepth hhas _
  have hstep : onScopes change world
      = .ok () { world with scopes := world.scopes.bindAt (scope? world) name v } := by
    rw [← hchange world]
    rfl
  rw [hstep]
  refine ⟨?_, trivial⟩
  unfold Log.stores Scopes.bindAt
  cases scope? world with
  | none => exact .refl hhas
  | some scope =>
    dsimp only [Option.elim_some]
    have hbinds : World.Has P { world with scopes := world.scopes.bind scope name v } :=
      fun other name' w hw => (Scopes.bound?_bind_cases hw).elim (fun heq => heq ▸ hv)
        (hhas other name' w)
    -- a scope that does not exist takes no value, and there is no event
    by_cases hscope : scope < world.scopes.size
    · rw [if_pos hscope]
      refine .single rfl (drawn_nil _) hbinds (fun w hw => ?_) (fun other name' => ?_) nofun nofun
      · cases hw
        exact hv
      · show (world.scopes.bind scope name v).bound? other name' = _
        rw [Scopes.bound?_bind hscope, Event.holding]
        simp only [eq_comm]
    · rw [if_neg hscope]
      refine .still rfl rfl hbinds fun other name' => ?_
      show (world.scopes.bind scope name v).bound? other name' = _
      rw [Scopes.bind_of_size_le (Nat.le_of_not_lt hscope)]

theorem records_define (name : String) {v : Value} (hv : P v) :
    Records P nesting (onScopes fun scopes => scopes.define env name v)
      (.stores (fun _ => env.head?) name v) fun _ => True :=
  records_onScopes hv fun world => world.scopes.define_eq env name v

theorem records_assign (name : String) {v : Value} (hv : P v) :
    Records P nesting (onScopes fun scopes => scopes.assign name v env)
      (.stores (fun world => (world.scopes.holder? name env).or env.getLast?) name v)
      fun _ => True :=
  records_onScopes hv fun world => world.scopes.assign_eq name v env

theorem records_enter (inLoop : Bool) :
    Records P nesting (enter env inLoop) .nothing fun _ => True := by
  rintro ⟨host, scopes, depth⟩ hdepth hhas -
  exact ⟨.still rfl rfl (fun id name v hv => hhas id name v (Scopes.bound?_of_add hv))
    fun _ _ => Scopes.bound?_add_eq _ _ _, trivial⟩

theorem records_lookup (name : String) :
    Records P nesting (lookup? env name) .nothing fun found => ∀ v, found = some v → P v := by
  intro world hdepth hhas _
  refine ⟨.refl hhas, fun v hv => ?_⟩
  induction env with
  | nil => cases hv
  | cons id outer ih =>
    rw [Scopes.lookup?] at hv
    split at hv
    · rename_i hbound
      cases hv
      exact hhas id name v hbound
    · exact ih hv

/-- **The value of a name is read from the scope where it is found.** A name that is found in no
scope means a built-in function or nothing, and there is no event of reading. -/
theorem records_identifier (hP : Value.Hereditary P) (table : BuiltinTable) (name : String) :
    Records P nesting (identifier table env name)
      (.reads env name (identifier table env name)) P := by
  intro world hdepth hhas _
  have hlookup := world.scopes.lookup?_eq name env
  unfold Log.reads
  cases hholder : world.scopes.holder? name env with
  | none =>
    rw [hholder] at hlookup
    rw [identifier_eq, hlookup]
    dsimp only [Option.bind_none]
    cases table.find? name with
    | some builtin => exact ⟨.refl hhas, hP.plain _ rfl⟩
    | none => exact ⟨.refl hhas, trivial⟩
  | some scope =>
    obtain ⟨v, hv⟩ := Option.isSome_iff_exists.mp (Scopes.isSome_bound?_holder hholder)
    rw [hholder, Option.bind_some, hv] at hlookup
    rw [identifier_eq, hlookup]
    have hvalue := hhas scope name v hv
    refine ⟨.single rfl (drawn_nil _) hhas (fun w hw => ?_) (fun _ _ => rfl)
      (fun other name' w hw => ?_) nofun, hvalue⟩
    · cases hw
      exact hvalue
    · cases hw
      exact hv

theorem records_isQuote (callee : Expr) :
    Records P nesting (isQuote env callee) .nothing fun _ => True := by
  unfold isQuote
  split
  · exact (records_lookup _).bind_last fun _ _ => records_pure trivial
  · exact records_pure trivial

/-- **The arguments of a call are stored in its scope.** Induction on the parameters; each of them
adds one event. -/
theorem passage_bindParams {scope : ScopeId} {outer : Env} (params : List String)
    {args : List Value} {world world' : World} (hargs : ∀ v ∈ args, P v) (hhas : world.Has P)
    (hscope : scope < world.scopes.size)
    (hbind : bindParams (scope :: outer) params args world = .ok () world') :
    Passage P world world' ((params.zip args).map fun (param, arg) => .stored scope param arg) := by
  induction params generalizing args world with
  | nil =>
    cases hbind
    exact .refl hhas
  | cons param params ih =>
    cases args with
    | nil =>
      cases hbind
      exact .refl hhas
    | cons arg args =>
      obtain ⟨harg, hargs⟩ := List.forall_mem_cons.mp hargs
      -- the scope is there, so the definition is one event
      have hlog : Log.stores (fun _ => (scope :: outer).head?) param arg world
          = [.stored scope param arg] := if_pos hscope
      have hrecords : Records P world.depth
          (onScopes fun scopes => scopes.define (scope :: outer) param arg)
          (.stores (fun _ => (scope :: outer).head?) param arg) fun _ => True :=
        records_define param harg
      have hdefine := hrecords world rfl hhas (by
        rw [hlog]
        exact fun v hv => absurd hv List.not_mem_nil)
      rw [hlog] at hdefine
      have hsize : scope < (world.scopes.bind scope param arg).size := by rwa [Scopes.size_bind]
      exact hdefine.1.append (ih hargs hdefine.1.has hsize hbind)

/-! ## New values

An identity is drawn and a value is made with it in the same computation, so that nothing is between
the two. -/

/-- **A computation draws one identity and makes a value with it.** That the value is acceptable
follows from its parts being so. -/
theorem records_makes {x : Eval Value} (e : Expr) (make : Identity → Value)
    (hx : ∀ world, x world = .ok (make world.host.fresh)
      { world with host := { world.host with fresh := world.host.fresh + 1 } })
    (hid : ∀ id, (make id).identity? = some id) (hparts : ∀ id, (make id).Parts P) :
    Records P nesting x (.makes e x) P := by
  intro world hdepth hhas haccepts
  unfold Log.makes at haccepts ⊢
  rw [hx world] at haccepts ⊢
  have hvalue : P (make world.host.fresh) :=
    haccepts _ (List.mem_singleton_self _) (hparts _)
  refine ⟨.single rfl (drawn_single (hid _)) hhas (fun v hv => ?_) (fun _ _ => rfl) nofun nofun,
    hvalue⟩
  cases hv
  exact hvalue

theorem records_quote (e : Expr) (args : List Expr) :
    Records P nesting (quote args) (.makes e (quote args)) P := by
  unfold quote
  split
  · rename_i body
    exact records_makes e (fun id => .quote id body) (fun _ => rfl) (fun _ => rfl) fun _ => trivial
  · exact records_fault _

/-- **A built-in function makes an array or makes nothing.** In the first case it draws one
identity, in the second none, and the identity drawn tells which it was. -/
theorem records_call (hP : Value.Hereditary P) (builtin : Builtin) {args : List Value}
    (hargs : ∀ v ∈ args, P v) :
    Records P nesting (onHost (builtin.call args)) (.builds builtin (onHost (builtin.call args)))
      P := by
  rintro ⟨host, scopes, depth⟩ hdepth hhas haccepts
  have hgives := Builtin.gives_call hP builtin hargs host
  have hsame : ∀ host' : Host, host'.fresh = host.fresh →
      Passage P ⟨host, scopes, depth⟩ ⟨host', scopes, depth⟩ [] := fun _ hfresh =>
    .still rfl hfresh hhas fun _ _ => rfl
  unfold Log.builds at haccepts ⊢
  simp only [onHost] at haccepts ⊢
  cases hcall : builtin.call args host with
  | error halt host' =>
    rw [hcall] at hgives
    exact ⟨hsame host' hgives, trivial⟩
  | ok v host' =>
    rw [hcall] at hgives
    simp only [hcall] at haccepts
    rcases hgives with ⟨hfresh, hv⟩ | ⟨hmakes, hfresh, elements, rfl, hparts⟩
    · simp only [hfresh, Nat.lt_irrefl, and_false, if_false]
      exact ⟨hsame host' hfresh, hv⟩
    -- an array has been made: its identity is the one that was drawn
    · have hlt : host.fresh < host'.fresh := by omega
      simp only [hmakes, hlt, and_self, if_true] at haccepts ⊢
      have hvalue := haccepts (.array host.fresh elements) (List.mem_singleton_self _) hparts
      refine ⟨.single rfl ?_ hhas (fun w hw => ?_) (fun _ _ => rfl) nofun nofun, hvalue⟩
      · have hdrawn := drawn_single (v := .array host.fresh elements) rfl
        rwa [← hfresh] at hdrawn
      · cases hw
        exact hvalue

/-! ## Calls

A call has an event of its own, at the front of those that happen in it. The depth is raised for the
body and restored behind it, so a passage through the call ends as deep as it has started though the
passage through the body starts deeper. -/

/-- What has been caught has the property, a value or a signal. -/
def CaughtHas (P : Value → Prop) (post : α → Prop) : Except Signal α → Prop
  | .ok a => post a
  | .error signal => signal.Has P

theorem Records.caught (h : Records P nesting x log post) :
    Records P nesting (caught x) log (CaughtHas P post) := by
  intro world hdepth hhas haccepts
  have hx := h world hdepth hhas haccepts
  unfold Evaluation.caught
  cases hr : x world with
  | ok a world' =>
    rw [hr] at hx
    exact hx
  | error signal world' =>
    rw [hr] at hx
    exact hx

theorem records_callResult {result : Except Signal Value} (h : CaughtHas P P result) :
    Records P nesting (callResult result) .nothing P := by
  cases result with
  | ok v => exact records_pure h
  | error signal =>
    cases signal with
    | returned v => exact records_pure h
    | breakLoop => exact records_fault _
    | continueLoop => exact records_fault _
    | halted halt => exact records_throw trivial
    | outOfFuel => exact records_throw trivial

/-- Binding parameters only changes the scopes. -/
theorem bindParams_ok (env : Env) (params : List String) (args : List Value) (host : Host)
    (scopes : Scopes) (depth : Nat) :
    ∃ scopes', bindParams env params args ⟨host, scopes, depth⟩
      = .ok () ⟨host, scopes', depth⟩ := by
  induction params generalizing args scopes with
  | nil => exact ⟨scopes, by rw [bindParams]; rfl; simp⟩
  | cons param params ih =>
    cases args with
    | nil => exact ⟨scopes, by rw [bindParams]; rfl; simp⟩
    | cons arg args => exact ih args _

/-- A call starts in new scopes, one deeper. -/
theorem startCall_ok (params : List String) (args : List Value) (env : Env) (world : World) :
    ∃ scopes, bindParams (world.scopes.next :: env) params args
        { world with scopes := world.scopes.add false } = .ok () { world with scopes }
      ∧ startCall params args env world
        = .ok (world.scopes.next :: env) { world with scopes, depth := world.depth + 1 } := by
  obtain ⟨host, scopes, depth⟩ := world
  obtain ⟨scopes', h⟩ :=
    bindParams_ok (scopes.next :: env) params args host (scopes.add false) depth
  refine ⟨scopes', h, ?_⟩
  show (bindParams (scopes.next :: env) params args >>= fun _ => setDepth (depth + 1) >>= fun _ =>
    pure (scopes.next :: env)) ⟨host, scopes.add false, depth⟩ = _
  rw [bind_of_ok h]
  rfl

/-- The call of a function with the steps in front of its body taken together as `startCall`. By
definition of both; what has to be seen is that a refused call fails before any of these steps. -/
theorem apply_function (table : BuiltinTable) (fuel : Nat) (id : Identity) (params : List String)
    (body : List Stmt) (env : Env) (args : List Value) (world : World) :
    apply table (fuel + 1) (.function id params body env) args world
      = if params.length ≠ args.length then
          fault (.argumentCount params.length args.length) world
        else if maxCallDepth ≤ world.depth then fault .stackOverflow world
        else
          (startCall params args env >>= fun inner =>
            caught (stmts table fuel inner .null body) >>= fun result =>
            setDepth world.depth >>= fun _ => callResult result) world := by
  rw [apply]
  split
  · rfl
  · show (if maxCallDepth ≤ world.depth then fault .stackOverflow else _ : Eval Value) world = _
    split
    · rfl
    · obtain ⟨scopes, hbind, hstart⟩ := startCall_ok params args env world
      rw [bind_of_ok hstart]
      show (bindParams (world.scopes.next :: env) params args >>= fun _ => _)
        { world with scopes := world.scopes.add false } = _
      rw [bind_of_ok hbind]
      rfl

/-- **The body of a function is evaluated one deeper, and the depth restored behind it.** The
passage is put together of three: the new scope with the arguments, the body, and the way back. What
comes out of the body is caught, so the way back is always taken. -/
theorem records_body {body : Env → Eval Value} {bodyLog : Env → Log}
    (hbody : ∀ inner, Records P (nesting + 1) (body inner) (bodyLog inner) P)
    (params : List String) {args : List Value} (hargs : ∀ v ∈ args, P v) :
    Records P nesting
      (startCall params args env >>= fun inner => Evaluation.caught (body inner) >>= fun result =>
        setDepth nesting >>= fun _ => callResult result)
      ((Log.passes params args).andThen (startCall params args env) bodyLog) P := by
  intro world hdepth hhas haccepts
  obtain ⟨scopes, hbind, hstart⟩ := startCall_ok params args env world
  have hadd : Passage P world { world with scopes := world.scopes.add false } [] :=
    .still rfl rfl (fun id name v hv => hhas id name v (Scopes.bound?_of_add hv))
      fun _ _ => Scopes.bound?_add_eq _ _ _
  have hpasses : Passage P world { world with scopes } (Log.passes params args world) :=
    hadd.append (passage_bindParams params hargs hadd.has
      (by rw [Scopes.size_add]; exact Nat.lt_succ_self _) hbind)
  have hlog : (Log.passes params args).andThen (startCall params args env) bodyLog world
      = Log.passes params args world
        ++ bodyLog (world.scopes.next :: env) { world with scopes, depth := world.depth + 1 } := by
    unfold Log.andThen
    rw [hstart]
  rw [hlog] at haccepts ⊢
  rw [bind_of_ok hstart]
  have hinner := (hbody (world.scopes.next :: env)).caught
    { world with scopes, depth := world.depth + 1 } (congrArg (· + 1) hdepth) hpasses.has
    haccepts.right
  cases hr : Evaluation.caught (body (world.scopes.next :: env))
      { world with scopes, depth := world.depth + 1 } with
  | error signal world₂ =>
    -- nothing comes out of what is caught
    unfold Evaluation.caught at hr
    split at hr <;> cases hr
  | ok result world₂ =>
    rw [hr] at hinner
    obtain ⟨hpassage, hresult⟩ := hinner
    have hset : setDepth nesting world₂ = .ok () { world₂ with depth := nesting } := rfl
    have hbetween : Passage P { world with scopes } { world₂ with depth := nesting }
        (bodyLog (world.scopes.next :: env) { world with scopes, depth := world.depth + 1 }) :=
      ⟨hdepth.symm, hpassage.drawn, hpassage.has, hpassage.values, hpassage.bound, hpassage.reads,
        hpassage.nested⟩
    have hends := hpasses.append hbetween
    have hreturn : Records P nesting (callResult result) .nothing P := records_callResult hresult
    have hlast := hreturn { world₂ with depth := nesting } rfl hpassage.has
      fun v hv => absurd hv List.not_mem_nil
    rw [bind_of_ok hr, bind_of_ok hset]
    split
    · rename_i hs
      rw [hs] at hlast
      have happend := hends.append hlast.1
      exact ⟨by simpa [Log.nothing] using happend, hlast.2⟩
    · rename_i hs
      rw [hs] at hlast
      have happend := hends.append hlast.1
      exact ⟨by simpa [Log.nothing] using happend, hlast.2⟩

/-- A call is recorded before what happens in it. -/
theorem Records.called {callee : Value} {args : List Value} (h : Records P nesting x log post) :
    Records P nesting x (fun world => .called (nesting + 1) callee args world :: log world)
      post := by
  intro world hdepth hhas haccepts
  have hcalled : Passage P world world [.called (nesting + 1) callee args world] := by
    refine .single rfl (drawn_nil _) hhas nofun (fun _ _ => rfl) nofun fun _ _ _ _ hcall => ?_
    cases hcall
    rw [hdepth]
  have hrest : Accepts P (log world) := fun v hv => haccepts v hv
  have hx := h world hdepth hhas hrest
  split at hx
  · exact ⟨hcalled.append hx.1, hx.2⟩
  · exact ⟨hcalled.append hx.1, hx.2⟩

end Records

end Scriptlet.Evaluation
