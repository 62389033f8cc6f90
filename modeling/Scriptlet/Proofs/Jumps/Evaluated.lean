import Scriptlet.Proofs.Jumps.Stray
import Scriptlet.Proofs.Scopes
import Scriptlet.Proofs.Values

/-!
# Jumps out of loops in an evaluation

`Runs env inLoop leaves x post` says what an evaluation in which no jump strays does: if it starts
where all functions are sound, it ends there with a result that meets `post`, or by a signal that
may come out of it. The fault of a stray jump is no such signal, and a `break` or `continue` only
comes out of what stands in the body of a loop, which is where a scope of a loop is around as well.

There are two booleans because the head of a loop has two sides. It is evaluated inside the scope of
the loop, so a jump there is taken for one by the evaluator; but it does not stand in the body, so
the syntax must not have any. `inLoop` is what is known of the scopes at the start, `leaves` is what
may come out in the end, and they only differ there.

Values carry code, and so the invariant has to reach the values: a function that has been stored may
be called anywhere, and its body must not have a stray jump either (`Value.Confined`).
-/

namespace Scriptlet

/-- **In a sound value no jump strays in the body of a function.** Errors are not values of
programs: one that was would be taken for the outcome of the evaluation. -/
def Value.Confined : Value → Prop
  | .function _ _ body _ => ∀ jump, Stmt.straysAny jump false body = false
  | .error _ => False
  | _ => True

theorem Value.Scalar.confined {v : Value} (h : v.Scalar) : v.Confined := by
  cases v <;> trivial

/-- A value that may occur where no jump strays. -/
abbrev Value.Sound (v : Value) : Prop :=
  v.All Value.Confined

/-- The faults of operands are not those of jumps. -/
theorem Fault.OfOperands.ne_jump {fault : Fault} (h : fault.OfOperands) (jump : LoopJump) :
    fault ≠ jump.fault := by
  rintro rfl
  cases jump <;> cases h

namespace Evaluation

/-- **All values that are bound are sound**, in whatever scope. -/
def World.Sound (world : World) : Prop :=
  ∀ id name v, world.scopes.bound? id name = some v → v.Sound

/-- **A later world**, which is sound and in which the scopes of loops are still such. Scopes are
added and bound, but none ever turns from one of a loop into one of none, so what is known of an
environment stays known. -/
structure World.Onward (world world' : World) : Prop where
  sound : world'.Sound
  loops : ∀ id, world.scopes.ofLoop id = true → world'.scopes.ofLoop id = true

theorem World.Onward.refl {world : World} (h : world.Sound) : world.Onward world :=
  ⟨h, fun _ => id⟩

theorem World.Onward.trans {world world' world'' : World} (h : world.Onward world')
    (h' : world'.Onward world'') : world.Onward world'' :=
  ⟨h'.sound, fun id hid => h'.loops id (h.loops id hid)⟩

theorem World.Onward.inLoop {world world' : World} (h : world.Onward world') {env : Env}
    (hin : world.scopes.inLoop env = true) : world'.scopes.inLoop env = true := by
  obtain ⟨id, hid, hloop⟩ := List.any_eq_true.mp hin
  exact List.any_eq_true.mpr ⟨id, hid, h.loops id hloop⟩

/-- **A signal that may come out** of what stands in the body of a loop, if `leaves` holds. Faults
are allowed but for those of stray jumps, which is what is to be shown. -/
def Signal.Allowed (leaves : Bool) : Signal → Prop
  | .returned v => v.Sound
  | .breakLoop | .continueLoop => leaves = true
  | .halted (.fault fault) => ∀ jump : LoopJump, fault ≠ jump.fault
  | .halted (.exit _) | .outOfFuel => True

/-- **A run that ends as it should, wherever it starts.** With `inLoop` only where a scope of a loop
is around. -/
def Runs {α : Type} (env : Env) (inLoop leaves : Bool) (x : Eval α) (post : α → Prop) : Prop :=
  ∀ world : World, world.Sound → (inLoop = true → world.scopes.inLoop env = true) →
    match x world with
    | .ok a world' => world.Onward world' ∧ post a
    | .error signal world' => world.Onward world' ∧ signal.Allowed leaves

section Runs

variable {α β : Type} {env env' : Env} {inLoop inLoop' leaves leaves' : Bool} {x : Eval α}
  {f : α → Eval β} {post mid : α → Prop} {post' : β → Prop}

/-- **Two runs in a row.** The second starts in the world that the first has left, which is sound,
and around which the scopes of loops are those of before. -/
theorem Runs.bind (h : Runs env inLoop leaves x mid)
    (hf : ∀ a, mid a → Runs env inLoop leaves (f a) post') :
    Runs env inLoop leaves (x >>= f) post' := by
  intro world hworld hin
  have hx := h world hworld hin
  have hbind : (x >>= f) world = EStateM.bind x f world := rfl
  rw [hbind, EStateM.bind]
  cases hr : x world with
  | error signal world' =>
    rw [hr] at hx
    exact hx
  | ok a world' =>
    rw [hr] at hx
    have hy := hf a hx.2 world' hx.1.sound fun h => hx.1.inLoop (hin h)
    dsimp only
    cases hs : f a world' with
    | ok b world'' =>
      rw [hs] at hy
      exact ⟨hx.1.trans hy.1, hy.2⟩
    | error signal world'' =>
      rw [hs] at hy
      exact ⟨hx.1.trans hy.1, hy.2⟩

theorem Signal.Allowed.mono {signal : Signal} (h : signal.Allowed leaves)
    (hleaves : leaves = true → leaves' = true) : signal.Allowed leaves' := by
  cases signal with
  | breakLoop => exact hleaves h
  | continueLoop => exact hleaves h
  | returned v => exact h
  | halted halt => cases halt <;> exact h
  | outOfFuel => exact h

/-- Other signals than jumps come out of everything. -/
theorem Signal.Allowed.passed {signal : Signal} (h : signal.Allowed leaves)
    (hbreak : signal ≠ .breakLoop) (hcontinue : signal ≠ .continueLoop) :
    signal.Allowed leaves' := by
  cases signal with
  | breakLoop => exact absurd rfl hbreak
  | continueLoop => exact absurd rfl hcontinue
  | returned v => exact h
  | halted halt => cases halt <;> exact h
  | outOfFuel => exact h

/-- More may be known of the start, and more be allowed in the end. -/
theorem Runs.mono (h : Runs env inLoop leaves x post) (hin : inLoop = true → inLoop' = true)
    (hleaves : leaves = true → leaves' = true) : Runs env inLoop' leaves' x post := by
  intro world hworld hin'
  have hx := h world hworld fun h => hin' (hin h)
  cases hr : x world with
  | ok a world' =>
    rw [hr] at hx
    exact hx
  | error signal world' =>
    rw [hr] at hx
    exact ⟨hx.1, hx.2.mono hleaves⟩

/-- What does not rely on a loop runs from anywhere. -/
theorem Runs.anywhere (h : Runs env false leaves x post) : Runs env' inLoop leaves x post :=
  fun world hworld _ => h world hworld (by simp)

theorem runs_pure {a : α} (h : post a) : Runs env inLoop leaves (pure a) post :=
  fun _ hworld _ => ⟨World.Onward.refl hworld, h⟩

theorem runs_throw {signal : Signal} (h : signal.Allowed leaves) :
    Runs env inLoop leaves (throw signal) post :=
  fun _ hworld _ => ⟨World.Onward.refl hworld, h⟩

theorem runs_fault {fault : Fault}
    (h : ∀ jump : LoopJump, fault ≠ jump.fault := by rintro (_ | _) <;> exact nofun) :
    Runs env inLoop leaves (Evaluation.fault fault) post :=
  runs_throw h

theorem runs_ofExcept {result : Except Fault α} (hok : ∀ a, result = .ok a → post a)
    (herror : ∀ fault, result = .error fault → fault.OfOperands) :
    Runs env inLoop leaves (ofExcept result) post := by
  cases result with
  | ok a => exact runs_pure (hok a rfl)
  | error fault => exact runs_fault (herror fault rfl).ne_jump

theorem runs_operator {result : Except Fault Value} (h : Value.Operates result) :
    Runs env inLoop leaves (ofExcept result) Value.Sound := by
  refine runs_ofExcept (fun v hv => ?_) fun fault hfault => ?_
  · subst hv
    exact h.all h.confined
  · subst hfault
    exact h

/-- A run that looks at the world first. -/
theorem runs_get {f : World → Eval β}
    (hf : ∀ world, Runs env inLoop leaves (f world) post') :
    Runs env inLoop leaves (get >>= f) post' :=
  fun world => hf world world

/-- What has been caught: a result or a signal. -/
def Caught (leaves : Bool) (post : α → Prop) : Except Signal α → Prop
  | .ok a => post a
  | .error signal => signal.Allowed leaves

theorem runs_caught (h : Runs env inLoop leaves' x post) :
    Runs env inLoop leaves (caught x) (Caught leaves' post) := by
  intro world hworld hin
  have hx := h world hworld hin
  unfold caught
  cases hr : x world with
  | ok a world' =>
    rw [hr] at hx
    exact hx
  | error signal world' =>
    rw [hr] at hx
    exact hx

/-! ## Effects on the world

Of all that changes the world, only bindings need a look at what is bound; the surroundings have no
functions of programs, and the depth no meaning here. -/

/-- An effect on the surroundings. -/
theorem runs_onHost {action : HostM α}
    (h : ∀ host : Host, action.Meets host post Halt.OfOperands) :
    Runs env inLoop leaves (onHost action) post := by
  rintro ⟨host, scopes, depth⟩ hworld -
  have haction := h host
  unfold HostM.Meets at haction
  cases hr : action host with
  | ok a host' =>
    simp only [onHost, hr] at haction ⊢
    exact ⟨⟨hworld, fun _ => id⟩, haction.2⟩
  | error halt host' =>
    simp only [onHost, hr] at haction ⊢
    refine ⟨⟨hworld, fun _ => id⟩, ?_⟩
    cases halt with
    | exit status => trivial
    | fault fault => exact Fault.OfOperands.ne_jump haction

theorem runs_identity : Runs env inLoop leaves (onHost HostM.identity) fun _ => True :=
  runs_onHost fun _ => ⟨Nat.le_succ _, trivial⟩

theorem runs_setDepth (depth : Nat) : Runs env inLoop leaves (setDepth depth) fun _ => True :=
  fun _ hworld _ => ⟨⟨hworld, fun _ => id⟩, trivial⟩

/-- A sound value is bound, or nothing is changed. -/
theorem runs_onScopes {change : Scopes → Scopes} {name : String} {v : Value} (hv : v.Sound)
    (hchange : ∀ scopes, change scopes = scopes ∨ ∃ id, change scopes = scopes.bind id name v) :
    Runs env inLoop leaves (onScopes change) fun _ => True := by
  rintro ⟨host, scopes, depth⟩ hworld -
  refine ⟨⟨?_, ?_⟩, trivial⟩
  all_goals
    show ∀ id : ScopeId, _
    dsimp only
    rcases hchange scopes with heq | ⟨id, heq⟩ <;> rw [heq]
  · exact hworld
  · intro other name' w hw
    rcases Scopes.bound?_bind_cases hw with rfl | hold
    · exact hv
    · exact hworld other name' w hold
  · exact fun _ => id
  · exact fun other hloop => Scopes.ofLoop_bind.trans hloop

theorem runs_define (name : String) {v : Value} (hv : v.Sound) :
    Runs env inLoop leaves (onScopes fun scopes => scopes.define env' name v) fun _ => True :=
  runs_onScopes hv fun scopes => scopes.define_cases env' name v

theorem runs_assign (name : String) {v : Value} (hv : v.Sound) :
    Runs env inLoop leaves (onScopes fun scopes => scopes.assign name v env') fun _ => True :=
  runs_onScopes hv fun scopes => scopes.assign_cases name v env'

/-- A new scope, which holds no values. -/
theorem onward_add {host : Host} {scopes : Scopes} {depth : Nat} (ofLoop : Bool)
    (h : World.Sound ⟨host, scopes, depth⟩) :
    World.Onward ⟨host, scopes, depth⟩ ⟨host, scopes.add ofLoop, depth⟩ where
  sound id name v hv := h id name v (Scopes.bound?_of_add hv)
  loops _ hid := (Scopes.ofLoop_add ofLoop (Scopes.lt_size_of_ofLoop hid)).trans hid

/-- **Inside of a new scope**, which may be that of a loop. A scope of a loop counts for all that is
inside of it; any other leaves the question to the scopes around it. -/
theorem runs_enter {f : Env → Eval α} (ofLoop : Bool)
    (hf : ∀ inner, Runs inner (inLoop || ofLoop) leaves (f inner) post) :
    Runs env inLoop leaves (enter env ofLoop >>= f) post := by
  rintro ⟨host, scopes, depth⟩ hworld hin
  have honward := onward_add ofLoop hworld
  have hinner : (inLoop || ofLoop) = true →
      (scopes.add ofLoop).inLoop (scopes.next :: env) = true := by
    intro h
    rcases (Bool.or_eq_true _ _).mp h with h | rfl
    · obtain ⟨id, hid, hloop⟩ := List.any_eq_true.mp (honward.inLoop (hin h))
      exact List.any_eq_true.mpr ⟨id, List.mem_cons_of_mem _ hid, hloop⟩
    · exact Scopes.inLoop_cons_of_ofLoop (Scopes.ofLoop_add_next true) env
  have hrest := hf (scopes.next :: env) ⟨host, scopes.add ofLoop, depth⟩ honward.sound hinner
  have hbind : (enter env ofLoop >>= f) ⟨host, scopes, depth⟩
      = f (scopes.next :: env) ⟨host, scopes.add ofLoop, depth⟩ := rfl
  rw [hbind]
  split
  · rename_i hr
    rw [hr] at hrest
    exact ⟨honward.trans hrest.1, hrest.2⟩
  · rename_i hr
    rw [hr] at hrest
    exact ⟨honward.trans hrest.1, hrest.2⟩

theorem runs_lookup (name : String) :
    Runs env inLoop leaves (lookup? env' name) fun found => ∀ v, found = some v → v.Sound := by
  intro world hworld _
  refine ⟨.refl hworld, fun v hv => ?_⟩
  induction env' with
  | nil => cases hv
  | cons id outer ih =>
    rw [Scopes.lookup?] at hv
    split at hv
    · rename_i hbound
      cases hv
      exact hworld id name v hbound
    · exact ih hv

theorem runs_identifier (table : BuiltinTable) (name : String) :
    Runs env inLoop leaves (identifier table env' name) Value.Sound := by
  refine (runs_lookup name).bind fun found hfound => ?_
  cases found with
  | some v => exact runs_pure (hfound v rfl)
  | none =>
    dsimp only
    split
    · exact runs_pure trivial
    · exact runs_fault

theorem runs_quote (args : List Expr) : Runs env inLoop leaves (quote args) Value.Sound := by
  unfold quote
  split
  · exact runs_identity.bind fun _ _ => runs_pure trivial
  · exact runs_fault

theorem runs_isQuote (callee : Expr) :
    Runs env inLoop leaves (isQuote env' callee) fun _ => True := by
  unfold isQuote
  split
  · exact (runs_lookup _).bind fun _ _ => runs_pure trivial
  · exact runs_pure trivial

theorem runs_bindParams (params : List String) {args : List Value} (hargs : ∀ v ∈ args, v.Sound) :
    Runs env inLoop leaves (bindParams env' params args) fun _ => True := by
  induction params generalizing args with
  | nil => exact runs_pure trivial
  | cons param params ih =>
    cases args with
    | nil => exact runs_pure trivial
    | cons arg args =>
      exact (runs_define param (hargs arg List.mem_cons_self)).bind fun _ _ =>
        ih fun v hv => hargs v (List.mem_cons_of_mem _ hv)

end Runs

/-! ## Statements and expressions

Induction on the fuel, with one lemma for each function of the evaluator. `Confines` collects what
they say at one amount of fuel, so that each step has all of them as one hypothesis. -/

/-- **With some fuel all that has no stray jump runs as it should.** What may leave an expression or
a statement depends on whether it stands in the body of a loop; the head of a loop is evaluated
inside of the scope of the loop, but does not stand in its body.

`apply` says nothing of where the call stands: what comes out of a function does not depend on
it. -/
structure Confines (table : BuiltinTable) (fuel : Nat) : Prop where
  stmt : ∀ env inLoop s, (∀ jump, Stmt.strays jump inLoop s = false) →
    Runs env inLoop inLoop (stmt table fuel env s) Value.Sound
  stmts : ∀ env inLoop last body, last.Sound → (∀ jump, Stmt.straysAny jump inLoop body = false) →
    Runs env inLoop inLoop (stmts table fuel env last body) Value.Sound
  iterate : ∀ env inLoop test post body, (∀ jump, Expr.strays jump inLoop test = false) →
    (∀ jump, Stmt.strays jump inLoop post = false) →
    (∀ jump, Stmt.straysAny jump true body = false) →
    Runs env true inLoop (iterate table fuel env test post body) Value.Sound
  expr : ∀ env inLoop e, (∀ jump, Expr.strays jump inLoop e = false) →
    Runs env inLoop inLoop (expr table fuel env e) Value.Sound
  exprs : ∀ env inLoop read es, (∀ v ∈ read, v.Sound) →
    (∀ jump, Expr.straysAny jump inLoop es = false) →
    Runs env inLoop inLoop (exprs table fuel env read es) fun vs => ∀ v ∈ vs, v.Sound
  pairsFrom : ∀ env inLoop entries pairs, Value.AllEntries Value.Confined entries →
    (∀ jump, Expr.straysPairs jump inLoop pairs = false) →
    Runs env inLoop inLoop (pairsFrom table fuel env entries pairs)
      (Value.AllEntries Value.Confined)
  apply : ∀ env inLoop leaves callee args, callee.Sound → (∀ v ∈ args, v.Sound) →
    Runs env inLoop leaves (apply table fuel callee args) Value.Sound

theorem confines_zero (table : BuiltinTable) : Confines table 0 where
  stmt _ _ _ _ := runs_throw trivial
  stmts _ _ _ _ _ _ := runs_throw trivial
  iterate _ _ _ _ _ _ _ _ := runs_throw trivial
  expr _ _ _ _ := runs_throw trivial
  exprs _ _ _ _ _ _ := runs_throw trivial
  pairsFrom _ _ _ _ _ _ := runs_throw trivial
  apply _ _ _ _ _ _ _ := runs_throw trivial

section Steps

variable {table : BuiltinTable} {fuel : Nat} {env : Env} {inLoop leaves : Bool}

/-- **A jump where a scope of a loop is around** is the signal, not the fault. It is here that the
evaluator and the syntax are compared. -/
theorem runs_jump {signal : Signal} {stray : Fault} (h : signal.Allowed true) :
    Runs env true true (do
      if (← get).scopes.inLoop env then throw signal else fault stray) Value.Sound := by
  intro world hworld hin
  have hthrow : (do if (← get).scopes.inLoop env then throw signal else fault stray : Eval Value)
      world = .error signal world := by
    show (if world.scopes.inLoop env then throw signal else fault stray : Eval Value) world = _
    rw [if_pos (hin rfl)]
    rfl
  rw [hthrow]
  exact ⟨.refl hworld, h⟩

theorem Confines.stmt_succ (ih : Confines table fuel) {s : Stmt}
    (h : ∀ jump, Stmt.strays jump inLoop s = false) :
    Runs env inLoop inLoop (Evaluation.stmt table (fuel + 1) env s) Value.Sound := by
  cases s with
  | expr value =>
    simp only [Evaluation.stmt]
    exact ih.expr env inLoop value h
  | bind name value =>
    simp only [Evaluation.stmt]
    exact (ih.expr env inLoop value h).bind fun v hv =>
      (runs_define name hv).bind fun _ _ => runs_pure trivial
  | assign name value =>
    simp only [Evaluation.stmt]
    exact (ih.expr env inLoop value h).bind fun v hv =>
      (runs_assign name hv).bind fun _ _ => runs_pure trivial
  | ret value =>
    simp only [Evaluation.stmt]
    exact (ih.expr env inLoop value h).bind fun v hv => runs_throw hv
  | block body =>
    simp only [Evaluation.stmt]
    refine runs_enter false fun inner => ?_
    rw [Bool.or_false]
    exact ih.stmts inner inLoop .null body trivial h
  | loop init test post body =>
    simp only [Evaluation.stmt]
    simp only [Stmt.strays, Bool.or_eq_false_iff, forall_and] at h
    obtain ⟨⟨⟨hinit, htest⟩, hpost⟩, hbody⟩ := h
    -- the scope of the loop is already around in its head, of which less is known
    refine runs_enter true fun inner => ?_
    rw [Bool.or_true]
    exact ((ih.stmt inner inLoop init hinit).mono (fun _ => rfl) id).bind fun _ _ =>
      ih.iterate inner inLoop test post body htest hpost hbody
  | breakLoop =>
    obtain rfl : inLoop = true := by simpa [Stmt.strays] using h .breaks
    simp only [Evaluation.stmt]
    exact runs_jump rfl
  | continueLoop =>
    obtain rfl : inLoop = true := by simpa [Stmt.strays] using h .continues
    simp only [Evaluation.stmt]
    exact runs_jump rfl

theorem Confines.stmts_succ (ih : Confines table fuel) {last : Value} {body : List Stmt}
    (hlast : last.Sound) (h : ∀ jump, Stmt.straysAny jump inLoop body = false) :
    Runs env inLoop inLoop (Evaluation.stmts table (fuel + 1) env last body) Value.Sound := by
  cases body with
  | nil =>
    simp only [Evaluation.stmts]
    exact runs_pure hlast
  | cons s rest =>
    simp only [Stmt.straysAny, Bool.or_eq_false_iff, forall_and] at h
    simp only [Evaluation.stmts]
    exact (ih.stmt env inLoop s h.1).bind fun v hv => ih.stmts env inLoop v rest hv h.2

/-- **A loop.** The signals of jumps that come out of the body are caught; what comes out of the
test and of the last part of the head is handed on, so these must be free of jumps as far as the
loop around is concerned. -/
theorem Confines.iterate_succ (ih : Confines table fuel) {test : Expr} {post : Stmt}
    {body : List Stmt} (htest : ∀ jump, Expr.strays jump inLoop test = false)
    (hpost : ∀ jump, Stmt.strays jump inLoop post = false)
    (hbody : ∀ jump, Stmt.straysAny jump true body = false) :
    Runs env true inLoop (Evaluation.iterate table (fuel + 1) env test post body) Value.Sound := by
  have hnext : Runs env true inLoop (do
      let _ ← Evaluation.stmt table fuel env post
      Evaluation.iterate table fuel env test post body) Value.Sound :=
    ((ih.stmt env inLoop post hpost).mono (fun _ => rfl) id).bind fun _ _ =>
      ih.iterate env inLoop test post body htest hpost hbody
  simp only [Evaluation.iterate]
  refine ((ih.expr env inLoop test htest).mono (fun _ => rfl) id).bind fun holds _ => ?_
  split
  · refine (runs_caught (ih.stmts env true .null body trivial hbody)).bind fun result hresult => ?_
    cases result with
    | ok v => exact hnext
    | error signal =>
      -- jumps out of the body end here; those out of the head have not been caught
      have hsignal : signal.Allowed true := hresult
      cases signal with
      | breakLoop => exact runs_pure trivial
      | continueLoop => exact hnext
      | _ => exact runs_throw (hsignal.passed (by simp) (by simp))
  · exact runs_pure trivial

theorem Confines.expr_succ (ih : Confines table fuel) {e : Expr}
    (h : ∀ jump, Expr.strays jump inLoop e = false) :
    Runs env inLoop inLoop (Evaluation.expr table (fuel + 1) env e) Value.Sound := by
  cases e with
  | int _ | float _ | str _ | bool _ =>
    simp only [Evaluation.expr]
    exact runs_pure trivial
  | ident name =>
    simp only [Evaluation.expr]
    exact runs_identifier table name
  | array elements =>
    simp only [Evaluation.expr]
    exact (ih.exprs env inLoop [] elements (by simp) h).bind fun vs hvs =>
      runs_onHost fun _ => HostM.array_meets (Value.allList_iff.mpr hvs)
  | hash pairs =>
    simp only [Evaluation.expr]
    exact (ih.pairsFrom env inLoop [] pairs trivial h).bind fun entries hentries =>
      runs_onHost fun _ => HostM.hash_meets hentries
  | prefixOp op operand =>
    simp only [Evaluation.expr]
    exact (ih.expr env inLoop operand h).bind fun v _ =>
      runs_operator (Value.prefixOp_operates op v)
  | infixOp left op right =>
    simp only [Expr.strays, Bool.or_eq_false_iff, forall_and] at h
    simp only [Evaluation.expr]
    exact (ih.expr env inLoop left h.1).bind fun v _ =>
      (ih.expr env inLoop right h.2).bind fun w _ =>
        runs_operator (Value.infixOp_operates op v w)
  | cond test yes no =>
    simp only [Expr.strays, Bool.or_eq_false_iff, forall_and] at h
    simp only [Evaluation.expr]
    refine (ih.expr env inLoop test h.1.1).bind fun holds _ => ?_
    split
    · exact ih.stmts env inLoop .null yes trivial h.1.2
    · cases no with
      | none => exact runs_pure trivial
      | some no => exact ih.stmts env inLoop .null no trivial h.2
  -- a function may not have a jump that leaves it, and this is all that is known of the value
  | fn params body =>
    simp only [Evaluation.expr]
    exact runs_identity.bind fun id _ => runs_pure h
  | call callee args =>
    simp only [Expr.strays, Bool.or_eq_false_iff, forall_and] at h
    simp only [Evaluation.expr]
    -- what is quoted is not evaluated, so nothing is needed of its jumps
    refine (runs_isQuote callee).bind fun isQuote _ => ?_
    split
    · exact runs_quote args
    · exact (ih.expr env inLoop callee h.1).bind fun v hv =>
        (ih.exprs env inLoop [] args (by simp) h.2).bind fun vs hvs =>
          ih.apply env inLoop inLoop v vs hv hvs
  | index left subscript =>
    simp only [Expr.strays, Bool.or_eq_false_iff, forall_and] at h
    simp only [Evaluation.expr]
    exact (ih.expr env inLoop left h.1).bind fun v hv =>
      (ih.expr env inLoop subscript h.2).bind fun w _ => runs_ofExcept
        (fun u hu => Value.subscript_all trivial hv hu) fun _ => Value.subscript_error

theorem Confines.exprs_succ (ih : Confines table fuel) {read : List Value} {es : List Expr}
    (hread : ∀ v ∈ read, v.Sound) (h : ∀ jump, Expr.straysAny jump inLoop es = false) :
    Runs env inLoop inLoop (Evaluation.exprs table (fuel + 1) env read es)
      fun vs => ∀ v ∈ vs, v.Sound := by
  cases es with
  | nil =>
    simp only [Evaluation.exprs]
    exact runs_pure fun v hv => hread v (List.mem_reverse.mp hv)
  | cons e rest =>
    simp only [Expr.straysAny, Bool.or_eq_false_iff, forall_and] at h
    simp only [Evaluation.exprs]
    refine (ih.expr env inLoop e h.1).bind fun v hv => ih.exprs env inLoop _ rest ?_ h.2
    intro w hw
    rcases List.mem_cons.mp hw with rfl | hw
    · exact hv
    · exact hread w hw

theorem Confines.pairsFrom_succ (ih : Confines table fuel) {entries : List (Entry Value)}
    {pairs : List (Expr × Expr)} (hentries : Value.AllEntries Value.Confined entries)
    (h : ∀ jump, Expr.straysPairs jump inLoop pairs = false) :
    Runs env inLoop inLoop (Evaluation.pairsFrom table (fuel + 1) env entries pairs)
      (Value.AllEntries Value.Confined) := by
  rcases pairs with _ | ⟨⟨shown, value⟩, rest⟩
  · simp only [Evaluation.pairsFrom]
    exact runs_pure hentries
  · simp only [Expr.straysPairs, Bool.or_eq_false_iff, forall_and] at h
    simp only [Evaluation.pairsFrom]
    refine (ih.expr env inLoop shown h.1.1).bind fun v hv => ?_
    split
    · exact runs_fault
    · exact (ih.expr env inLoop value h.1.2).bind fun w hw =>
        ih.pairsFrom env inLoop _ rest (Value.insert_all ⟨hv, hw⟩ hentries) h.2

/-- Nothing that strays is left for the call of a function to complain about. The evaluator turns a
jump that comes out of a body into a fault here; by the hypothesis none does. -/
theorem runs_callResult {result : Except Signal Value} (h : Caught false Value.Sound result) :
    Runs env inLoop leaves (callResult result) Value.Sound := by
  cases result with
  | ok v => exact runs_pure h
  | error signal =>
    have hsignal : signal.Allowed false := h
    cases signal with
    | returned v => exact runs_pure hsignal
    | breakLoop => cases hsignal
    | continueLoop => cases hsignal
    | _ => exact runs_throw (hsignal.passed (by simp) (by simp))

/-- The body of a function is evaluated inside the scopes of the function, where its jumps do not
stray, so that none of them comes out of the call. -/
theorem Confines.apply_succ (ih : Confines table fuel) {callee : Value} {args : List Value}
    (hcallee : callee.Sound) (hargs : ∀ v ∈ args, v.Sound) :
    Runs env inLoop leaves (Evaluation.apply table (fuel + 1) callee args) Value.Sound := by
  cases callee with
  | function id params body outer =>
    simp only [Evaluation.apply]
    split
    · exact runs_fault
    · refine runs_get fun world => ?_
      split
      · exact runs_fault
      -- the scopes of the function are others than those of the call
      · refine Runs.anywhere (runs_enter false fun inner => ?_)
        refine (runs_bindParams params hargs).bind fun _ _ => ?_
        refine (runs_setDepth _).bind fun _ _ => ?_
        refine (runs_caught (ih.stmts inner false .null body trivial hcallee)).bind
          fun result hresult => ?_
        exact (runs_setDepth _).bind fun _ _ => runs_callResult hresult
  | builtin builtin =>
    simp only [Evaluation.apply]
    exact runs_onHost fun host => builtin.call_meets host (fun _ => Value.Scalar.confined) hargs
  | _ =>
    simp only [Evaluation.apply]
    exact runs_fault

end Steps

/-- **Whatever has no stray jump runs as it should**, with any fuel. -/
theorem confines (table : BuiltinTable) (fuel : Nat) : Confines table fuel := by
  induction fuel with
  | zero => exact confines_zero table
  | succ fuel ih => exact {
      stmt := fun _ _ _ => ih.stmt_succ
      stmts := fun _ _ _ _ => ih.stmts_succ
      iterate := fun _ _ _ _ _ => ih.iterate_succ
      expr := fun _ _ _ => ih.expr_succ
      exprs := fun _ _ _ _ => ih.exprs_succ
      pairsFrom := fun _ _ _ _ => ih.pairsFrom_succ
      apply := fun _ _ _ _ _ => ih.apply_succ }

end Evaluation

end Scriptlet
