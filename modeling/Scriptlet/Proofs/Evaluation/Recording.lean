import Scriptlet.Proofs.Evaluation.Recorded

/-!
# Evaluations and their events

By induction on the fuel, all evaluations do what their events say (`recorded`). So a program starts
and ends outside of all calls, its values with an identity are among those that it makes, and no two
of these are identical (`program_passage`).

The events are computed by functions beside the evaluator (`Proofs/Evaluation/Events.lean`), one for
each of its functions. Each proof below therefore walks through two definitions at once: a bind of
the evaluator is matched with the log of the same bind, by the rules for `Records`.
-/

namespace Scriptlet.Evaluation

variable {P : Value → Prop} {table : BuiltinTable} {fuel nesting : Nat} {env : Env}

/-- **With some fuel all evaluations are recorded.** `P` is what is known of the values that are
met: it holds of the values that go in, and of those that come out. -/
structure Recorded (P : Value → Prop) (table : BuiltinTable) (fuel : Nat) : Prop where
  stmt : ∀ nesting env s,
    Records P nesting (stmt table fuel env s) (stmtLog table nesting fuel env s) P
  stmts : ∀ nesting env last body, P last →
    Records P nesting (stmts table fuel env last body) (stmtsLog table nesting fuel env last body) P
  iterate : ∀ nesting env test post body,
    Records P nesting (iterate table fuel env test post body)
      (iterateLog table nesting fuel env test post body) P
  expr : ∀ nesting env e,
    Records P nesting (expr table fuel env e) (exprLog table nesting fuel env e) P
  exprs : ∀ nesting env read es, (∀ v ∈ read, P v) →
    Records P nesting (exprs table fuel env read es) (exprsLog table nesting fuel env read es)
      fun vs => ∀ v ∈ vs, P v
  pairsFrom : ∀ nesting env entries pairs, (∀ e ∈ entries, P e.shown ∧ P e.value) →
    Records P nesting (pairsFrom table fuel env entries pairs)
      (pairsLog table nesting fuel env entries pairs)
      fun entries => ∀ e ∈ entries, P e.shown ∧ P e.value
  apply : ∀ nesting callee args, P callee → (∀ v ∈ args, P v) →
    Records P nesting (apply table fuel callee args) (applyLog table nesting fuel callee args) P

theorem recorded_zero : Recorded P table 0 := by
  constructor <;> intros
  all_goals simp only [Evaluation.stmt, Evaluation.stmts, Evaluation.iterate, Evaluation.expr,
    Evaluation.exprs, Evaluation.pairsFrom, Evaluation.apply, stmtLog, stmtsLog, iterateLog,
    exprLog, exprsLog, pairsLog, applyLog]
  all_goals exact records_outOfFuel

namespace Recorded

/-! ## One more unit of fuel

Each function of the evaluator calls others with one unit less, for which `ih` is at hand. -/

/-- The last value of a body is that of its last statement, or `last` if there is none. -/
theorem stmts_succ (ih : Recorded P table fuel) {last : Value} (hlast : P last)
    (body : List Stmt) : Records P nesting (Evaluation.stmts table (fuel + 1) env last body)
      (stmtsLog table nesting (fuel + 1) env last body) P := by
  cases body with
  | nil =>
    simp only [Evaluation.stmts, stmtsLog]
    exact records_pure hlast
  | cons s rest =>
    simp only [Evaluation.stmts, stmtsLog]
    exact (ih.stmt nesting env s).bind fun v hv => ih.stmts nesting env v rest hv

/-- Values are collected in `read`, which all have the property already. -/
theorem exprs_succ (ih : Recorded P table fuel) {read : List Value}
    (hread : ∀ v ∈ read, P v) (es : List Expr) :
    Records P nesting (Evaluation.exprs table (fuel + 1) env read es)
      (exprsLog table nesting (fuel + 1) env read es) fun vs => ∀ v ∈ vs, P v := by
  cases es with
  | nil =>
    simp only [Evaluation.exprs, exprsLog]
    exact records_pure fun v hv => hread v (List.mem_reverse.mp hv)
  | cons e rest =>
    simp only [Evaluation.exprs, exprsLog]
    exact (ih.expr nesting env e).bind fun v hv => ih.exprs nesting env _ rest
      (List.forall_mem_cons.mpr ⟨hv, hread⟩)

/-- A pair is an entry only if its key can be hashed. The evaluator finds out before it evaluates
the value, and so do the events. -/
theorem pairsFrom_succ (ih : Recorded P table fuel) {entries : List (Entry Value)}
    (hentries : ∀ e ∈ entries, P e.shown ∧ P e.value) (pairs : List (Expr × Expr)) :
    Records P nesting (Evaluation.pairsFrom table (fuel + 1) env entries pairs)
      (pairsLog table nesting (fuel + 1) env entries pairs)
      fun entries => ∀ e ∈ entries, P e.shown ∧ P e.value := by
  rcases pairs with _ | ⟨⟨shown, value⟩, rest⟩
  · simp only [Evaluation.pairsFrom, pairsLog]
    exact records_pure hentries
  · simp only [Evaluation.pairsFrom, pairsLog]
    refine (ih.expr nesting env shown).bind fun v hv => ?_
    cases hkey : v.key? with
    | none => exact records_fault _
    | some key =>
      exact (ih.expr nesting env value).bind fun w hw => ih.pairsFrom nesting env _ rest
        (Value.insert_of_hereditary ⟨hv, hw⟩ hentries)

section

variable (hP : Value.Hereditary P) (ih : Recorded P table fuel)

include hP ih

theorem stmt_succ (s : Stmt) : Records P nesting (Evaluation.stmt table (fuel + 1) env s)
    (stmtLog table nesting (fuel + 1) env s) P := by
  have hnull : P .null := hP.plain _ rfl
  have hjump : ∀ (signal : Signal) (stray : Fault), signal.Has P →
      Records P nesting (do
        if (← get).scopes.inLoop env then throw signal else fault stray) .nothing P := by
    intro signal stray hsignal
    refine records_get fun world => ?_
    split
    · exact records_throw hsignal
    · exact records_fault stray
  cases s with
  | expr value =>
    simp only [Evaluation.stmt, stmtLog]
    exact ih.expr nesting env value
  | bind name value =>
    simp only [Evaluation.stmt, stmtLog]
    exact (ih.expr nesting env value).bind fun v hv =>
      (records_define name hv).bind_last fun _ _ => records_pure hnull
  | assign name value =>
    simp only [Evaluation.stmt, stmtLog]
    exact (ih.expr nesting env value).bind fun v hv =>
      (records_assign name hv).bind_last fun _ _ => records_pure hnull
  | ret value =>
    simp only [Evaluation.stmt, stmtLog]
    exact (ih.expr nesting env value).bind_last fun v hv => records_throw hv
  | block body =>
    simp only [Evaluation.stmt, stmtLog]
    exact (records_enter false).bind fun inner _ => ih.stmts nesting inner .null body hnull
  | loop init test post body =>
    simp only [Evaluation.stmt, stmtLog]
    exact (records_enter true).bind fun inner _ => (ih.stmt nesting inner init).bind fun _ _ =>
      ih.iterate nesting inner test post body
  | breakLoop =>
    simp only [Evaluation.stmt, stmtLog]
    exact hjump .breakLoop _ trivial
  | continueLoop =>
    simp only [Evaluation.stmt, stmtLog]
    exact hjump .continueLoop _ trivial

/-- One round of a loop, and the rounds behind it with one unit of fuel less. -/
theorem iterate_succ (test : Expr) (post : Stmt) (body : List Stmt) :
    Records P nesting (Evaluation.iterate table (fuel + 1) env test post body)
      (iterateLog table nesting (fuel + 1) env test post body) P := by
  have hnull : P .null := hP.plain _ rfl
  have hnext := (ih.stmt nesting env post).bind fun _ _ => ih.iterate nesting env test post body
  simp only [Evaluation.iterate, iterateLog]
  refine (ih.expr nesting env test).bind fun holds _ => ?_
  split
  · refine (ih.stmts nesting env .null body hnull).caught.bind fun result hresult => ?_
    cases result with
    | ok v => exact hnext
    | error signal =>
      cases signal with
      | continueLoop => exact hnext
      | breakLoop => exact records_pure hnull
      | returned v => exact records_throw hresult
      | halted halt => exact records_throw trivial
      | outOfFuel => exact records_throw trivial
  · exact records_pure hnull

theorem expr_succ (e : Expr) : Records P nesting (Evaluation.expr table (fuel + 1) env e)
    (exprLog table nesting (fuel + 1) env e) P := by
  have hplain : ∀ v : Value, v.identity? = none → Records P nesting (pure v) .nothing P :=
    fun v hv => records_pure (hP.plain v hv)
  cases e with
  | int _ | float _ | str _ | bool _ =>
    simp only [exprLog]
    exact .comes _ (by simp only [Evaluation.expr]; exact hplain _ rfl)
  | ident name =>
    simp only [exprLog]
    refine .comes _ ?_
    simp only [Evaluation.expr]
    exact records_identifier hP table name
  | array elements =>
    simp only [exprLog, Evaluation.expr]
    exact (ih.exprs nesting env [] elements (by simp)).bind fun values hvalues =>
      records_makes _ (fun id => .array id values) (fun _ => rfl) (fun _ => rfl) fun _ => hvalues
  | hash pairs =>
    simp only [exprLog, Evaluation.expr]
    exact (ih.pairsFrom nesting env [] pairs (by simp)).bind fun entries hentries =>
      records_makes _ (fun id => .hash id entries) (fun _ => rfl) (fun _ => rfl) fun _ => hentries
  -- operators give a value without parts, so there is nothing to be known of it
  | prefixOp op operand =>
    simp only [exprLog]
    refine .comes _ ?_
    simp only [Evaluation.expr]
    refine (ih.expr nesting env operand).bind_last fun v _ => records_ofExcept fun w hw => ?_
    have hoperates := Value.prefixOp_operates op v
    rw [hw] at hoperates
    exact hP.scalar hoperates
  | infixOp left op right =>
    simp only [exprLog]
    refine .comes _ ?_
    simp only [Evaluation.expr]
    refine (ih.expr nesting env left).bind fun v _ => (ih.expr nesting env right).bind_last
      fun w _ => records_ofExcept fun u hu => ?_
    have hoperates := Value.infixOp_operates op v w
    rw [hu] at hoperates
    exact hP.scalar hoperates
  | cond test yes no =>
    have hyes := fun n env => ih.stmts n env .null yes (hP.plain _ rfl)
    cases no with
    | none =>
      simp only [exprLog]
      refine .comes _ ?_
      simp only [Evaluation.expr]
      refine (ih.expr nesting env test).bind fun holds _ => ?_
      split
      · exact hyes nesting env
      · exact hplain _ rfl
    | some no =>
      simp only [exprLog]
      refine .comes _ ?_
      simp only [Evaluation.expr]
      refine (ih.expr nesting env test).bind fun holds _ => ?_
      split
      · exact hyes nesting env
      · exact ih.stmts nesting env .null no (hP.plain _ rfl)
  | fn params body =>
    simp only [exprLog, Evaluation.expr]
    exact records_makes _ (fun id => .function id params body env) (fun _ => rfl) (fun _ => rfl)
      fun _ => trivial
  -- the callee, then its arguments, then the call with them
  | call callee args =>
    have hcall := (ih.expr nesting env callee).bind fun v hv =>
      (ih.exprs nesting env [] args (by simp)).bind fun vs hvs => ih.apply nesting v vs hv hvs
    simp only [exprLog, Evaluation.expr]
    refine (records_isQuote callee).bind fun isQuote _ => ?_
    cases isQuote with
    | true => exact records_quote _ args
    | false => exact hcall.comes _
  | index left subscript =>
    simp only [exprLog]
    refine .comes _ ?_
    simp only [Evaluation.expr]
    exact (ih.expr nesting env left).bind fun v hv => (ih.expr nesting env subscript).bind_last
      fun w _ => records_ofExcept fun u hu => Value.subscript_of_hereditary hP hv hu

theorem apply_succ {callee : Value} {args : List Value} (hargs : ∀ v ∈ args, P v) :
    Records P nesting (Evaluation.apply table (fuel + 1) callee args)
      (applyLog table nesting (fuel + 1) callee args) P := by
  cases callee with
  | function id params body outer =>
    simp only [applyLog]
    -- a call is recorded even if it is refused
    refine .called fun world hdepth hhas haccepts => ?_
    rw [apply_function]
    by_cases hlength : params.length = args.length
    · by_cases hdeep : maxCallDepth ≤ world.depth
      · rw [if_neg (Decidable.not_not.mpr hlength), if_pos hdeep, if_pos (.inr hdeep)]
        exact ⟨.refl hhas, trivial⟩
      · have hentered : ¬(params.length ≠ args.length ∨ maxCallDepth ≤ world.depth) := by
          simp [hlength, hdeep]
        rw [if_neg (Decidable.not_not.mpr hlength), if_neg hdeep]
        rw [if_neg hentered] at haccepts ⊢
        subst hdepth
        exact records_body (fun inner => ih.stmts _ inner .null body (hP.plain _ rfl)) params hargs
          world rfl hhas haccepts
    · rw [if_pos hlength, if_pos (.inl hlength)]
      exact ⟨.refl hhas, trivial⟩
  | builtin builtin =>
    simp only [Evaluation.apply, applyLog]
    exact records_call hP builtin hargs
  | _ =>
    simp only [Evaluation.apply, applyLog]
    exact records_fault _

end

end Recorded

/-- **All evaluations are recorded**, for whatever is known of values, if only what is known of a
value is known of its parts as well. -/
theorem recorded (hP : Value.Hereditary P) (table : BuiltinTable) (fuel : Nat) :
    Recorded P table fuel := by
  induction fuel with
  | zero => exact recorded_zero
  | succ fuel ih => exact {
      stmt := fun _ _ => ih.stmt_succ hP
      stmts := fun _ _ _ body hlast => ih.stmts_succ hlast body
      iterate := fun _ _ => ih.iterate_succ hP
      expr := fun _ _ => ih.expr_succ hP
      exprs := fun _ _ _ es hread => ih.exprs_succ hread es
      pairsFrom := fun _ _ _ pairs hentries => ih.pairsFrom_succ hentries pairs
      apply := fun _ _ _ _ hargs => ih.apply_succ hP hargs }

/-! ## Programs

The induction leaves open what is known of the values, and here it is that they have been made in
the run. -/

/-- A value whose parts with an identity have been made in some events. -/
abbrev MadeIn (events : List Event) : Value → Prop :=
  Value.Known fun v => v ∈ newValues events

/-- Nothing is bound at the start. -/
theorem bound?_initial (host : Host) (scope : ScopeId) (name : String) :
    (World.initial host).scopes.bound? scope name = none := by
  rcases scope with _ | scope <;> simp [World.initial, Scopes.bound?]

/-- **What has become of the world behind a program**, which starts without variables. All values
that can be reached in it have been made by the program itself. -/
theorem program_passage (table : BuiltinTable) (fuel : Nat) (host : Host) (prog : Program) :
    Passage (MadeIn (programLog table fuel host prog)) (.initial host)
      (program table fuel .root prog (.initial host)).2 (programLog table fuel host prog) := by
  have hP := Value.hereditary_known fun v => v ∈ newValues (programLog table fuel host prog)
  -- nothing is bound at the start, so that all that is known is made by the program
  have hempty : (World.initial host).Has (MadeIn (programLog table fuel host prog)) := by
    intro id name v hv
    rw [bound?_initial] at hv
    cases hv
  have hrecords := (recorded hP table fuel).stmts 0 .root .null prog (hP.plain _ rfl)
    (.initial host) rfl hempty fun v hv hparts => Value.known_of_parts hv hparts
  unfold program
  split at hrecords
  · rename_i heq
    rw [heq]
    exact hrecords.1
  · rename_i heq
    rw [heq]
    exact hrecords.1

end Scriptlet.Evaluation
