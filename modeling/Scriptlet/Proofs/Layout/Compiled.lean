import Scriptlet.Proofs.Layout.Combinators

/-!
# The compiler meets the layout

`expr_leaves` and `stmt_laid`: whatever the compiler accepts, the code that it emits is laid out as
`ExprAt` and `StmtAt` say, in every finished program that it becomes part of.

The proof follows the recursion of the compiler. What it shows of a piece of syntax is a proposition
of its own (`ExprLeaves`, `StmtLaid` and their companions for lists), and there is one lemma for
each constructor that derives it from the same of the parts: it runs through the steps that the
compiler takes for this constructor, with the operands that the parts before have left. The
recursion itself, further down, only names the lemmas.
-/

namespace Scriptlet.Compilation

/-! ## What the induction shows

The five statements that the recursion of the compiler proves of each other, one for each of its
functions. They are definitions, not theorems, so that a lemma about one constructor can take them
for its parts as hypotheses. Each asks that the compiler is `Ready` before the call and succeeds;
what it then says is the layout of the code and the number of operands behind it. -/

/-- **The code of an expression leaves one operand.** The layout is that of the depth at which the
compiler stands; the depth is not in the syntax, so it is read off the state. -/
def ExprLeaves (e : Expr) : Prop :=
  ∀ {s t : State} {r : Unit}, Ready s → expr e s = .ok r t →
    Leaves s t (s.segment.depth + 1) fun code constants exit =>
      ExprAt code constants exit s.segment.depth e s.point t.point

/-- The code of expressions in turn leaves one operand for each, so each is laid out one operand
deeper than the one before it. -/
def ExprsLeave (es : List Expr) : Prop :=
  ∀ {s t : State} {r : Unit}, Ready s → exprs es s = .ok r t →
    Leaves s t (s.segment.depth + es.length) fun code constants exit =>
      ExprsAt code constants exit s.segment.depth es s.point t.point

/-- The code of the pairs of a hash leaves two operands for each: a key and its value. -/
def PairsLeave (pairs : List (Expr × Expr)) : Prop :=
  ∀ {s t : State} {r : Unit}, Ready s → pairsOf pairs s = .ok r t →
    Leaves s t (s.segment.depth + 2 * pairs.length) fun code constants exit =>
      PairsAt code constants exit s.segment.depth pairs s.point t.point

/-- **The code of a statement is laid out as the statement.** The way in which it ends and whether
it leaves the loop around it are those that `Stmt.closing` and `Stmt.exits` read off the syntax.
This is the point where what the compiler tracks as it goes becomes a function of the statement
alone. -/
def StmtLaid (st : Stmt) : Prop :=
  ∀ {s t : State} {r : Unit}, Ready s → stmt st s = .ok r t →
    Laid s t st.closing st.exits fun ending code constants exit a b =>
      StmtAt code constants exit ending s.segment.depth st a b

/-- The code of statements in turn is laid out as the statements, with the closing of the last one
that has code. -/
def StmtsLaid (body : List Stmt) : Prop :=
  ∀ {s t : State} {r : Unit}, Ready s → stmts body s = .ok r t →
    Laid s t (Stmt.closingList body) (Stmt.exitsAny body) fun ending code constants exit a b =>
      StmtsAt code constants exit ending s.segment.depth body a b

/-! ## Expressions

One lemma for each constructor, which opens the equation of `expr` for it, names the states between
the parts and puts the parts together with `Leaves.seq`. The lemmas differ in how many operands
stand below each part, and in what the compiler checks on the way. -/

/-- A truth value is an instruction, not a constant. -/
theorem boolean_leaves (v : Bool) : ExprLeaves (.bool v) := by
  intro s t r hs h
  obtain rfl := emit_ok.mp h
  exact leaves_emit s _ [] (by cases v <;> rfl)

/-- A name is resolved, which may define a global or capture a variable, and the symbol that comes
out is read. -/
theorem ident_leaves (name : String) : ExprLeaves (.ident name) := by
  intro s t r hs h
  simp only [expr, bind_ok, resolve_ok] at h
  obtain ⟨_, _, ⟨rfl, rfl⟩, h⟩ := h
  exact ((leaves_symbols hs.last (by simp)).seq (load_leaves h)).mono fun _ _ _ _ h => h.2

/-- Two operands in turn and an instruction that takes both and leaves one. -/
theorem binary_leaves {first second : Expr} {s u v : State} {r r' : Unit} {op : Op} (hs : Ready s)
    (ih₁ : ExprLeaves first) (ih₂ : ExprLeaves second) (hu : expr first s = .ok r u)
    (hv : expr second u = .ok r' v) (heffect : stackEffect op [] = -1) :
    Leaves s (v.emit op []) (s.segment.depth + 1) fun code constants exit =>
      ∃ m n, ExprAt code constants exit s.segment.depth first s.point m
        ∧ ExprAt code constants exit (s.segment.depth + 1) second m n
        ∧ OpAt code op [] n (v.emit op []).point := by
  have hfirst := ih₁ hs hu
  have hsecond := ih₂ (hfirst.ready hs (by omega)) hv
  rw [hfirst.depth] at hsecond
  have htaken := leaves_take v op [] heffect
  rw [hsecond.depth] at htaken
  exact ((hfirst.seq hsecond).seq htaken).mono fun _ _ _ _ h => ⟨_, _, h.1.1, h.1.2, h.2⟩

/-- `<` is the only operator whose operands are compiled in the other order, for there is an
instruction for `>` only. Any other operator has an instruction of its own or the compiler fails. -/
theorem infix_leaves {left right : Expr} (op : Token) (ihl : ExprLeaves left)
    (ihr : ExprLeaves right) : ExprLeaves (.infixOp left op right) := by
  intro s t r hs h
  simp only [expr] at h
  split at h
  · rename_i hop
    simp only [bind_ok, emit_ok] at h
    obtain ⟨_, u, hu, _, v, hv, rfl⟩ := h
    refine (binary_leaves hs ihr ihl hu hv rfl).mono fun _ _ _ _ h => ?_
    rwa [ExprAt, if_pos hop]
  · rename_i hop
    simp only [bind_ok, emitOperator_ok] at h
    obtain ⟨_, u, hu, _, v, hv, o, ho, rfl⟩ := h
    refine (binary_leaves hs ihl ihr hu hv (infixOp_effect ho)).mono fun _ _ _ _ h => ?_
    rw [ExprAt, if_neg hop]
    obtain ⟨m, n, hleft, hright, hat⟩ := h
    exact ⟨o, m, n, ho, hleft, hright, hat⟩

/-- One operand, and an instruction that takes it and leaves another one. -/
theorem prefix_leaves {operand : Expr} (op : Token) (ih : ExprLeaves operand) :
    ExprLeaves (.prefixOp op operand) := by
  intro s t r hs h
  simp only [expr, bind_ok, emitOperator_ok] at h
  obtain ⟨_, u, hu, o, ho, rfl⟩ := h
  have hoperand := ih hs hu
  have hop := leaves_emit (d := s.segment.depth + 1) u o [] (by
    rw [prefixOp_effect ho, hoperand.depth]
    rfl)
  exact (hoperand.seq hop).mono fun _ _ _ _ h => ⟨o, _, ho, h.1, h.2⟩

/-- Two operands in turn, as for an infix operator, with a fixed instruction behind them. -/
theorem index_leaves {left subscript : Expr} (ihl : ExprLeaves left)
    (ihs : ExprLeaves subscript) : ExprLeaves (.index left subscript) := by
  intro s t r hs h
  simp only [expr, bind_ok, emit_ok] at h
  obtain ⟨_, u, hu, _, v, hv, rfl⟩ := h
  exact binary_leaves hs ihl ihs hu hv rfl

/-- **A condition leaves one operand whichever branch is taken.** The branch that is not there
leaves `null`, by an instruction of its own; one that is there is a `branch`, which leaves the value
of its last statement or else `null`. So `cond_leaves` is used twice, with two layouts for the
second branch. -/
theorem conditional_leaves {test : Expr} {yes : List Stmt} {no : Option (List Stmt)}
    (iht : ExprLeaves test) (ihy : StmtsLaid yes) (ihn : ∀ body, no = some body → StmtsLaid body) :
    ExprLeaves (.cond test yes no) := by
  intro s t r hs h
  cases no with
  | none =>
    refine cond_leaves (fun d ending code constants exit a b =>
        StmtsAt code constants exit ending d yes a b)
      (fun _ code _ _ => OpAt code .pushNull []) hs
      (fun u hu => iht hs hu) (fun u v hu hv => ihy hu hv) (fun u v hu hv => ?_) h
    obtain rfl := emit_ok.mp hv
    exact ⟨emits_emit u .pushNull [], rfl, (leaves_emit u .pushNull [] rfl).last⟩
  | some no =>
    exact cond_leaves (fun d ending code constants exit a b =>
        StmtsAt code constants exit ending d yes a b)
      (fun d code constants exit => BranchAt code (Stmt.closingList no)
        fun ending a b => StmtsAt code constants exit ending d no a b) hs
      (fun u hu => iht hs hu) (fun u v hu hv => ihy hu hv)
      (fun u v hu hv => branch_leaves hu (fun w hw => ihn no rfl hu hw) hv) h

/-- The count of the elements is the operand of the instruction, so a layout holds only while the
count fits a word; the compiler checks that it does. -/
theorem array_leaves {elements : List Expr} (ih : ExprsLeave elements) :
    ExprLeaves (.array elements) := by
  intro s t r hs h
  simp only [expr, bind_ok, checkCount_ok, emit_ok] at h
  obtain ⟨_, u, hu, _, _, ⟨hcount, rfl⟩, rfl⟩ := h
  have helements := ih hs hu
  have hop := leaves_emit (d := s.segment.depth + 1) u .array [elements.length] (by
    simp only [helements.depth, stackEffect, Int.ofNat_eq_natCast, List.headD_cons]
    omega)
  exact (helements.seq hop).mono fun _ _ _ _ h => ⟨_, h.1, hcount, h.2⟩

/-- The same for the pairs of a hash, whose keys and values are counted together. -/
theorem hash_leaves {pairs : List (Expr × Expr)} (ih : PairsLeave pairs) :
    ExprLeaves (.hash pairs) := by
  intro s t r hs h
  simp only [expr, bind_ok, checkCount_ok, emit_ok] at h
  obtain ⟨_, u, hu, _, _, ⟨hcount, rfl⟩, rfl⟩ := h
  have hpairs := ih hs hu
  have hop := leaves_emit (d := s.segment.depth + 1) u .hash [2 * pairs.length] (by
    simp only [hpairs.depth, stackEffect, Int.ofNat_eq_natCast, List.headD_cons]
    omega)
  exact (hpairs.seq hop).mono fun _ _ _ _ h => ⟨_, h.1, hcount, h.2⟩

/-- A function expression is what `function` makes of it; the body is compiled at depth `0` of a
code of its own. -/
theorem fn_leaves {body : List Stmt} (params : List String) (ih : StmtsLaid body) :
    ExprLeaves (.fn params body) := by
  intro s t r hs h
  exact function_leaves
    (fun ending code constants exit a b => StmtsAt code constants exit ending 0 body a b)
    (fun u hu => ih (ready_inFunction s params) hu) h

/-- **A call leaves one operand**, or is a constant where the callee means `quote`. Asking for
`quote` may capture a variable of that name, so the symbols change before the callee is compiled,
and also where the call becomes a constant. -/
theorem call_leaves {callee : Expr} {args : List Expr} (ihc : ExprLeaves callee)
    (iha : ExprsLeave args) : ExprLeaves (.call callee args) := by
  intro s t r hs h
  simp only [expr, bind_ok, isQuote_ok] at h
  obtain ⟨_, _, ⟨rfl, rfl⟩, h⟩ := h
  have hsymbols := leaves_symbols hs.last (Symbols.length_outer_quotes s.symbols callee)
  rcases hquotes : s.symbols.quotes callee with ⟨quoted, symbols⟩
  rw [hquotes] at h hsymbols
  have hready : Ready (s.withSymbols symbols) := ⟨hs.last, hs.deep⟩
  -- the two kinds of call part here; `hsymbols` is the common first step of both
  cases quoted with
  | true =>
    refine (hsymbols.seq (quote_leaves hsymbols.last h)).mono fun _ _ _ _ h => ?_
    rw [ExprAt, State.point, hquotes]
    exact h.2
  | false =>
    simp only [Bool.false_eq_true, if_false, bind_ok] at h
    obtain ⟨_, u, hu, _, v, hv, h⟩ := h
    split at h
    · -- more arguments than an operand byte can count
      simp only [bind_ok] at h
      obtain ⟨_, _, h, -⟩ := h
      exact absurd h throw_ok
    · rename_i hcount
      obtain rfl := emit_ok.mp h
      have hcallee := ihc hready hu
      have hargs := iha (hcallee.ready hready (by omega)) hv
      rw [hcallee.depth] at hargs
      have hop := leaves_emit (d := s.segment.depth + 1) v .call [args.length] (by
        have hdepth : (s.withSymbols symbols).segment.depth = s.segment.depth := rfl
        simp only [hargs.depth, hdepth, stackEffect, Int.ofNat_eq_natCast, List.headD_cons]
        omega)
      refine (hsymbols.seq ((hcallee.seq hargs).seq hop)).mono fun _ _ _ _ h => ?_
      rw [ExprAt, State.point, hquotes]
      exact ⟨_, _, h.2.1.1, h.2.1.2, Nat.lt_of_not_le hcount, h.2.2⟩

/-- No expressions, no operands. -/
theorem exprs_leave_nil : ExprsLeave [] := by
  intro s t r hs h
  obtain ⟨-, rfl⟩ := pure_ok.mp h
  exact (leaves_refl hs.last).mono fun _ _ _ _ _ => rfl

/-- The rest of the expressions is compiled with one operand more below it, so its depth is
rewritten to count from the first one. -/
theorem exprs_leave_cons {e : Expr} {rest : List Expr} (ihe : ExprLeaves e)
    (ihr : ExprsLeave rest) : ExprsLeave (e :: rest) := by
  intro s t r hs h
  simp only [exprs, bind_ok] at h
  obtain ⟨_, u, hu, h⟩ := h
  have hfirst := ihe hs hu
  have hrest := ihr (hfirst.ready hs (by omega)) h
  rw [hfirst.depth, Nat.add_assoc, Nat.add_comm 1 rest.length] at hrest
  exact (hfirst.seq hrest).mono fun _ _ _ _ h => ⟨_, h.1, h.2⟩

/-- No pairs, no operands. -/
theorem pairs_leave_nil : PairsLeave [] := by
  intro s t r hs h
  obtain ⟨-, rfl⟩ := pure_ok.mp h
  exact (leaves_refl hs.last).mono fun _ _ _ _ _ => rfl

/-- The same for pairs, with the value one operand above its key and the rest two above. -/
theorem pairs_leave_cons {key value : Expr} {rest : List (Expr × Expr)} (ihk : ExprLeaves key)
    (ihv : ExprLeaves value) (ihr : PairsLeave rest) : PairsLeave ((key, value) :: rest) := by
  intro s t r hs h
  simp only [pairsOf, bind_ok] at h
  obtain ⟨_, u, hu, _, v, hv, h⟩ := h
  have hkey := ihk hs hu
  have hready := hkey.ready hs (by omega)
  have hvalue := ihv hready hv
  have hrest := ihr (hvalue.ready hready (by omega)) h
  rw [hkey.depth] at hvalue
  rw [hvalue.depth, Nat.add_assoc, Nat.add_assoc] at hrest
  refine ⟨((hkey.seq hvalue).seq hrest).emits.mono fun _ _ _ _ h => ⟨_, _, h.1.1, h.1.2, h.2⟩,
    ?_, hrest.last⟩
  rw [hrest.depth, List.length_cons]
  omega

/-! ## Statements

A statement leaves the number of operands as it was, unless it jumps out of a loop. What is shown of
each is `Laid`: its layout for every `Ending` that can be asked of it, the depth behind it, and how
its code ends. -/

/-- The value of an expression statement is dropped by a `pop`, which is the instruction that an
`Ending` may still change. -/
theorem value_laid {value : Expr} (ih : ExprLeaves value) : StmtLaid (.expr value) := by
  intro s t r hs h
  simp only [stmt, bind_ok, emit_ok] at h
  obtain ⟨_, u, hu, rfl⟩ := h
  have hvalue := ih hs hu
  refine ⟨fun ending _ => ?_, ?_, u, hvalue.last, hvalue.emits.size, rfl⟩
  · exact (hvalue.emits.ended ending).mono fun _ _ _ _ h => ⟨u.point, h.1, h.2⟩
  · rw [(leaves_take u .pop [] rfl).depth, hvalue.depth]
    rfl

/-- **The name of a function is defined before its body is compiled**, so the body can call the
function by that name. The order shows in the layout: `StmtAt` has a case of its own for a `let` of
a function. -/
theorem bind_fn_laid {body : List Stmt} (name : String) (params : List String)
    (ih : StmtsLaid body) : StmtLaid (.bind name (.fn params body)) := by
  intro s t r hs h
  simp only [stmt, bind_ok, onSymbols_ok] at h
  obtain ⟨_, _, ⟨rfl, rfl⟩, _, u, hu, h⟩ := h
  have hsymbols := leaves_symbols hs.last (Symbols.length_outer_define s.symbols name)
  have hfunction := function_leaves
    (fun ending code constants exit a b => StmtsAt code constants exit ending 0 body a b)
    (fun v hv => ih (ready_inFunction _ params) hv) hu
  obtain ⟨hleaves, hother⟩ := store_laid u.symbols (hsymbols.seq hfunction) rfl h
  exact Leaves.laid (hleaves.mono fun _ _ _ _ h => ⟨u.point, h.1.2, h.2⟩) rfl hother

/-- Any other value is compiled before its name is defined, so the value cannot mean the name that
is being bound. The lemma is about the two steps and not yet about `StmtLaid`, because `stmt` has
the same two steps for every shape of value. -/
theorem bind_value_laid {name : String} {value : Expr} {s t : State} {r : Unit}
    (hs : Ready s) (ih : ExprLeaves value)
    (h : (do expr value; store (← onSymbols (Symbols.define name)) : Compile Unit) s = .ok r t) :
    Laid s t .other false fun _ code constants exit a b =>
      ∃ m, ExprAt code constants exit s.segment.depth value a m
        ∧ StoreAt code (m.symbols.define name).1 (m.withSymbols (m.symbols.define name).2) b := by
  simp only [bind_ok, onSymbols_ok] at h
  obtain ⟨_, u, hu, _, _, ⟨rfl, rfl⟩, h⟩ := h
  obtain ⟨hleaves, hother⟩ := store_laid _ (ih hs hu) (by simp) h
  exact Leaves.laid (hleaves.mono fun _ _ _ _ h => ⟨u.point, h.1, h.2⟩) rfl hother

/-- The constructors of expressions other than `fn` are gone through once, to show that they all
take the second branch of `stmt`. -/
theorem bind_laid (name : String) {value : Expr} (ih : ExprLeaves value)
    (hvalue : ∀ params body, value ≠ .fn params body) : StmtLaid (.bind name value) := by
  intro s t r hs h
  cases value with
  | fn params body => exact absurd rfl (hvalue params body)
  | _ => exact bind_value_laid hs ih h

/-- An assignment resolves the name behind the value; a name that means nothing becomes a global. -/
theorem assign_laid (name : String) {value : Expr} (ih : ExprLeaves value) :
    StmtLaid (.assign name value) := by
  intro s t r hs h
  simp only [stmt, bind_ok, resolve_ok] at h
  obtain ⟨_, u, hu, _, _, ⟨rfl, rfl⟩, h⟩ := h
  obtain ⟨hleaves, hother⟩ := store_laid _ (ih hs hu) (by simp) h
  exact Leaves.laid (hleaves.mono fun _ _ _ _ h => ⟨u.point, h.1, h.2⟩) rfl hother

/-- A `return` ends with an instruction that the end of a function recognises, so its closing is
`returned`. -/
theorem ret_laid {value : Expr} (ih : ExprLeaves value) : StmtLaid (.ret value) := by
  intro s t r hs h
  simp only [stmt, bind_ok, emit_ok] at h
  obtain ⟨_, u, hu, rfl⟩ := h
  have hvalue := ih hs hu
  have htaken := leaves_take u .returnValue [] rfl
  rw [hvalue.depth, Nat.add_sub_cancel] at htaken
  refine ⟨fun ending hending => ?_, ?_, ⟨.returnValue, u.segment.code.size⟩, rfl, rfl, ?_⟩
  · obtain rfl : ending = .drop := by simpa [Stmt.closing] using hending
    exact (hvalue.emits.seq htaken.emits).mono fun _ _ _ _ h => ⟨u.point, h.1, h.2⟩
  · rw [htaken.depth]
    rfl
  · exact htaken.last ⟨.returnValue, u.segment.code.size⟩ rfl

/-- A block is its statements between entering and leaving a block of symbols, with the same
closing, for neither of these emits anything. -/
theorem block_laid {body : List Stmt} (ih : StmtsLaid body) : StmtLaid (.block body) := by
  intro s t r hs h
  obtain ⟨u, hu, rfl⟩ := inBlock_ok.mp h
  have hready : Ready (s.withSymbols s.symbols.enterBlock) := ⟨hs.last, hs.deep⟩
  have hlaid : Laid (s.withSymbols s.symbols.enterBlock) u (Stmt.closingList body)
      (Stmt.exitsAny body) fun ending code constants exit a b =>
        StmtsAt code constants exit ending s.segment.depth body a b := ih hready hu
  exact hlaid.inBlock hs.last

/-- **A loop drops its value like an expression statement.** Its symbols are a block's, although no
statement of the syntax opens one. The depth of its body is the one behind `init`, which
`Stmt.depthAfter` gives; the depth behind the loop is that of the body again, so a jump in `init` or
`post` is still felt there. -/
theorem loop_laid {init post : Stmt} {test : Expr} {body : List Stmt} (ihi : StmtLaid init)
    (iht : ExprLeaves test) (ihp : StmtLaid post) (ihb : StmtsLaid body) :
    StmtLaid (.loop init test post body) := by
  intro s t r hs h
  obtain ⟨u, hu, rfl⟩ := inBlock_ok.mp h
  have hready : Ready (s.withSymbols s.symbols.enterBlock) := ⟨hs.last, hs.deep⟩
  obtain ⟨w, d, hd, hsize, rfl, hleaves⟩ := loop_leaves
    (fun ending code constants exit a b =>
      StmtAt code constants exit ending s.segment.depth init a b)
    (fun d ending code constants exit a b => StmtsAt code constants exit ending d body a b)
    (fun d ending code constants exit a b => StmtAt code constants exit ending d post a b)
    (fun d code constants exit a b => ExprAt code constants exit d test a b) hready
    (fun v hv => ihi hready hv) (fun v x hv hx => iht hv hx)
    (fun v x hv hx => ihb hv hx) (fun v x hv hx => ihp hv hx) hu
  have henter := (leaves_symbols hs.last (Symbols.length_outer_enterBlock s.symbols)).emits
  have hleave : Emits w (w.withSymbols w.symbols.leaveBlock) fun _ _ _ => True :=
    emits_same rfl rfl rfl rfl rfl
  have hemits := henter.seq (hleaves.emits.seq hleave)
  -- first the layout for each ending, then the depth behind the loop
  refine ⟨fun ending _ => ?_, ?_, w, hleaves.last, hsize, rfl⟩
  · refine (hemits.ended ending).mono fun code constants exit hexit h => ?_
    obtain ⟨⟨-, hloop, -⟩, hend⟩ := h
    have hdepth : init.depthAfter exit s.segment.depth = d := by
      rw [Stmt.depthAfter, hexit, hd]
      rfl
    rw [StmtAt, hdepth]
    exact ⟨w.point, hloop, hend⟩
  · have hpop := (leaves_take w .pop [] rfl).depth
    have hloop : (s.withSymbols s.symbols.enterBlock).loopDepth = s.loopDepth := rfl
    show (w.emit .pop []).segment.depth = _
    rw [hpop, hleaves.depth, Nat.add_sub_cancel, hd, hloop, Stmt.exits]
    cases init.exits <;> cases post.exits <;> cases s.loopDepth <;> rfl

/-- A `break` drops the operands that the loop does not know of and jumps behind the loop. Outside
of a loop the compiler refuses it. -/
theorem breakLoop_laid : StmtLaid .breakLoop := by
  intro s t r hs h
  simp only [stmt, bind_ok] at h
  obtain ⟨jump, u, hu, h⟩ := h
  cases jump with
  | none => exact absurd h throw_ok
  | some jump =>
    obtain rfl := onSegment_ok.mp h
    exact loopExit_laid true hs hu

/-- A `continue` is the same jump to another place. -/
theorem continueLoop_laid : StmtLaid .continueLoop := by
  intro s t r hs h
  simp only [stmt, bind_ok] at h
  obtain ⟨jump, u, hu, h⟩ := h
  cases jump with
  | none => exact absurd h throw_ok
  | some jump =>
    obtain rfl := onSegment_ok.mp h
    exact loopExit_laid false hs hu

/-- No statements: no code, and nothing about the state has changed. -/
theorem stmts_laid_nil : StmtsLaid [] := by
  intro s t r hs h
  obtain ⟨-, rfl⟩ := pure_ok.mp h
  refine ⟨fun ending hending => ?_, rfl, rfl⟩
  obtain rfl : ending = .drop := by simpa [Stmt.closingList] using hending
  exact (Emits.refl s).mono fun _ _ _ _ _ => rfl

/-- The first statement has the ending only if the rest has no code. So its `Laid` is used at
another ending in each of the two cases, which is why `Laid` speaks of every ending at once. -/
theorem stmts_laid_cons {st : Stmt} {rest : List Stmt} (ihs : StmtLaid st)
    (ihr : StmtsLaid rest) : StmtsLaid (st :: rest) := by
  intro s t r hs h
  simp only [stmts, bind_ok] at h
  obtain ⟨_, u, hu, h⟩ := h
  have hfirst := ihs hs hu
  exact hfirst.cons (ihr (hfirst.ready hs) h)

/-! ## The recursion of the compiler

The five statements are proved together by structural recursion on the syntax. All that happens here
is that a constructor names its lemma and hands it the induction hypotheses; a change to one
construct of the language is a change to one lemma above and to the line that names it. -/

mutual

/-- **The code of an expression is laid out as the expression**, and leaves one operand. -/
theorem expr_leaves : (e : Expr) → ExprLeaves e
  | .int _ | .float _ | .str _ => fun hs h => emitConstant_leaves hs.last h
  | .bool v => boolean_leaves v
  | .ident name => ident_leaves name
  | .infixOp left op right => infix_leaves op (expr_leaves left) (expr_leaves right)
  | .prefixOp op operand => prefix_leaves op (expr_leaves operand)
  | .cond test yes none =>
    conditional_leaves (expr_leaves test) (stmts_laid yes) fun _ h => absurd h (by simp)
  | .cond test yes (some no) =>
    conditional_leaves (expr_leaves test) (stmts_laid yes) fun _ h =>
      Option.some.inj h ▸ stmts_laid no
  | .array elements => array_leaves (exprs_leaves elements)
  | .hash pairs => hash_leaves (pairs_leaves pairs)
  | .index left subscript => index_leaves (expr_leaves left) (expr_leaves subscript)
  | .fn params body => fn_leaves params (stmts_laid body)
  | .call callee args => call_leaves (expr_leaves callee) (exprs_leaves args)

/-- Recursion on the list, in step with `exprs`. -/
theorem exprs_leaves : (es : List Expr) → ExprsLeave es
  | [] => exprs_leave_nil
  | e :: rest => exprs_leave_cons (expr_leaves e) (exprs_leaves rest)

/-- Recursion on the list, in step with `pairsOf`. -/
theorem pairs_leaves : (pairs : List (Expr × Expr)) → PairsLeave pairs
  | [] => pairs_leave_nil
  | (key, value) :: rest =>
    pairs_leave_cons (expr_leaves key) (expr_leaves value) (pairs_leaves rest)

/-- **The code of a statement is laid out as the statement.** -/
theorem stmt_laid : (st : Stmt) → StmtLaid st
  | .expr value => value_laid (expr_leaves value)
  | .bind name value => by
    have ih : ExprLeaves value := expr_leaves value
    cases value with
    | fn params body => exact bind_fn_laid name params (stmts_laid body)
    | _ => exact bind_laid name ih (by simp)
  | .assign name value => assign_laid name (expr_leaves value)
  | .ret value => ret_laid (expr_leaves value)
  | .block body => block_laid (stmts_laid body)
  | .loop init test post body =>
    loop_laid (stmt_laid init) (expr_leaves test) (stmt_laid post) (stmts_laid body)
  | .breakLoop => breakLoop_laid
  | .continueLoop => continueLoop_laid

/-- Recursion on the list, in step with `stmts`. -/
theorem stmts_laid : (body : List Stmt) → StmtsLaid body
  | [] => stmts_laid_nil
  | st :: rest => stmts_laid_cons (stmt_laid st) (stmts_laid rest)

end

/-! ## Programs

The recursion is applied to a whole program, from the state in which the compiler starts. Two things
are known there that are not known of a part: no jump waits for its target any longer, for outside
of a loop none is noted, and the table of symbols is not nested in that of another function. -/

/-- Nothing has been emitted and no loop is open. -/
theorem ready_initial (table : BuiltinTable) : Ready (.initial table) where
  last _ hl := absurd hl (by simp [State.initial, Segment.empty])
  deep _ hd := absurd hd (by simp [State.initial, Segment.empty, State.loopDepth])

/-- **The code of a program is laid out as the program**, from the symbols of the built-in functions
to those at the end of the compilation. The layout is asked for in the finished code itself: nothing
is patched any more, so `Emits` is taken at that code and its own constants. -/
theorem extend_laid {table : BuiltinTable} {prog : Program} {state : State}
    (h : extend prog (.initial table) = (.ok (), state)) :
    state.executable.globals = state.symbols.globals ∧ state.symbols.outer = []
      ∧ StmtsAt state.executable.code state.executable.constants none .drop 0 prog
        ⟨0, .ofBuiltins (table.map Builtin.name), 0⟩
        ⟨state.executable.code.size, state.symbols, state.executable.constants.size⟩ := by
  unfold extend at h
  split at h
  · rename_i t hstmts
    cases h
    -- `hlays` holds in every code that `Finished` accepts; the last line shows that the code itself
    -- is one
    obtain ⟨jumps, hgrows, hlays⟩ :=
      (stmts_laid prog (ready_initial table) hstmts).emits .drop (.inl rfl)
    obtain rfl : jumps = [] := hgrows.closed rfl
    have houter : state.symbols.outer = [] := by
      have := hgrows.nested
      rw [State.initial, Symbols.outer_ofBuiltins] at this
      exact List.length_eq_zero_iff.mp this
    refine ⟨?_, houter, ?_⟩
    · simp [State.executable, Symbols.ownGlobals, Symbols.atTopLevel, houter]
    · exact hlays state.segment.code state.constants 0 0 ⟨fun _ _ _ _ => rfl,
        List.prefix_refl _, fun _ hj => absurd hj (by simp), fun _ hj => absurd hj (by simp)⟩
  · cases h

/-- The same for `program`, which is a single call of `extend`. The position and the constants at
the start are zero, and those at the end are the sizes of what the compiler returns. -/
theorem program_laid {table : BuiltinTable} {prog : Program} {exe : Executable}
    (h : program table prog = .ok exe) :
    ∃ symbols : Symbols, exe.globals = symbols.globals ∧ symbols.outer = []
      ∧ StmtsAt exe.code exe.constants none .drop 0 prog
        ⟨0, .ofBuiltins (table.map Builtin.name), 0⟩
        ⟨exe.code.size, symbols, exe.constants.size⟩ := by
  unfold Compilation.program at h
  split at h
  · rename_i state hstate
    cases h
    exact ⟨state.symbols, extend_laid hstate⟩
  · cases h

end Scriptlet.Compilation
