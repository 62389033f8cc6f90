import Scriptlet.Proofs.Layout.Compiled
import Scriptlet.Proofs.Sessions.Kept

/-!
# What the compiler keeps

`stmts_steps`: compiling any part of a program keeps what was there before, whether it succeeds or
fails, and it fails on a jump out of a loop only if one strays.

One lemma for each combinator of the compiler takes what is known of the parts as a hypothesis, and
the mutual recursion at the end follows that of the compiler. The point of each combinator is what
it does on the way back. A block, a loop and a function change the nesting, and undo it on every
outcome (`followedBy`); the lemmas on going back say that undoing the change in front and keeping
what the body keeps come to keeping it from outside.
-/

namespace Scriptlet.Compilation

/-! ## Going back from a part

A function, a block or the body of a loop is compiled in a state of its own; behind it the nesting
is what it was before, on every outcome. -/

section Back

variable {α : Type} {n n' : Nat} {s s' t : State} {quoted : Bool}

/-- A step with a change of the state behind it. -/
theorem compiles_followedBy {x : Compile α} {change : State → State} {strays : LoopJump → Bool}
    (h : Compiles n' s' quoted strays (x s')) (hchange : ∀ t, Kept n' s' t → Kept n s (change t)) :
    Compiles n s quoted strays (followedBy x change s') := by
  unfold followedBy
  cases hx : x s' with
  | ok a t =>
    rw [hx] at h
    exact ⟨hchange t h.1, h.2⟩
  | error error t =>
    rw [hx] at h
    exact ⟨hchange t h.1, h.2⟩

theorem Kept.leaveBlock (h : Kept n (s.withSymbols s.symbols.enterBlock) t) :
    Kept n s (t.withSymbols t.symbols.leaveBlock) where
  enclosing := h.enclosing
  nesting := by
    have hnesting := h.nesting
    obtain ⟨constants, ⟨⟨blocks, level, slots, captured⟩, outer, globals⟩, segment, enclosing,
      fresh⟩ := t
    simp only [State.withSymbols, Symbols.enterBlock, Symbols.nesting_mk, List.length_cons,
      List.cons.injEq] at hnesting
    show blocks.tail.length :: outer.map _ = s.symbols.table.blocks.length :: s.symbols.outer.map _
    rw [List.length_tail, hnesting.1, hnesting.2, Nat.add_sub_cancel]
  constants := h.constants
  issued := h.issued
  globals := h.globals
  named hs := (h.named hs.enterBlock).leaveBlock
  size := h.size
  code := h.code
  loops := h.loops

theorem Kept.closeLoop (h : Kept n (s.mapSegment Segment.openLoop) t) :
    Kept n s (t.mapSegment Segment.closeLoop) where
  enclosing := h.enclosing
  nesting := h.nesting
  constants := h.constants
  issued := h.issued
  globals := h.globals
  named := h.named
  size := h.size
  code := h.code
  loops := by
    obtain ⟨jumps, -, hloops⟩ := h.loops
    refine ⟨[], by simp, ?_⟩
    show t.segment.loops.tail = _
    rw [hloops, addJumps_nil]
    rfl

/-- A function has a segment of its own; that of the function around it waits unchanged. -/
theorem Kept.leaveFunction (hn : n ≤ s.segment.code.size) (h : Kept 0 (s.inFunction []) t) :
    Kept n s (leaveFunction t) := by
  have henclosing := h.enclosing
  have hnesting := h.nesting
  obtain ⟨constants, ⟨table, outer, globals⟩, segment, enclosing, fresh⟩ := t
  obtain rfl : enclosing = s.segment :: s.enclosing := henclosing
  rw [Symbols.nesting_mk] at hnesting
  cases outer with
  | nil => exact absurd hnesting (by simp [State.inFunction, Symbols.nesting, Symbols.tables,
      Symbols.enterFunction, Symbols.defineAll])
  | cons next outer =>
    exact {
      enclosing := rfl
      nesting := (List.cons.inj hnesting).2
      constants := h.constants
      issued := h.issued
      globals := h.globals
      named := h.named
      size := hn
      code := fun _ _ => rfl
      loops := ⟨[], by simp, (addJumps_nil _).symm⟩ }

end Back

/-! ## Combinators

The booleans follow the syntax: whether a part may be quoted is a disjunction over the parts, and
which jumps stray is one too, with `true` for the body of a loop and `false` for that of a
function. -/

section Combinators

variable {α β : Type} {m : Nat} {quoted quoted' : Bool} {strays strays' : LoopJump → Bool → Bool}

theorem steps_inBlock {body : Compile Unit} (h : Steps m body quoted strays) :
    Steps m (inBlock body) quoted strays := fun n s hm hn =>
  compiles_followedBy (h n (s.withSymbols s.symbols.enterBlock) hm hn) fun _ => Kept.leaveBlock

/-- The value of a branch may be taken back, but nothing that stands before the branch. -/
theorem steps_branch {body : Compile Unit} (h : Steps m body quoted strays) :
    Steps m (branch body) quoted strays := by
  refine steps_position fun start m' hm' hstart => (h.mono hm').then fun _ n s hm hn => ?_
  show Compiles n s _ _ ((if s.segment.lastIs .pop start then onSegment Segment.removeLastPop
    else emit .pushNull []) s)
  split
  · rename_i hlast
    exact ⟨kept_removeLastPop hn (Nat.le_trans hm hstart) hlast, by simp⟩
  · exact plain_emit _ _ n s hm hn

theorem plain_emitPops (count : Nat) : Plain m (emitPops count) := by
  induction count with
  | zero => exact plain_pure ()
  | succ count ih => exact Steps.after (fun _ => ih) (plain_emit .pop [])

theorem plain_loopExit : Plain m loopExit := by
  refine steps_get fun s => ?_
  cases s.segment.loops with
  | nil => exact plain_pure none
  | cons loop loops =>
    refine Steps.after (fun depth => Steps.after (fun _ => ?_) (plain_emitPops _)) plain_depth
    exact steps_emitJump _ fun _ _ _ _ => plain_pure _

/-- There is no loop to leave only where none is open, which is when a jump strays. -/
theorem loopExit_none {s t : State} (h : loopExit s = .ok none t) : s.inLoop = false := by
  unfold loopExit at h
  simp only [bind_ok, get_ok] at h
  obtain ⟨_, _, ⟨rfl, rfl⟩, h⟩ := h
  cases hloops : s.segment.loops with
  | nil =>
    rw [State.inLoop, hloops]
    rfl
  | cons loop loops =>
    simp only [hloops, bind_ok, pure_ok] at h
    obtain ⟨_, _, _, _, _, _, _, _, _, hsome, -⟩ := h
    exact absurd hsome (by simp)

/-- A jump out of the innermost loop, which strays where there is none. -/
theorem steps_exit (kind : LoopJump) :
    Steps m (do
      match ← loopExit with
      | some jump => onSegment (Segment.onLoop (LoopContext.add [⟨jump, kind = .breaks⟩]))
      | none => throw kind.error) false fun jump inLoop => jump = kind && !inLoop := by
  intro n s hm hn
  refine (plain_loopExit n s hm hn).after fun exit t h ht => ?_
  cases exit with
  | none =>
    refine ⟨.refl ht.size, fun jump hjump => ?_⟩
    rw [loopExit_none h]
    cases kind <;> cases jump <;> cases hjump <;> rfl
  | some jump =>
    obtain ⟨loop, loops, u, hloops, hpops, rfl, rfl⟩ := loopExit_ok h
    have hu := plain_emitPops (s.segment.depth - loop.depth) n s hm hn
    rw [hpops] at hu
    refine ⟨kept_openJump ht.size hu.1.size, ?_⟩
    simp [State.inLoop, hloops]

/-- **The body of a loop.** It is compiled with one more loop open, so that its own jumps do not
stray, and closed again behind it. The jumps that leave it are handed over to be patched. They stand
behind what was there before, because the loop was opened without any. -/
theorem steps_loopBody {body : Compile Unit} {f : LoopContext → Compile β}
    (hbody : Steps m body quoted strays)
    (hf : ∀ jumps m', m' ≤ m → (∀ j ∈ jumps.breaks ++ jumps.continues, m' ≤ j) →
      Steps m' (f jumps) quoted' strays') :
    Steps m (loopBody body >>= f) (quoted || quoted')
      fun jump inLoop => strays jump true || strays' jump inLoop := by
  intro n s hm hn
  have hinside := hbody n (s.mapSegment Segment.openLoop) hm hn
  have hinner : Steps m (do
      body
      return (← get).segment.loops.headD ⟨0, [], []⟩) quoted strays :=
    hbody.then fun _ => steps_get fun _ => plain_pure _
  refine Compiles.bind ?_ fun jumps t h ht => ?_
  · exact compiles_followedBy (hinner n (s.mapSegment Segment.openLoop) hm hn)
      fun _ => Kept.closeLoop
  · rw [← ht.inLoop]
    obtain ⟨v, hv, rfl, rfl⟩ := loopBody_ok h
    rw [hv] at hinside
    -- the loop was opened without jumps, so that those it has now were left open in its body
    obtain ⟨opened, hopened, hloops⟩ := hinside.1.loops
    refine hf _ n hm (fun j hj => ?_) n _ (Nat.le_refl n) ht.size
    have hjumps : v.segment.loops.headD ⟨0, [], []⟩
        = (LoopContext.mk s.segment.depth [] []).add opened := by
      rw [hloops]
      rfl
    rw [hjumps] at hj
    obtain ⟨o, ho, rfl⟩ : ∃ o ∈ opened, o.position = j := by
      simp only [LoopContext.add, List.append_nil, List.mem_append, List.mem_map,
        List.mem_filter] at hj
      rcases hj with ⟨o, ⟨ho, -⟩, hposition⟩ | ⟨o, ⟨ho, -⟩, hposition⟩ <;>
        exact ⟨o, ho, hposition⟩
    exact hopened o ho

/-- **A loop.** Only its body is compiled with a loop of its own open. The jumps of its other parts
concern the loop around it, if there is one. -/
theorem steps_loop {init test post body : Compile Unit} {qi qt qp qb : Bool}
    {si st sp sb : LoopJump → Bool → Bool} (hinit : Steps m init qi si) (htest : Steps m test qt st)
    (hpost : Steps m post qp sp) (hbody : Steps m body qb sb) :
    Steps m (loop init test post body) (qi || qt || qp || qb) fun jump inLoop =>
      si jump inLoop || st jump inLoop || sp jump inLoop || sb jump true := by
  -- in the order of the code, where the body stands before the third part
  have hloop : Steps m (loop init test post body) (qi || (qt || (qb || qp))) fun jump inLoop =>
      si jump inLoop || (st jump inLoop || (sb jump true || sp jump inLoop)) := by
    refine hinit.bind fun _ => Steps.after (fun start => ?_) plain_position
    refine htest.bind fun _ => steps_emitJump _ fun leave m' hm' hleave => ?_
    refine steps_loopBody (hbody.mono hm') fun jumps m'' hm'' hjumps => ?_
    have hbreaks : ∀ j ∈ jumps.breaks.reverse, m'' ≤ j := fun j hj =>
      hjumps j (List.mem_append_left _ (List.mem_reverse.mp hj))
    have hcontinues : ∀ j ∈ jumps.continues.reverse, m'' ≤ j := fun j hj =>
      hjumps j (List.mem_append_right _ (List.mem_reverse.mp hj))
    refine Steps.after (fun next => ?_) plain_position
    refine (hpost.mono (Nat.le_trans hm'' hm')).then fun _ => ?_
    refine Steps.after (fun _ => ?_) (plain_checkTarget start)
    refine Steps.after (fun _ => ?_) (plain_emit _ _)
    refine Steps.after (fun after => ?_) plain_position
    refine Steps.after (fun _ => ?_) (plain_patch after (Nat.le_trans hm'' hleave))
    refine Steps.after (fun _ => ?_) (plain_patchAll after hbreaks)
    refine Steps.after (fun _ => ?_) (plain_patchAll next hcontinues)
    exact Steps.after (fun _ => plain_emit _ _) (plain_emit _ _)
  refine hloop.cast ?_ fun jump inLoop => ?_
  all_goals
    rw [Bool.or_assoc, Bool.or_assoc]
    simp only [Bool.or_comm]

/-- **A function is compiled into a segment of its own**, outside of all loops. That segment is
empty at the start, so nothing is to be kept in it: the bound is `0`, and whatever the bound is
outside, it is met there. -/
theorem steps_functionCode {params : List String} {body : Compile Unit}
    (h : Steps 0 body quoted strays) :
    Steps m (functionCode params body) quoted fun jump _ => strays jump false := by
  -- the parameters are defined first, behind them stands the body, and the last value is returned
  have hparams : Plain 0 (params.forM fun param => do
      let _ ← onSymbols (Symbols.define param)) :=
    plain_forM fun param _ => Steps.after (fun _ => plain_pure ()) (plain_define param)
  have hreturn : Plain 0 (onSegment Segment.returnLastPop) := by
    intro n t hn _
    refine ⟨kept_segment (by omega) (by omega) ?_, by simp⟩
    obtain ⟨_, _, ⟨_, last, _, _, _⟩, _, _⟩ := t
    cases last <;> rfl
  have hresult : Plain 0 (do
      if !(← get).segment.lastIs .returnValue 0 then emit .returnNull []
      let state ← get
      return (state.segment.code, state.symbols.slots, state.symbols.captured)) := by
    refine steps_get fun t => ?_
    dsimp only
    split
    · exact Steps.after (fun _ => steps_get fun _ => plain_pure _) (plain_emit _ _)
    · exact steps_get fun _ => plain_pure _
  have hinner : Steps 0 (do
      params.forM fun param => do
        let _ ← onSymbols (Symbols.define param)
      body
      if (← get).segment.lastIs .pop 0 then onSegment Segment.returnLastPop
      if !(← get).segment.lastIs .returnValue 0 then emit .returnNull []
      let state ← get
      return (state.segment.code, state.symbols.slots, state.symbols.captured)) quoted strays := by
    refine Steps.after (fun _ => h.then fun _ => steps_get fun t => ?_) hparams
    dsimp only
    split
    · exact Steps.after (fun _ => hresult) hreturn
    · exact hresult
  exact fun n s _ hn => compiles_followedBy
    (hinner 0 (s.inFunction []) (Nat.le_refl 0) (Nat.zero_le _)) fun t => Kept.leaveFunction hn

theorem steps_function {params : List String} {body : Compile Unit}
    (h : Steps 0 body quoted strays) :
    Steps m (function params body) quoted fun jump _ => strays jump false := by
  refine (steps_functionCode h).then fun ⟨code, locals, captured⟩ => ?_
  have hclosure : Plain m (do
      let id ← identity
      let index ← addConstant
        (.compiled id ⟨code, locals, params.length, captured.map captureOf⟩)
      emit .closure [index, captured.length]) :=
    steps_issue (fun id => .compiled id ⟨code, locals, params.length, captured.map captureOf⟩)
      (fun _ => trivial) (fun _ => rfl) fun _ => plain_emit _ _
  dsimp only
  split
  · exact plain_throw_bind
  · split
    · exact plain_throw_bind
    · exact hclosure

theorem plain_quote (args : List Expr) : Plain m (quote args) := by
  unfold quote
  split
  · rename_i e
    exact steps_issue (fun id => .quote id e) (fun _ => trivial) (fun _ => rfl)
      fun _ => plain_emit _ _
  · exact plain_throw

/-- Where arguments may be quoted, nothing is said about the jumps inside of them. -/
theorem steps_unlessQuote {callee : Expr} {x y : Compile β} (hx : Plain m x)
    (hy : Steps m y quoted strays) (hquoted : callee = .ident "quote" → quoted = true) :
    Steps m (do if ← isQuote callee then x else y) quoted strays := by
  by_cases hcallee : callee = .ident "quote"
  · subst hcallee
    refine Steps.after (fun isQuote => ?_)
      (Steps.after (fun _ => plain_pure _) (plain_resolveOnly _))
    cases isQuote with
    | true => exact hx.imp (by simp) (by simp) fun _ _ _ => .inr (hquoted rfl)
    | false => exact hy
  · rw [isQuote_eq hcallee]
    exact hy

/-- In a condition only jumps of its own are sent to their targets. -/
theorem steps_cond {test yes no : Compile Unit} {qt qy qn : Bool}
    {st sy sn : LoopJump → Bool → Bool} (htest : Steps m test qt st) (hyes : Steps m yes qy sy)
    (hno : Steps m no qn sn) :
    Steps m (do
      test
      let toNo ← emitJump .jumpNotTruthy
      let depth ← depth
      branch yes
      let toEnd ← emitJump .jump
      patch toNo (← position)
      onSegment (Segment.setDepth depth)
      no
      patch toEnd (← position)
      onSegment (Segment.setDepth (depth + 1)) : Compile Unit) (qt || (qy || qn))
      fun jump inLoop => st jump inLoop || (sy jump inLoop || sn jump inLoop) := by
  refine htest.bind fun _ => steps_emitJump _ fun toNo m' hm' htoNo => ?_
  refine Steps.after (fun depth => ?_) plain_depth
  refine (steps_branch (hyes.mono hm')).bind fun _ => ?_
  refine steps_emitJump _ fun toEnd m'' hm'' htoEnd => ?_
  refine Steps.after (fun no' => ?_) plain_position
  -- the jump that is patched was emitted in this condition
  refine Steps.after (fun _ => ?_) (plain_patch no' (Nat.le_trans hm'' htoNo))
  refine Steps.after (fun _ => ?_) (plain_setDepth depth)
  refine (hno.mono (Nat.le_trans hm'' hm')).then fun _ => ?_
  refine Steps.after (fun end' => ?_) plain_position
  exact Steps.after (fun _ => plain_setDepth (depth + 1)) (plain_patch end' htoEnd)

end Combinators

/-! ## Programs -/

/-- **The name of a function is defined before its value is compiled**, any other name behind it.
For what is kept that is the same. -/
theorem steps_bind {name : String} {value : Expr} {m : Nat} {quoted : Bool}
    {strays : LoopJump → Bool → Bool} (hvalue : Steps m (expr value) quoted strays) :
    Steps m (stmt (.bind name value)) quoted strays := by
  have hbehind : Steps m (do
      expr value
      let symbol ← onSymbols (Symbols.define name)
      store symbol) quoted strays :=
    hvalue.then fun _ => Steps.after plain_store (plain_define name)
  cases value with
  | fn params body =>
    simp only [stmt]
    exact Steps.after (fun symbol => hvalue.then fun _ => plain_store symbol) (plain_define name)
  | _ => exact hbehind

-- `m` is not fixed: the body of a function is compiled into empty code, where `m` is 0 again.
/-! ## Programs by their syntax

The recursion has the bound `m` as an argument of its own, because functions need the bound `0` for
their bodies and every other part that of the whole. -/

mutual

/-- **Compiling an expression keeps what was there.** The order of operands plays no part here, so
`<`, which is compiled with its operands exchanged, differs only in the disjunctions. -/
theorem expr_steps : (e : Expr) → ∀ m : Nat, Steps m (expr e) (e.mentions "quote")
    fun jump inLoop => e.strays jump inLoop
  | .int _, m | .float _, m | .str _, m => plain_emitConstant trivial rfl
  | .bool _, m => plain_emit _ _
  | .ident name, m => (Steps.after plain_load (plain_resolve name)).weaken (by simp)
  | .infixOp left op right, m => by
    have hleft := expr_steps left m
    have hright := expr_steps right m
    unfold expr
    split
    -- `left < right` is compiled as `right > left`
    · exact (hright.bind fun _ => hleft.then fun _ => plain_emit _ _).cast (Bool.or_comm ..)
        fun _ _ => Bool.or_comm ..
    · exact hleft.bind fun _ => hright.then fun _ => plain_emitOperator _ _
  | .prefixOp op operand, m => (expr_steps operand m).then fun _ => plain_emitOperator _ _
  | .cond test yes no, m => by
    have hyes := stmts_steps yes m
    cases no with
    | none =>
      exact (steps_cond (expr_steps test m) hyes (plain_emit _ _)).cast (Bool.or_assoc ..).symm
        fun _ _ => (Bool.or_assoc ..).symm
    | some no =>
      exact (steps_cond (expr_steps test m) hyes (steps_branch (stmts_steps no m))).cast
        (Bool.or_assoc ..).symm fun _ _ => (Bool.or_assoc ..).symm
  | .array elements, m => (exprs_steps elements m).then fun _ =>
      Steps.after (fun _ => plain_emit _ _) (plain_checkCount _)
  | .hash pairs, m => (pairs_steps pairs m).then fun _ =>
      Steps.after (fun _ => plain_emit _ _) (plain_checkCount _)
  | .index left subscript, m =>
    (expr_steps left m).bind fun _ => (expr_steps subscript m).then fun _ => plain_emit _ _
  | .fn params body, m =>
    (steps_function (stmts_steps body 0)).weaken fun h => by rw [Expr.mentions, h, Bool.or_true]
  | .call callee args, m => by
    have hcall : Steps m (do
        expr callee
        exprs args
        if maxLocals ≤ args.length then throw (.tooManyArguments args.length)
        emit .call [args.length]) (callee.mentions "quote" || Expr.mentionsAny "quote" args)
        fun jump inLoop => callee.strays jump inLoop || Expr.straysAny jump inLoop args := by
      refine (expr_steps callee m).bind fun _ => (exprs_steps args m).then fun _ => ?_
      dsimp only
      split
      · exact plain_throw_bind
      · exact plain_emit _ _
    refine steps_unlessQuote (plain_quote args) hcall ?_
    rintro rfl
    rw [Expr.mentions, Expr.mentions, beq_self_eq_true, Bool.true_or]

theorem exprs_steps : (es : List Expr) → ∀ m : Nat, Steps m (exprs es)
    (Expr.mentionsAny "quote" es) fun jump inLoop => Expr.straysAny jump inLoop es
  | [], _ => plain_pure ()
  | e :: rest, m => (expr_steps e m).bind fun _ => exprs_steps rest m

theorem pairs_steps : (pairs : List (Expr × Expr)) → ∀ m : Nat, Steps m (pairsOf pairs)
    (Expr.mentionsPairs "quote" pairs) fun jump inLoop => Expr.straysPairs jump inLoop pairs
  | [], _ => plain_pure ()
  | (key, value) :: rest, m =>
    ((expr_steps key m).bind fun _ => (expr_steps value m).bind fun _ => pairs_steps rest m).cast
      (Bool.or_assoc ..).symm fun _ _ => (Bool.or_assoc ..).symm

theorem stmt_steps : (st : Stmt) → ∀ m : Nat, Steps m (stmt st) (st.mentions "quote")
    fun jump inLoop => st.strays jump inLoop
  | .expr value, m | .ret value, m => (expr_steps value m).then fun _ => plain_emit _ _
  | .bind name value, m => (steps_bind (expr_steps value m)).weaken fun h => by
    rw [Stmt.mentions, h, Bool.or_true]
  | .assign name value, m =>
    ((expr_steps value m).then fun _ => Steps.after plain_store (plain_resolve name)).weaken
      fun h => by rw [Stmt.mentions, h, Bool.or_true]
  | .block body, m => steps_inBlock (stmts_steps body m)
  | .loop init test post body, m => steps_inBlock
    (steps_loop (stmt_steps init m) (expr_steps test m) (stmt_steps post m) (stmts_steps body m))
  | .breakLoop, m => steps_exit .breaks
  | .continueLoop, m => steps_exit .continues

/-- **Compiling statements keeps what was there**, and complains about a jump only if one strays. -/
theorem stmts_steps : (body : List Stmt) → ∀ m : Nat, Steps m (stmts body)
    (Stmt.mentionsAny "quote" body) fun jump inLoop => Stmt.straysAny jump inLoop body
  | [], _ => plain_pure ()
  | st :: rest, m => (stmt_steps st m).bind fun _ => stmts_steps rest m

end

end Scriptlet.Compilation
