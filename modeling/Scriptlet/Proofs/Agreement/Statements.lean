import Scriptlet.Proofs.Agreement.Expressions
import Scriptlet.Proofs.Evaluation.Effects

/-!
# Statements in both backends

One lemma for each kind of statement, as for expressions. A `let` in a loop is followed by itself
(`DirectFollows`), since it changes what is bound in the loop; `BodyFollows` goes through the body
of a loop with the names that are still to be bound, and `IterateFollows` around the loop.

What is new here in comparison with expressions is the ending. The last statement of a branch keeps
its value on the stack, where all others drop it, and `Ended` says for each closing where the value
is afterwards.
-/

namespace Scriptlet

open Evaluation
open Machine (TopLevel)

/-! ## Statements that are never left by their end

A statement that diverts jumps or returns whatever happens. Behind it the count of operands may be
wrong, but nothing behind it is reached: its evaluation never has a value. -/

mutual

/-- A statement that diverts has no value. Induction on the statement; a block diverts if one of its
statements does. -/
theorem Evaluation.stmt_diverts {table : BuiltinTable} : (s : Stmt) → s.diverts →
    ∀ {fuel : Nat} {env : Env} {world world' : World} {value : Value},
      stmt table fuel env s world ≠ .ok value world'
  | _, _, 0, _, _, _, _ => throw_ne_ok
  | .breakLoop, _, fuel + 1, env, world, world', value => fun h => by
    rw [stmt] at h
    obtain ⟨w, world₁, -, h⟩ := bind_eq_ok h
    split at h <;> exact throw_ne_ok h
  | .continueLoop, _, fuel + 1, env, world, world', value => fun h => by
    rw [stmt] at h
    obtain ⟨w, world₁, -, h⟩ := bind_eq_ok h
    split at h <;> exact throw_ne_ok h
  | .ret e, _, fuel + 1, env, world, world', value => fun h => by
    rw [stmt] at h
    obtain ⟨v, world₁, -, h⟩ := bind_eq_ok h
    exact throw_ne_ok h
  | .block body, hdiverts, fuel + 1, env, world, world', value => fun h => by
    rw [stmt] at h
    obtain ⟨env', world₁, -, h⟩ := bind_eq_ok h
    exact Evaluation.stmts_diverts body hdiverts h
  | .loop init test post body, hdiverts, fuel + 1, env, world, world', value => fun h => by
    rw [stmt] at h
    obtain ⟨env', world₁, -, h⟩ := bind_eq_ok h
    obtain ⟨v, world₂, hinit, -⟩ := bind_eq_ok h
    exact Evaluation.stmt_diverts init hdiverts hinit
  | .expr _, hdiverts, _ + 1, _, _, _, _ | .bind _ _, hdiverts, _ + 1, _, _, _, _
  | .assign _ _, hdiverts, _ + 1, _, _, _, _ => absurd hdiverts (by simp [Stmt.diverts])

theorem Evaluation.stmts_diverts {table : BuiltinTable} : (body : List Stmt) →
    Stmt.divertsAny body → ∀ {fuel : Nat} {env : Env} {world world' : World} {last value : Value},
      stmts table fuel env last body world ≠ .ok value world'
  | _, _, 0, _, _, _, _, _ => throw_ne_ok
  | [], hdiverts, _ + 1, _, _, _, _, _ => absurd hdiverts (by simp [Stmt.divertsAny])
  | s :: rest, hdiverts, fuel + 1, env, world, world', last, value => fun h => by
    simp only [Stmt.divertsAny, Bool.or_eq_true] at hdiverts
    rw [stmts] at h
    obtain ⟨v, world₁, hs, hrest⟩ := bind_eq_ok h
    rcases hdiverts with hdiverts | hdiverts
    · exact Evaluation.stmt_diverts s hdiverts hs
    · exact Evaluation.stmts_diverts rest hdiverts hrest

end

mutual

/-- Reading `<` backwards changes no jump. -/
theorem Stmt.diverts_mirrored : (s : Stmt) → s.mirrored.diverts = s.diverts
  | .block body => by
    rw [Stmt.mirrored, Stmt.diverts, Stmt.diverts, Stmt.divertsAny_mirroredAll body]
  | .loop init test post body => by
    rw [Stmt.mirrored, Stmt.diverts, Stmt.diverts, Stmt.diverts_mirrored init]
  | .bind _ _ | .assign _ _ | .ret _ | .expr _ | .breakLoop | .continueLoop => rfl

theorem Stmt.divertsAny_mirroredAll : (body : List Stmt) →
    Stmt.divertsAny (Stmt.mirroredAll body) = Stmt.divertsAny body
  | [] => rfl
  | s :: rest => by
    rw [Stmt.mirroredAll, Stmt.divertsAny, Stmt.divertsAny, Stmt.diverts_mirrored s,
      Stmt.divertsAny_mirroredAll rest]

end

/-! ## What statements leave

The cases of `Ended`, put into the forms in which they are used: the stack is as before, and the
value is `null` where none was left. -/

section

variable {exe : Executable} {table : BuiltinTable} {final : Symbols} {fuel : Nat}
  {ending : Ending} {closing : Closing} {last value : Value} {p : Nat} {levels : List Level}
  {blocks : List Block} {ops : List Value} {world : World} {m : Machine}

/-- Unless the value is kept, the operands are those from before. -/
theorem Ended.stands (hending : ending = .drop ∨ closing ≠ .value)
    (h : Ended exe table final ending closing last value p levels blocks ops world m) :
    Stands exe table final p levels blocks ops world m := by
  cases closing with
  | value =>
    obtain rfl := hending.resolve_right fun h => h rfl
    exact h.1
  | returned => exact h.2
  | other => exact h.2
  | nothing => exact h.2

/-- Statements whose code leaves no value have the value `null`. -/
theorem Ended.value_eq (hclosing : closing ≠ .value)
    (h : Ended exe table final ending closing .null value p levels blocks ops world m) :
    value = .null := by
  cases closing with
  | value => exact absurd rfl hclosing
  | returned => exact h.1
  | other => exact h.1
  | nothing => exact h.1

theorem Ended.change_last {last' : Value} (hclosing : closing ≠ .nothing)
    (h : Ended exe table final ending closing last value p levels blocks ops world m) :
    Ended exe table final ending closing last' value p levels blocks ops world m := by
  cases closing with
  | nothing => exact absurd rfl hclosing
  | value => cases ending <;> exact h
  | returned => exact h
  | other => exact h

/-- A plain statement has code. Only blocks may have none, and the grammar makes no statement of a
block. -/
theorem Stmt.closing_ne_nothing {s : Stmt} {root direct : Bool} {later : List String}
    (h : s.plain table root direct later) : s.closing ≠ .nothing := by
  cases s with
  | block body => exact absurd h (by simp [Stmt.plain])
  | _ => simp [Stmt.closing]

theorem Stmt.closingList_ne_nothing {s : Stmt} {rest : List Stmt} {root : Bool}
    {later : List String} (h : Stmt.plainAll table root later (s :: rest)) :
    Stmt.closingList (s :: rest) ≠ .nothing := by
  simp only [Stmt.plainAll, Bool.and_eq_true] at h
  rw [Stmt.closingList]
  split
  · exact Stmt.closing_ne_nothing h.1
  · rename_i hrest
    exact hrest

/-- The value of a statement is dropped or kept. -/
theorem EndAt.follows {a b : Point} (hending : ending ≠ .give) (h : EndAt exe.code ending a b)
    (hm : Stands exe table final a.position levels blocks (value :: ops) world m) :
    m.Arrives (Ended exe table final ending .value last value b.position levels blocks ops
      world) := by
  cases ending with
  | drop => exact OpAt.follows_pop h hm
  | keep =>
    obtain rfl : b = a := h
    exact .here hm
  | give => exact absurd rfl hending

/-! ## Conditions

The value of the test decides in both backends which branch is followed. The second branch may be
missing, so it is given by its code and its evaluation. -/

/-- **A branch leaves the value that its statements have.** If its last statement leaves none, the
compiler pushes `null`, and `null` is what the evaluation has. -/
theorem BranchAt.follows {body : List Stmt} (hbody : StmtsFollow exe table final fuel body)
    {setting : Setting} {a b : Point} {d : Nat} {pending slack : Bool}
    (hplain : Stmt.plainAll table setting.root setting.later body)
    (haligned : Stmt.alignedAll pending slack body)
    (hat : setting.At table final d pending slack ops a)
    (hgrows : Symbols.Grows table b.symbols final)
    (h : BranchAt exe.code (Stmt.closingList body)
      (fun ending a b => StmtsAt exe.code exe.constants setting.exit ending d body a b) a b)
    (hm : Stands exe table final a.position setting.levels a.blocks ops world m) :
    Simulates exe table final setting.target m
      (stmts table fuel setting.env .null (Stmt.mirroredAll body) world)
      fun value => Stands exe table final b.position setting.levels a.blocks (value :: ops) := by
  unfold BranchAt at h
  split at h
  · rename_i hclosing
    refine (hbody setting a b .keep d pending slack ops .null world m hplain haligned (by decide)
      hat hgrows h hm).mono fun value world' m' _ hm' => ?_
    rw [hclosing] at hm'
    exact hm'
  · rename_i hclosing
    obtain ⟨c, hc, hop⟩ := h
    have hgrowsc : Symbols.Grows table c.symbols final := by rwa [← hop.symbols_eq]
    -- statements without a value are followed by `null`
    refine (hbody setting a c .drop d pending slack ops .null world m hplain haligned (by decide)
      hat hgrowsc hc hm).after fun value world' m' _ hm' => ?_
    obtain rfl := hm'.value_eq hclosing
    exact hop.follows_literal .null rfl rfl (hm'.stands (.inl rfl))

/-- **A condition, whose second branch is given by its code and its evaluation.** The points between
the parts are taken from the layout; at each of them the same blocks are open as at the start. -/
theorem CondAt.follows {test : Expr} {yes : List Stmt} {noAt : Point → Point → Prop}
    (noEval : Eval Value) (htest : ExprFollows exe table final fuel test)
    (hyes : StmtsFollow exe table final fuel yes) {setting : Setting} {a b : Point} {d : Nat}
    {pending slack : Bool}
    (hplain : test.plain table setting.root setting.later
      ∧ Stmt.plainAll table setting.root setting.later yes)
    (haligned : test.aligned pending slack ∧ Stmt.alignedAll pending slack yes)
    (hat : setting.At table final d pending slack ops a)
    (hgrows : Symbols.Grows table b.symbols final)
    (hwiden : ∀ n, setting.At table final d pending slack ops n → noAt n b → n.Widens table b)
    (hno : ∀ n world' m', setting.At table final d pending slack ops n → noAt n b →
      Stands exe table final n.position setting.levels n.blocks ops world' m' →
      Simulates exe table final setting.target m' (noEval world')
        fun value => Stands exe table final b.position setting.levels n.blocks (value :: ops))
    (h : CondAt exe.code (fun a b => ExprAt exe.code exe.constants setting.exit d test a b)
      (BranchAt exe.code (Stmt.closingList yes)
        fun ending a b => StmtsAt exe.code exe.constants setting.exit ending d yes a b) noAt a b)
    (hm : Stands exe table final a.position setting.levels a.blocks ops world m) :
    Simulates exe table final setting.target m
      ((expr table fuel setting.env test.mirrored >>= fun holds =>
        if holds.truthy then stmts table fuel setting.env .null (Stmt.mirroredAll yes)
        else noEval) world)
      fun value => Stands exe table final b.position setting.levels a.blocks (value :: ops) := by
  obtain ⟨c, n, hc, hbranch, hyesAt, hjump, htarget, htarget', hnoAt⟩ := h
  have hw := ExprAt.widens test hplain.1 hat.root hat.flat hc
  have hw₁ := hw.trans (.skip hw.grows.flat Op.jumpNotTruthy.size)
  have hat₁ := hat.move hw₁
  have hw₂ : (c.skip Op.jumpNotTruthy.size).Widens table n := BranchAt.widens
    (fun ending e => StmtsAt.widens yes hplain.2 hat₁.root hat₁.flat) hyesAt
  have hw₃ := (hw₁.trans hw₂).trans (.skip hw₂.grows.flat Op.jump.size)
  have hat₃ := hat.move hw₃
  have hgrowsn : Symbols.Grows table n.symbols final :=
    Symbols.Grows.trans (hwiden _ hat₃ hnoAt).grows hgrows
  have hgrowsc : Symbols.Grows table c.symbols final := Symbols.Grows.trans hw₂.grows hgrowsn
  have hblocks₁ : (c.skip Op.jumpNotTruthy.size).blocks = a.blocks := hw₁.blocks
  have hblocks₃ : (n.skip Op.jump.size).blocks = a.blocks := hw₃.blocks
  -- the test, then the jump that takes its value
  refine (htest setting a c d pending slack ops world m hplain.1 haligned.1 hat hgrowsc hc
    hm).bind fun holds world₁ m₁ _ hm₁ => ?_
  refine .before (hbranch.follows_branch htarget hm₁) fun m₂ hm₂ => ?_
  cases htruthy : holds.truthy with
  | true =>
    rw [htruthy, if_pos rfl, ← hblocks₁] at hm₂
    rw [if_pos rfl]
    refine (BranchAt.follows hyes hplain.2 haligned.2 hat₁ hgrowsn hyesAt hm₂).after
      fun value world₂ m₃ _ hm₃ => ?_
    rw [hblocks₁] at hm₃
    exact hjump.follows_jump htarget' hm₃
  | false =>
    rw [htruthy, if_neg (by decide), ← hblocks₃] at hm₂
    rw [if_neg (by decide)]
    have hsim := hno _ world₁ m₂ hat₃ hnoAt hm₂
    rwa [hblocks₃] at hsim

/-- The second branch is there or it is `null`. -/
theorem ExprFollows.cond {test : Expr} {yes : List Stmt} {no : Option (List Stmt)}
    (htest : ExprFollows exe table final fuel test) (hyes : StmtsFollow exe table final fuel yes)
    (hno : ∀ body, no = some body → StmtsFollow exe table final fuel body) :
    ExprFollows exe table final (fuel + 1) (.cond test yes no) := by
  intro setting a b d pending slack ops world m hplain haligned hat hgrows h hm
  simp only [Expr.plain, Bool.and_eq_true] at hplain
  cases no with
  | none =>
    rw [Expr.mirrored, Stmt.mirroredOption, expr]
    simp only [Expr.aligned, Bool.and_true, Bool.and_eq_true] at haligned
    exact CondAt.follows (pure .null) htest hyes hplain.1 haligned hat hgrows
      (fun n hatn hn => .of_eq hatn.flat (OpAt.symbols_eq hn))
      (fun n world' m' _ hn hm' => hn.follows_literal .null rfl rfl hm') h hm
  | some body =>
    rw [Expr.mirrored, Stmt.mirroredOption, expr]
    simp only [Expr.aligned, Bool.and_eq_true] at haligned
    exact CondAt.follows (stmts table fuel setting.env .null (Stmt.mirroredAll body))
      htest hyes hplain.1 haligned.1 hat hgrows
      (fun n hatn hn => BranchAt.widens
        (fun ending e => StmtsAt.widens body hplain.2 hatn.root hatn.flat) hn)
      (fun n world' m' hatn hn hm' => BranchAt.follows (hno body rfl) hplain.2 haligned.2 hatn
        hgrows hn hm') h hm

/-! ## Single statements

Each is the evaluation of an expression with one or two instructions behind it. -/

theorem StmtFollows.expr {value : Expr} (hvalue : ExprFollows exe table final fuel value) :
    StmtFollows exe table final (fuel + 1) (.expr value) := by
  intro setting direct a b ending d pending slack ops world m hplain _ haligned hending hat hgrows
    h hm
  obtain ⟨c, hc, hend⟩ := h
  have hgrowsc : Symbols.Grows table c.symbols final := by rwa [← hend.symbols_eq]
  rw [Stmt.mirrored, stmt]
  exact (hvalue setting a c d pending slack ops world m hplain haligned hat hgrowsc hc hm).after
    fun v world' m' _ hm' => hend.follows hending hm'

/-- A `let` that stands outside of all loops. Inside of a loop it is not a statement of this
kind. -/
theorem StmtFollows.bind {name : String} {value : Expr}
    (hvalue : ExprFollows exe table final fuel value) :
    StmtFollows exe table final (fuel + 1) (.bind name value) := by
  intro setting direct a b ending d pending slack ops world m hplain hwhere haligned _ hat hgrows
    h hm
  simp only [Stmt.plain, Bool.and_eq_true, Option.isNone_iff_eq_none] at hplain
  obtain ⟨⟨-, huser⟩, hplain⟩ := hplain
  have hroot := hwhere.resolve_right (by simp [Stmt.binds])
  obtain ⟨c, hc, hstore⟩ := StmtAt.bind_value hplain h
  have hw := ExprAt.widens value hplain hat.root hat.flat hc
  have hblocks : c.blocks = a.blocks := hw.blocks
  have hw' := hstore.define_root hw.grows.flat (hblocks.trans (hat.root hroot)) huser
  rw [Stmt.mirrored, stmt]
  refine (hvalue setting a c d pending slack ops world m hplain haligned hat
    (hw'.grows.trans hgrows) hc hm).bind fun v world₁ m₁ _ hm₁ => ?_
  rw [← hblocks] at hm₁ ⊢
  exact .value ((hstore.follows_root hw.grows.flat huser (hblocks.trans (hat.root hroot)) hgrows
    hm₁).mono fun m' hm' => ⟨rfl, hm'⟩)

/-- The value is computed before the name is looked up, in both backends. -/
theorem StmtFollows.assign {name : String} {value : Expr}
    (hvalue : ExprFollows exe table final fuel value) :
    StmtFollows exe table final (fuel + 1) (.assign name value) := by
  intro setting direct a b ending d pending slack ops world m hplain _ haligned _ hat hgrows h hm
  simp only [Stmt.plain, Bool.and_eq_true, Option.isNone_iff_eq_none, Bool.not_eq_true'] at hplain
  obtain ⟨⟨huser, hlater⟩, hplain⟩ := hplain
  obtain ⟨c, hc, hstore⟩ := h
  have hw := ExprAt.widens value hplain hat.root hat.flat hc
  have hblocks : c.blocks = a.blocks := hw.blocks
  have hw' := hstore.require_widens hw.grows.flat huser
  rw [Stmt.mirrored, stmt]
  refine (hvalue setting a c d pending slack ops world m hplain haligned hat
    (hw'.grows.trans hgrows) hc hm).bind fun v world₁ m₁ _ hm₁ => ?_
  rw [← hblocks] at hm₁ ⊢
  exact .value ((hstore.follows hw.grows.flat huser (hat.not_later hlater) hgrows hm₁).mono
    fun m' hm' => ⟨rfl, hm'⟩)

/-- A `return` outside of all functions ends the program with its value. -/
theorem StmtFollows.ret {value : Expr} (hvalue : ExprFollows exe table final fuel value) :
    StmtFollows exe table final (fuel + 1) (.ret value) := by
  intro setting direct a b ending d pending slack ops world m hplain _ haligned _ hat hgrows h hm
  obtain ⟨c, hc, hop⟩ := h
  have hgrowsc : Symbols.Grows table c.symbols final := by rwa [← hop.symbols_eq]
  rw [Stmt.mirrored, stmt]
  refine (hvalue setting a c d pending slack ops world m hplain haligned hat hgrowsc hc
    hm).bind fun v world₁ m₁ _ hm₁ => ?_
  obtain ⟨hinstr, rfl⟩ := hop
  obtain ⟨globals, htop, hagrees⟩ := hm₁
  show Fails exe table final setting.target (.returned v) world₁ m₁
  obtain ⟨n, m₂, hrun, hm₂, hlast⟩ := htop.returnValue hinstr
  exact .inr ⟨n, m₂, hrun, ⟨_, ops, globals, hm₂, hagrees.atRoot⟩, hlast⟩

/-- **A jump out of the innermost loop drops the operands above those of the loop.** That this is
the right number is `Setting.At.ops_eq`; the scopes of the loop agree at the target by
`Setting.At.leaves`. -/
theorem ExitAt.follows {setting : Setting} {a b : Point} {d : Nat} {pending : Bool}
    {goTo : Exit → Nat} (h : ExitAt exe.code goTo setting.exit d a b)
    (hat : setting.At table final d pending false ops a)
    (hm : Stands exe table final a.position setting.levels a.blocks ops world m) :
    world.scopes.inLoop setting.env = true
      ∧ m.Arrives fun m' => ∃ t, setting.target = some t
        ∧ Stands exe table final (goTo t.exit) t.levels t.blocks t.ops world m' := by
  obtain ⟨e, c, hexit, hpops, hop, htarget⟩ := h
  obtain ⟨t, ht, rfl⟩ := Option.map_eq_some_iff.mp hexit
  obtain ⟨above, habove, hlength⟩ := hat.ops_eq ht
  constructor
  · obtain ⟨globals, -, hagrees⟩ := hm
    exact hagrees.inLoop (hat.nested (by rw [ht]; simp))
  · rw [← hlength] at hpops
    rw [habove] at hm
    have hjumps := (hpops.follows hm).bind fun m' hm' => hop.follows_jump htarget hm'
    refine hjumps.mono fun m' hm' => ?_
    obtain ⟨globals, htop, hagrees⟩ := hm'
    exact ⟨t, ht, globals, htop, hat.leaves t ht _ _ hagrees⟩

/-- Whether the program stands in a loop is known. -/
theorem Evaluation.exit_eq {env : Env} {signal : Signal} {otherwise : Fault}
    (h : world.scopes.inLoop env = true) :
    ((do if (← get).scopes.inLoop env then throw signal else Evaluation.fault otherwise) :
      Eval Value) world = .error signal world := by
  show (if world.scopes.inLoop env then throw signal else Evaluation.fault otherwise : Eval Value)
    world = _
  rw [if_pos h]
  rfl

theorem StmtFollows.breakLoop : StmtFollows exe table final (fuel + 1) .breakLoop := by
  intro setting direct a b ending d pending slack ops world m _ _ haligned _ hat _ h hm
  obtain rfl : slack = false := by simpa [Stmt.aligned] using haligned
  obtain ⟨hin, harrives⟩ := ExitAt.follows h hat hm
  rw [Stmt.mirrored, stmt, exit_eq hin]
  exact harrives

theorem StmtFollows.continueLoop : StmtFollows exe table final (fuel + 1) .continueLoop := by
  intro setting direct a b ending d pending slack ops world m _ _ haligned _ hat _ h hm
  obtain rfl : slack = false := by simpa [Stmt.aligned] using haligned
  obtain ⟨hin, harrives⟩ := ExitAt.follows h hat hm
  rw [Stmt.mirrored, stmt, exit_eq hin]
  exact harrives

/-! ## Statements in turn

The evaluation goes through the list with the value of the last statement as its accumulator. -/

theorem StmtsFollow.nil : StmtsFollow exe table final (fuel + 1) [] := by
  intro setting a b ending d pending slack ops last world m _ _ _ _ _ h hm
  obtain rfl : b = a := h
  rw [Stmt.mirroredAll, stmts]
  exact .value (.here ⟨rfl, hm⟩)

/-- **A statement and those behind it.** Either nothing behind it has code, and then it is the last
one and has the ending, or it drops its value and the rest is followed from behind it. -/
theorem StmtsFollow.cons {s : Stmt} {rest : List Stmt} (hs : StmtFollows exe table final fuel s)
    (hrest : StmtsFollow exe table final fuel rest) :
    StmtsFollow exe table final (fuel + 1) (s :: rest) := by
  intro setting a b ending d pending slack ops last world m hplain haligned hending hat hgrows h
    hm
  -- a plain statement has code, so the ending belongs to the last one of the list
  have hclosing := Stmt.closingList_ne_nothing hplain
  simp only [Stmt.plainAll, Bool.and_eq_true] at hplain
  simp only [Stmt.alignedAll, Bool.and_eq_true, Bool.or_eq_true] at haligned
  have hbinds : setting.root = true ∨ s.binds = [] := by
    cases hroot : setting.root with
    | true => exact .inl rfl
    | false =>
      rw [hroot] at hplain
      exact .inr (Stmt.binds_eq_nil hplain.1)
  rw [Stmt.mirroredAll, stmts]
  rw [Stmt.closingList] at hclosing ⊢
  obtain ⟨c, h⟩ := h
  split at h
  · rename_i hnothing
    rw [if_pos hnothing]
    -- only an empty list has no code
    obtain rfl : rest = [] := by
      cases rest with
      | nil => rfl
      | cons s' rest => exact absurd hnothing (Stmt.closingList_ne_nothing hplain.2)
    obtain ⟨hc, hb⟩ := h
    obtain rfl : b = c := hb
    refine (hs setting setting.root a b ending d pending slack ops world m hplain.1 hbinds
      haligned.1 hending hat hgrows hc hm).bind fun v world₁ m₁ _ hm₁ => ?_
    cases fuel with
    | zero => trivial
    | succ fuel =>
      rw [Stmt.mirroredAll, stmts]
      exact .value (.here (hm₁.change_last (Stmt.closing_ne_nothing hplain.1)))
  · rename_i hsome
    rw [if_neg hsome]
    obtain ⟨hc, hb⟩ := h
    have hw := (StmtAt.widens s hplain.1 hat.root hat.flat hc).2 hbinds
    have hblocks : c.blocks = a.blocks := hw.blocks
    have hw' := StmtsAt.widens rest hplain.2 (fun h => hw.blocks.trans (hat.root h))
      hw.grows.flat hb
    refine (hs setting setting.root a c .drop d pending slack ops world m hplain.1 hbinds
      haligned.1 (by decide) hat (hw'.grows.trans hgrows) hc hm).bind fun v world₁ m₁ hv hm₁ => ?_
    -- the evaluation has come to the end of the statement, so the rest counts from there
    have hgoes : s.diverts = false := by
      cases hdiverts : s.diverts with
      | false => rfl
      | true => exact absurd hv (stmt_diverts s.mirrored (by rwa [Stmt.diverts_mirrored]))
    have hstands := hm₁.stands (.inl rfl)
    rw [← hblocks] at hstands ⊢
    refine (hrest setting c b ending (s.depthAfter setting.exit d) pending
      (s.slackAfter pending slack) ops v world₁ m₁ hplain.2
      (haligned.2.resolve_left (by rw [hgoes]; decide)) hending (hat.behind hw s) hgrows hb
      hstands).mono fun v' world₂ m₂ _ hm₂ => ?_
    exact hm₂.change_last hsome

end

end Scriptlet
