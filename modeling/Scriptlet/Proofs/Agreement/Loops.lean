import Scriptlet.Proofs.Agreement.Statements

/-!
# Loops in both backends

The evaluation has one scope for all iterations of a loop, and the machine one slot for each name
that the body binds. Between two iterations the scope still has the names that were bound in the
body, and the code that runs next does not know them yet: `Level.later` leaves them out until their
`let` is reached again. That a jump out of the body also leaves everything as it has to be is the
`Target` of the body, to which `Setting.At.leaves` leads from every point of it.
-/

namespace Scriptlet

open Evaluation

/-! ## Names that are still to be bound -/

theorem Stmt.mem_pending {bound : List String} {body : List Stmt} {name : String} :
    name ∈ Stmt.pending bound body ↔ name ∈ body.flatMap Stmt.binds ∧ name ∉ bound := by
  rw [Stmt.pending, List.mem_filter, List.contains_eq_mem, Bool.not_eq_true',
    decide_eq_false_iff_not]

/-- Names that statements add to a block leave the others as they are, and those that are there. -/
theorem Block.Adds.same {names bound : List String} {block block' : Block}
    (h : block.Adds names block') (hbound : ∀ name ∈ bound, (block[name]?).isSome) {name : String}
    (hname : ¬ (name ∈ names ∧ name ∉ bound)) : block'[name]? = block[name]? := by
  by_cases hmem : name ∈ names
  · have hthere := hbound name (Classical.byContradiction fun hout => hname ⟨hmem, hout⟩)
    obtain ⟨symbol, hsymbol⟩ := Option.isSome_iff_exists.mp hthere
    rw [hsymbol, h.kept name symbol hsymbol]
  · exact h.other name hmem

/-- The names that are left out in a loop are left out in the loops around it or by itself. -/
theorem Level.covers_cons {levels : List Level} {later : List String}
    (h : ∀ level ∈ levels, ∀ name ∈ level.later, name ∈ later) (scope : ScopeId)
    (names : List String) :
    ∀ level ∈ (⟨scope, names⟩ : Level) :: levels, ∀ name ∈ level.later, name ∈ names ++ later := by
  intro level hlevel name hname
  rcases List.mem_cons.mp hlevel with rfl | hlevel
  · exact List.mem_append_left _ hname
  · exact List.mem_append_right _ (h level hlevel name hname)

section

variable {exe : Executable} {table : BuiltinTable} {final : Symbols} {fuel : Nat} {p : Nat}
  {level : Level} {levels : List Level} {block block' : Block} {blocks : List Block}
  {ops : List Value} {world : World} {m : Machine}

theorem Stands.weaken {later : List String}
    (hlater : ∀ name, name ∉ later → name ∉ level.later ∧ block'[name]? = block[name]?)
    (h : Stands exe table final p (level :: levels) (block :: blocks) ops world m) :
    Stands exe table final p (⟨level.scope, later⟩ :: levels) (block' :: blocks) ops world m := by
  obtain ⟨globals, htop, hagrees⟩ := h
  exact ⟨globals, htop, hagrees.weaken hlater⟩

theorem Stands.blocks_cons (h : Stands exe table final p (level :: levels) blocks ops world m) :
    ∃ block outer, blocks = block :: outer := by
  obtain ⟨globals, -, hagrees⟩ := h
  cases hagrees
  exact ⟨_, _, rfl⟩

end

/-! ## Statements that stand directly in a loop

These are the statements that may bind a name of the loop. Before its `let` a name is not mentioned,
so it makes no difference that the scope may still have it from the iteration before; behind its
`let` it is bound in the scope and has its slot. -/

section

variable (exe : Executable) (table : BuiltinTable) (final : Symbols)

/-- **The machine follows the evaluation of a statement that stands directly in a loop**, which may
bind a name of the loop. Behind it the relation leaves out the names of `later` only. -/
def DirectFollows (fuel : Nat) (s : Stmt) : Prop :=
  ∀ (target : Option Target) (names later : List String) (level : Level) (outer : List Level)
    (a b : Point) (d : Nat) (pending slack : Bool) (ops : List Value) (world : World) (m : Machine),
    s.plain table false true names → s.aligned pending slack →
    Setting.At table final ⟨false, names, target, level :: outer⟩ d pending slack ops a →
    Symbols.Grows table b.symbols final →
    StmtAt exe.code exe.constants (target.map Target.exit) .drop d s a b →
    (∀ other, other ∉ later → other ∈ s.binds ∨ other ∉ level.later) →
    Stands exe table final a.position (level :: outer) a.blocks ops world m →
    Simulates exe table final target m
      (stmt table fuel (Level.env (level :: outer)) s.mirrored world)
      fun _ => Stands exe table final b.position (⟨level.scope, later⟩ :: outer) b.blocks ops

/-- **The machine follows the evaluation of the rest of the body of a loop.** The names that are
still pending are computed from the statements that are left, so the induction is on the list, with
the names that are bound so far as an argument. -/
def BodyFollows (fuel : Nat) (body : List Stmt) : Prop :=
  ∀ (target : Option Target) (bound later : List String) (scope : ScopeId) (outer : List Level)
    (a b : Point) (block : Block) (blocks : List Block) (d : Nat) (pending slack : Bool)
    (ops : List Value) (last : Value) (world : World) (m : Machine),
    Stmt.plainBody table bound later body → Stmt.alignedAll pending slack body →
    (∀ level ∈ outer, ∀ name ∈ level.later, name ∈ later) →
    Setting.At table final ⟨false, Stmt.pending bound body ++ later, target,
      ⟨scope, Stmt.pending bound body⟩ :: outer⟩ d pending slack ops a →
    a.blocks = block :: blocks → (∀ name ∈ bound, (block[name]?).isSome) →
    Symbols.Grows table b.symbols final →
    StmtsAt exe.code exe.constants (target.map Target.exit) .drop d body a b →
    Stands exe table final a.position (⟨scope, Stmt.pending bound body⟩ :: outer) a.blocks ops
      world m →
    Simulates exe table final target m
      (stmts table fuel (Level.env (⟨scope, Stmt.pending bound body⟩ :: outer)) last
        (Stmt.mirroredAll body) world)
      fun _ => Stands exe table final b.position (⟨scope, []⟩ :: outer) b.blocks ops

end

section

variable {exe : Executable} {table : BuiltinTable} {final : Symbols} {fuel : Nat}

/-- A `let` in a loop: its value is computed first, and then the name is bound in the innermost
scope. -/
theorem DirectFollows.bind {name : String} {value : Expr}
    (hvalue : ExprFollows exe table final fuel value) :
    DirectFollows exe table final (fuel + 1) (.bind name value) := by
  intro target names later level outer a b d pending slack ops world m hplain haligned hat hgrows h
    hlater hm
  simp only [Stmt.plain, Bool.and_eq_true, Option.isNone_iff_eq_none] at hplain
  obtain ⟨⟨-, huser⟩, hplain⟩ := hplain
  obtain ⟨c, hc, hstore⟩ := StmtAt.bind_value hplain h
  have hw := ExprAt.widens value hplain hat.root hat.flat hc
  have hblocks : c.blocks = a.blocks := hw.blocks
  have hw' := hstore.define_binds hw.grows.flat huser
  rw [Stmt.mirrored, stmt]
  refine (hvalue _ a c d pending slack ops world m hplain haligned hat (hw'.grows.trans hgrows) hc
    hm).bind fun v world₁ m₁ _ hm₁ => ?_
  rw [← hblocks] at hm₁
  refine .value (hstore.follows_block hw.grows.flat huser hgrows (fun other hother => ?_) hm₁)
  exact (hlater other hother).imp List.mem_singleton.mp id

/-- Every other statement binds nothing, so the names left out are the same behind it. -/
theorem DirectFollows.of_stmt {s : Stmt} (hbinds : s.binds = [])
    (hs : StmtFollows exe table final fuel s) : DirectFollows exe table final fuel s := by
  intro target names later level outer a b d pending slack ops world m hplain haligned hat hgrows h
    hlater hm
  have hw := (StmtAt.widens s hplain hat.root hat.flat h).2 (.inr hbinds)
  have hblocks : b.blocks = a.blocks := hw.blocks
  obtain ⟨block, blocks, hcons⟩ := hm.blocks_cons
  refine (hs _ true a b .drop d pending slack ops world m hplain (.inr hbinds) haligned (by decide)
    hat hgrows h hm).mono fun v world' m' _ hm' => ?_
  have hstands := hm'.stands (.inl rfl)
  rw [hblocks, hcons]
  rw [hcons] at hstands
  refine hstands.weaken fun name hname => ⟨?_, rfl⟩
  rw [hbinds] at hlater
  exact (hlater name hname).resolve_left List.not_mem_nil

theorem BodyFollows.nil : BodyFollows exe table final (fuel + 1) [] := by
  intro target bound later scope outer a b block blocks d pending slack ops last world m _ _ _ _ _ _
    _ h hm
  obtain rfl : b = a := h
  rw [Stmt.mirroredAll, stmts]
  exact .value (.here hm)

/-- **A statement and the rest of the body.** What is pending behind the statement is what was
pending before, without the name that it binds. -/
theorem BodyFollows.cons {s : Stmt} {rest : List Stmt} (hs : DirectFollows exe table final fuel s)
    (hrest : BodyFollows exe table final fuel rest) :
    BodyFollows exe table final (fuel + 1) (s :: rest) := by
  intro target bound later scope outer a b block blocks d pending slack ops last world m hplain
    haligned houter hat hblocks hbound hgrows h hm
  simp only [Stmt.plainBody, Bool.and_eq_true] at hplain
  simp only [Stmt.alignedAll, Bool.and_eq_true, Bool.or_eq_true] at haligned
  obtain ⟨c, hc, hb⟩ : ∃ c, StmtAt exe.code exe.constants (target.map Target.exit) .drop d s a c
      ∧ StmtsAt exe.code exe.constants (target.map Target.exit) .drop
        (s.depthAfter (target.map Target.exit) d) rest c b := by
    obtain ⟨c, h⟩ := h
    split at h
    all_goals exact ⟨c, h⟩
  have hw := (StmtAt.widens s hplain.1 hat.root hat.flat hc).1
  have hw' := StmtsAt.binds rest hplain.2 hw.grows.flat hb
  obtain ⟨block', hblocks', hadds⟩ := hw.adds block blocks hblocks
  -- behind the statement the block has the same symbols for all names that may be mentioned
  have hpending : ∀ name, name ∉ Stmt.pending bound (s :: rest) →
      name ∉ Stmt.pending (s.binds ++ bound) rest ∧ block[name]? = block'[name]? := by
    intro name hname
    rw [Stmt.mem_pending, List.flatMap_cons, List.mem_append] at hname
    refine ⟨fun hmem => ?_, (hadds.same hbound fun hmem => hname ⟨.inl hmem.1, hmem.2⟩).symm⟩
    obtain ⟨hlet, hout⟩ := Stmt.mem_pending.mp hmem
    exact hname ⟨.inr hlet, fun h => hout (List.mem_append_right _ h)⟩
  rw [Stmt.mirroredAll, stmts]
  refine (hs target _ (Stmt.pending (s.binds ++ bound) rest) _ outer a c d pending slack ops world
    m hplain.1 haligned.1 hat (hw'.grows.trans hgrows) hc (fun other hother => ?_)
    hm).bind fun v world₁ m₁ hv hm₁ => ?_
  · -- a name that is not bound any more is bound by the statement or was not to be bound
    by_cases hmem : other ∈ s.binds
    · exact .inl hmem
    · refine .inr fun hbefore => hother (Stmt.mem_pending.mpr ?_)
      obtain ⟨hlet, hout⟩ := Stmt.mem_pending.mp hbefore
      rw [List.flatMap_cons, List.mem_append] at hlet
      exact ⟨hlet.resolve_left hmem, fun h => (List.mem_append.mp h).elim hmem hout⟩
  have hgoes : s.diverts = false := by
    cases hdiverts : s.diverts with
    | false => rfl
    | true => exact absurd hv (stmt_diverts s.mirrored (by rwa [Stmt.diverts_mirrored]))
  refine hrest target (s.binds ++ bound) later scope outer c b block' blocks
    (s.depthAfter (target.map Target.exit) d) pending (s.slackAfter pending slack) ops v world₁ m₁
    hplain.2 (haligned.2.resolve_left (by rw [hgoes]; decide)) houter ?_ hblocks'
    (fun name hname => ?_) hgrows hb hm₁
  · refine ⟨hw.grows.flat, fun h => absurd h (by simp), Level.covers_cons houter _ _,
      hat.counted.after s, hat.suffix, fun t ht scopes globals hagrees => ?_, fun _ => by simp⟩
    refine hat.leaves t ht scopes globals ?_
    have hafter : c.blocks = block' :: blocks := hblocks'
    rw [hafter] at hagrees
    rw [hblocks]
    exact hagrees.weaken hpending
  · rcases List.mem_append.mp hname with hname | hname
    · exact hadds.there name hname
    · obtain ⟨symbol, hsymbol⟩ := Option.isSome_iff_exists.mp (hbound name hname)
      rw [hadds.kept name symbol hsymbol]
      rfl

end

/-! ## Iterations

Between two iterations the scope keeps what the body has bound, while the compiler is back at the
start of the body. `Round` collects what the compiler has established about the parts of a loop; it
does not change while the loop runs, so the induction over the iterations has `Stands` at the start
of the test as its only invariant. -/

/-- **A loop behind its init part**: its condition leads from `p₁` to `p₂`, its body from there to
`p₃` and its post part to `p₄`. The init part has bound the names of `bound`. -/
structure Round (exe : Executable) (table : BuiltinTable) (final : Symbols)
    (target : Option Target) (bound later : List String) (level : Level) (outer : List Level)
    (d : Nat) (pending slack : Bool) (ops : List Value) (test : Expr) (post : Stmt)
    (body : List Stmt) (p₁ p₂ p₃ p₄ : Point) : Prop where
  names : level.later = Stmt.pending bound body
  plain : test.plain table false (level.later ++ later)
    ∧ post.plain table false false (level.later ++ later) ∧ Stmt.plainBody table bound later body
  aligned : test.aligned pending slack ∧ post.aligned pending slack
    ∧ Stmt.alignedAll false false body
  around : ∀ level ∈ outer, ∀ name ∈ level.later, name ∈ later
  start : Setting.At table final ⟨false, level.later ++ later, target, level :: outer⟩ d pending
    slack ops p₁
  opened : ∃ block blocks, p₁.blocks = block :: blocks
    ∧ ∀ name ∈ bound, (block[name]?).isSome
  grows : Symbols.Grows table p₄.symbols final
  testAt : ExprAt exe.code exe.constants (target.map Target.exit) d test p₁ p₂
  branch : OpAt exe.code .jumpNotTruthy [p₄.position + Op.jump.size] p₂
    (p₂.skip Op.jumpNotTruthy.size)
  bodyAt : StmtsAt exe.code exe.constants
    (some ⟨d, p₄.position + Op.jump.size, p₃.position⟩) .drop d body
    (p₂.skip Op.jumpNotTruthy.size) p₃
  postAt : StmtAt exe.code exe.constants (target.map Target.exit) .drop d post p₃ p₄
  back : OpAt exe.code .jump [p₁.position] p₄ (p₄.skip Op.jump.size)
  bounds : p₁.position ≤ Compilation.maxWord ∧ p₄.position + Op.jump.size ≤ Compilation.maxWord

/-- **The machine follows the iterations of a loop.** -/
def IterateFollows (exe : Executable) (table : BuiltinTable) (final : Symbols) (fuel : Nat)
    (test : Expr) (post : Stmt) (body : List Stmt) : Prop :=
  ∀ (target : Option Target) (bound later : List String) (level : Level) (outer : List Level)
    (d : Nat) (pending slack : Bool) (ops : List Value) (p₁ p₂ p₃ p₄ : Point) (world : World)
    (m : Machine),
    Round exe table final target bound later level outer d pending slack ops test post body
      p₁ p₂ p₃ p₄ →
    Stands exe table final p₁.position (level :: outer) p₁.blocks ops world m →
    Simulates exe table final target m
      (iterate table fuel (Level.env (level :: outer)) test.mirrored post.mirrored
        (Stmt.mirroredAll body) world)
      fun value world' m' => value = .null ∧ Stands exe table final (p₄.position + Op.jump.size)
        (level :: outer) p₁.blocks ops world' m'

section

variable {exe : Executable} {table : BuiltinTable} {final : Symbols} {fuel : Nat}
  {target : Option Target} {bound later : List String} {level : Level} {outer : List Level}
  {d : Nat} {pending slack : Bool} {ops : List Value} {test : Expr} {post : Stmt}
  {body : List Stmt} {p₁ p₂ p₃ p₄ : Point} {world : World} {m : Machine}

/-- The jumps out of the body of a loop lead to its post part and behind it. -/
def loopTarget (d : Nat) (ops : List Value) (level : Level) (outer : List Level)
    (p₁ p₃ p₄ : Point) : Target :=
  ⟨⟨d, p₄.position + Op.jump.size, p₃.position⟩, ops, level :: outer, p₁.blocks⟩

section Round

variable (h : Round exe table final target bound later level outer d pending slack ops test post
  body p₁ p₂ p₃ p₄)

include h

/-- What is known at the start of the parts, from the layouts of the parts before. -/
theorem Round.grow : p₂.blocks = p₁.blocks ∧ p₂.symbols.Flat table
    ∧ Symbols.Grows table p₂.symbols p₃.symbols ∧ Symbols.Grows table p₃.symbols final := by
  have hw₂ := ExprAt.widens test h.plain.1 h.start.root h.start.flat h.testAt
  have hw₃ := StmtsAt.binds body h.plain.2.2 (a := p₂.skip Op.jumpNotTruthy.size) hw₂.grows.flat
    h.bodyAt
  have hw₄ := (StmtAt.widens post h.plain.2.1 (fun h => absurd h (by simp)) hw₃.grows.flat
    h.postAt).1
  exact ⟨hw₂.blocks, hw₂.grows.flat, hw₃.grows, hw₄.grows.trans h.grows⟩

/-- What is known at the start of the body is known at its end, and no more about the names that
may be mentioned there. -/
theorem Round.same : ∃ block block' blocks, p₁.blocks = block :: blocks
    ∧ p₃.blocks = block' :: blocks
    ∧ ∀ name, name ∉ level.later → block'[name]? = block[name]? := by
  obtain ⟨block, blocks, hcons, hknown⟩ := h.opened
  obtain ⟨hblocks, hflat, -⟩ := h.grow
  have hw₃ := StmtsAt.binds body h.plain.2.2 (a := p₂.skip Op.jumpNotTruthy.size) hflat h.bodyAt
  obtain ⟨block', hblock', hadds⟩ := hw₃.adds block blocks (hblocks.trans hcons)
  refine ⟨block, block', blocks, hcons, hblock', fun name hname => hadds.same hknown fun hmem => ?_⟩
  rw [h.names] at hname
  exact hname (Stmt.mem_pending.mpr hmem)

/-- Between two iterations nothing has to be known of the names that the body binds. -/
theorem Round.agrees_iff {scopes : Scopes} {globals : Machine.Memory (Option Value)} :
    Agrees final.table.level scopes globals (level :: outer) p₃.blocks
      ↔ Agrees final.table.level scopes globals (level :: outer) p₁.blocks := by
  obtain ⟨block, block', blocks, hcons, hcons', hsame⟩ := h.same
  rw [hcons, hcons']
  exact ⟨fun hagrees => hagrees.weaken fun name hname => ⟨hname, (hsame name hname).symm⟩,
    fun hagrees => hagrees.weaken fun name hname => ⟨hname, hsame name hname⟩⟩

/-- So a machine that stands at the end of the body also stands as at its start. -/
theorem Round.stands_iff {p : Nat} : Stands exe table final p (level :: outer) p₃.blocks ops world m
    ↔ Stands exe table final p (level :: outer) p₁.blocks ops world m := by
  unfold Stands
  simp only [h.agrees_iff]

/-- The post part stands in the setting of the loop itself: the targets of jumps are those of the
loop around. -/
theorem Round.atPost : Setting.At table final ⟨false, level.later ++ later, target, level :: outer⟩
    d pending slack ops p₃ := by
  obtain ⟨-, -, hgrows, -⟩ := h.grow
  exact ⟨hgrows.flat, fun h => absurd h (by simp), h.start.covers, h.start.counted, h.start.suffix,
    fun t ht scopes globals hagrees => h.start.leaves t ht scopes globals (h.agrees_iff.mp hagrees),
    h.start.nested⟩

/-- In the body a jump leads to the loop itself. -/
theorem Round.atBody : Setting.At table final ⟨false, level.later ++ later,
    some (loopTarget d ops level outer p₁ p₃ p₄), level :: outer⟩ d false false ops
      (p₂.skip Op.jumpNotTruthy.size) := by
  obtain ⟨hblocks, hflat, -⟩ := h.grow
  refine ⟨hflat, fun h => absurd h (by simp), h.start.covers, Counted.inside _ _ _ _,
    fun t ht => ?_, fun t ht scopes globals hagrees => ?_, fun _ => by simp⟩
  · obtain rfl := Option.some.inj ht
    exact List.suffix_refl _
  · obtain rfl := Option.some.inj ht
    have hagrees : Agrees final.table.level scopes globals (level :: outer) p₂.blocks := hagrees
    rwa [hblocks] at hagrees

/-- The body is followed, up to the post part. -/
theorem Round.body_follows (hbody : BodyFollows exe table final fuel body)
    (hm : Stands exe table final (p₂.skip Op.jumpNotTruthy.size).position (level :: outer)
      p₁.blocks ops world m) :
    Simulates exe table final (some (loopTarget d ops level outer p₁ p₃ p₄)) m
      (stmts table fuel (Level.env (level :: outer)) .null (Stmt.mirroredAll body) world)
      fun _ => Stands exe table final p₃.position (level :: outer) p₁.blocks ops := by
  obtain ⟨hblocks, -, -, hgrows⟩ := h.grow
  obtain ⟨block, blocks, hcons, hknown⟩ := h.opened
  have hat := h.atBody
  have hbodyAt := h.bodyAt
  obtain ⟨scope, later'⟩ := level
  obtain rfl : later' = Stmt.pending bound body := h.names
  have hsim := hbody _ bound later scope outer (p₂.skip Op.jumpNotTruthy.size) p₃ block blocks d
    false false ops .null world m h.plain.2.2 h.aligned.2.2 h.around hat (hblocks.trans hcons)
    hknown hgrows hbodyAt (by rwa [← hblocks] at hm)
  refine hsim.mono fun value world' m' _ hm' => h.stands_iff.mp ?_
  -- the names of the body are bound now, but the next iteration does not count on that
  obtain ⟨_, block', _, -, hcons', -⟩ := h.same
  rw [hcons'] at hm' ⊢
  exact hm'.weaken fun name _ => ⟨List.not_mem_nil, rfl⟩

/-- The post part is followed, and the loop starts again. -/
theorem Round.again (hpost : StmtFollows exe table final fuel post)
    (hiterate : IterateFollows exe table final fuel test post body)
    (hm : Stands exe table final p₃.position (level :: outer) p₁.blocks ops world m) :
    Simulates exe table final target m
      ((stmt table fuel (Level.env (level :: outer)) post.mirrored >>= fun _ =>
        iterate table fuel (Level.env (level :: outer)) test.mirrored post.mirrored
          (Stmt.mirroredAll body)) world)
      fun value world' m' => value = .null ∧ Stands exe table final (p₄.position + Op.jump.size)
        (level :: outer) p₁.blocks ops world' m' := by
  have hbinds := Stmt.binds_eq_nil h.plain.2.1
  refine (hpost _ false p₃ p₄ .drop d pending slack ops world m h.plain.2.1 (.inr hbinds)
    h.aligned.2.1 (by decide) h.atPost h.grows h.postAt (h.stands_iff.mpr hm)).bind
      fun v world₁ m₁ _ hm₁ => ?_
  refine .before (h.back.follows_jump h.bounds.1 (hm₁.stands (.inl rfl))) fun m₂ hm₂ => ?_
  exact hiterate target bound later level outer d pending slack ops p₁ p₂ p₃ p₄ world₁ m₂ h
    (h.stands_iff.mp hm₂)

end Round

/-- **One iteration, and the loop again.** The test decides whether the loop is left. Of the ways to
leave the body, its end and a `continue` both lead to the post part, a `break` leads behind the
loop, and everything else is passed on. -/
theorem IterateFollows.succ (htest : ExprFollows exe table final fuel test)
    (hpost : StmtFollows exe table final fuel post) (hbody : BodyFollows exe table final fuel body)
    (hiterate : IterateFollows exe table final fuel test post body) :
    IterateFollows exe table final (fuel + 1) test post body := by
  intro target bound later level outer d pending slack ops p₁ p₂ p₃ p₄ world m h hm
  obtain ⟨-, -, hgrows, hgrows'⟩ := h.grow
  rw [iterate]
  refine (htest _ p₁ p₂ d pending slack ops world m h.plain.1 h.aligned.1 h.start
    (hgrows.trans hgrows') h.testAt hm).bind fun holds world₁ m₁ _ hm₁ => ?_
  refine .before (h.branch.follows_branch h.bounds.2 hm₁) fun m₂ hm₂ => ?_
  cases htruthy : holds.truthy with
  | false =>
    rw [htruthy, if_neg (by decide)] at hm₂
    rw [if_neg (by decide)]
    exact .value (.here ⟨rfl, hm₂⟩)
  | true =>
    rw [htruthy, if_pos rfl] at hm₂
    rw [if_pos rfl]
    have hsim := h.body_follows hbody hm₂
    show Simulates exe table final target m₂ (EStateM.bind (caught (stmts table fuel
      (Level.env (level :: outer)) .null (Stmt.mirroredAll body))) _ world₁) _
    unfold EStateM.bind caught
    -- the ways to leave the body
    cases hresult : stmts table fuel (Level.env (level :: outer)) .null (Stmt.mirroredAll body)
      world₁ with
    | ok value world₂ =>
      rw [hresult] at hsim
      exact .before hsim fun m₃ hm₃ => h.again hpost hiterate hm₃
    | error signal world₂ =>
      rw [hresult] at hsim
      cases signal with
      | continueLoop =>
        refine .before hsim fun m₃ hm₃ => h.again hpost hiterate ?_
        obtain ⟨t, ht, hm₃⟩ := hm₃
        obtain rfl := Option.some.inj ht
        exact hm₃
      | breakLoop =>
        refine .before hsim fun m₃ hm₃ => .value (.here ⟨rfl, ?_⟩)
        obtain ⟨t, ht, hm₃⟩ := hm₃
        obtain rfl := Option.some.inj ht
        exact hm₃
      | returned value => exact hsim
      | halted halt => exact hsim
      | outOfFuel => trivial

/-- The scope of a loop is a new one. -/
theorem Stands.enter {a : Point} {levels : List Level} {p : Nat}
    (hm : Stands exe table final p levels a.blocks ops world m) :
    Stands exe table final p (⟨world.scopes.next, []⟩ :: levels)
      (a.withSymbols a.symbols.enterBlock).blocks ops
      { world with scopes := world.scopes.add true } m := by
  obtain ⟨globals, htop, hagrees⟩ := hm
  exact ⟨globals, htop, hagrees.enter []⟩

/-- The scope of the loop is given up; it stays in the store, but no environment speaks of it. -/
theorem Stands.leave {levels : List Level} {block : Block} {blocks : List Block} {p : Nat}
    (hm : Stands exe table final p (level :: levels) (block :: blocks) ops world m) :
    Stands exe table final p levels blocks ops world m := by
  obtain ⟨globals, htop, hagrees⟩ := hm
  exact ⟨globals, htop, hagrees.leave⟩

/-- **A loop as a whole**: its init part in a new scope, the iterations, and the `null` that it
leaves. The names that the body binds are left out from the beginning, since the test and the post
part do not mention them. -/
theorem StmtFollows.loop {init : Stmt} (hinit : DirectFollows exe table final fuel init)
    (hiterate : IterateFollows exe table final fuel test post body) :
    StmtFollows exe table final (fuel + 1) (.loop init test post body) := by
  intro setting direct a b ending d pending slack ops world m hplain _ haligned hending hat hgrows
    h hm
  simp only [Stmt.plain, Bool.and_eq_true] at hplain
  obtain ⟨⟨⟨hpinit, hptest⟩, hppost⟩, hpbody⟩ := hplain
  simp only [Stmt.aligned, Bool.and_eq_true, Bool.or_eq_true] at haligned
  obtain ⟨n, ⟨p₁, p₂, p₃, p₄, hinitAt, htestAt, hbranch, hbodyAt, hpostAt, hback, hle, hle', hnull⟩,
    hend⟩ := h
  -- what is known on the way
  have hinner : (a.withSymbols a.symbols.enterBlock).symbols.Flat table := hat.flat.enterBlock
  have hw₁ := (StmtAt.widens init hpinit (fun h => absurd h (by simp)) hinner hinitAt).1
  have hw₂ := ExprAt.widens test hptest (fun h => absurd h (by simp)) hw₁.grows.flat htestAt
  have hw₃ := StmtsAt.binds body hpbody (a := p₂.skip Op.jumpNotTruthy.size) hw₂.grows.flat hbodyAt
  have hw₄ := (StmtAt.widens post hppost (fun h => absurd h (by simp)) hw₃.grows.flat hpostAt).1
  obtain ⟨block, hblocks₁, hadds⟩ := hw₁.adds ∅ a.blocks rfl
  have hn : n.symbols = p₄.symbols := hnull.symbols_eq
  have hb : b.symbols = p₄.symbols.leaveBlock :=
    hend.symbols_eq.trans (congrArg Symbols.leaveBlock hn)
  have hgrows₄ : Symbols.Grows table p₄.symbols final := by
    rw [hb] at hgrows
    exact (Symbols.Grows.leaveBlock hw₄.grows.flat).trans hgrows
  have hgrows₁ := ((hw₂.grows.trans hw₃.grows).trans hw₄.grows).trans hgrows₄
  -- the init part, in the new scope
  rw [Stmt.mirrored, stmt]
  show Simulates exe table final setting.target m ((stmt table fuel
    (Level.env (⟨world.scopes.next, []⟩ :: setting.levels)) init.mirrored >>= fun _ =>
      iterate table fuel (Level.env (⟨world.scopes.next, []⟩ :: setting.levels)) test.mirrored
        post.mirrored (Stmt.mirroredAll body)) { world with scopes := world.scopes.add true }) _
  have hat₀ : Setting.At table final
      ⟨false, setting.later, setting.target, ⟨world.scopes.next, []⟩ :: setting.levels⟩ d pending
      slack ops (a.withSymbols a.symbols.enterBlock) :=
    ⟨hinner, fun h => absurd h (by simp), Level.covers_cons hat.covers _ [], hat.counted,
      hat.suffix, fun t ht scopes globals hagrees => hat.leaves t ht scopes globals hagrees.leave,
      fun _ => by simp⟩
  refine (hinit setting.target setting.later (Stmt.pending init.binds body) _ setting.levels _ p₁ d
    pending slack ops _ m hpinit haligned.1 hat₀ hgrows₁ hinitAt
    (fun other _ => .inr List.not_mem_nil) hm.enter).bind fun v world₁ m₁ hv hm₁ => ?_
  have hgoes : init.diverts = false := by
    cases hdiverts : init.diverts with
    | false => rfl
    | true => exact absurd hv (stmt_diverts init.mirrored (by rwa [Stmt.diverts_mirrored]))
  obtain ⟨⟨hatest, habody⟩, hapost⟩ := haligned.2.resolve_left (by rw [hgoes]; decide)
  -- the iterations
  have hround : Round exe table final setting.target init.binds setting.later
      ⟨world.scopes.next, Stmt.pending init.binds body⟩ setting.levels
      (init.depthAfter setting.exit d) pending (init.slackAfter pending slack) ops test post body
      p₁ p₂ p₃ p₄ := by
    refine ⟨rfl, ⟨hptest, hppost, hpbody⟩, ⟨hatest, hapost, habody⟩, hat.covers, ?_,
      ⟨block, a.blocks, hblocks₁, hadds.there⟩, hgrows₄, htestAt, hbranch, hbodyAt, hpostAt, hback,
      ⟨hle, hle'⟩⟩
    refine ⟨hw₁.grows.flat, fun h => absurd h (by simp), Level.covers_cons hat.covers _ _,
      hat.counted.after init, hat.suffix, fun t ht scopes globals hagrees => ?_, fun _ => by simp⟩
    have hagrees : Agrees final.table.level scopes globals (_ :: setting.levels) p₁.blocks :=
      hagrees
    rw [show p₁.blocks = block :: a.blocks from hblocks₁] at hagrees
    exact hat.leaves t ht scopes globals hagrees.leave
  refine (hiterate setting.target init.binds setting.later _ setting.levels _ pending _ ops p₁ p₂ p₃
    p₄ world₁ m₁ hround hm₁).after fun value world₂ m₂ _ hm₂ => ?_
  obtain ⟨rfl, hm₂⟩ := hm₂
  rw [show p₁.blocks = block :: a.blocks from hblocks₁] at hm₂
  refine (hnull.follows_literal .null rfl rfl hm₂.leave).bind fun m₃ hm₃ => ?_
  exact hend.follows hending hm₃

end

end Scriptlet
