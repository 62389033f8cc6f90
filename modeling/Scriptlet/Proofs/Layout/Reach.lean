import Scriptlet.Proofs.Layout.Bytes
import Scriptlet.Proofs.Symbols.Bounds

/-!
# From one point of a layout to the next

A layout leads forward: its end is not before its start (`Point.Reaches.position`), and the symbols
at its end have evolved from those at its start (`Point.Reaches.symbols`). An expression takes at
least one byte, so its end lies behind its start; a statement may take none.

Everything that is later said about a point inside a layout goes through this relation. The position
says that the instructions of one part lie before those of the next, which is what makes the pieces
of a program disjoint. The symbols say that a slot, a cell or a global that was handed out at one
point keeps its meaning at every later one.

The proof follows the layout: one lemma for each combinator (`CondAt`, `LoopAt`, `FunctionAt`, ...),
which takes the same fact about its parts as a hypothesis, and one mutual recursion over the syntax
at the end that supplies these hypotheses.
-/

namespace Scriptlet

open Symbols (Evolves)

/-- A point lies behind another one, and its symbols have evolved from those there. The number of
built-in functions is a parameter because `Evolves` says that their symbols, which stand below all
others, do not change. -/
structure Point.Reaches (builtins : Nat) (a b : Point) : Prop where
  position : a.position ≤ b.position
  symbols : Evolves builtins a.symbols b.symbols

namespace Point.Reaches

variable {builtins : Nat} {a b c : Point}

/-! ## The relation on points

A preorder, and each way of getting from a point to a next one is a step of it. A constant and bytes
that are skipped leave the symbols alone, so for them the symbols are carried over by
reflexivity. -/

theorem refl (builtins : Nat) (a : Point) : a.Reaches builtins a :=
  ⟨Nat.le_refl _, .refl builtins _⟩

theorem trans (h : a.Reaches builtins b) (h' : b.Reaches builtins c) : a.Reaches builtins c :=
  ⟨Nat.le_trans h.position h'.position, h.symbols.trans h'.symbols⟩

/-- The symbols at a point may evolve without any byte being emitted: a name is resolved or defined,
a block is entered or left. -/
theorem withSymbols {symbols : Symbols} (h : Evolves builtins a.symbols symbols) :
    a.Reaches builtins (a.withSymbols symbols) :=
  ⟨Nat.le_refl _, h⟩

theorem addConstant (builtins : Nat) (a : Point) : a.Reaches builtins a.addConstant :=
  ⟨Nat.le_refl _, .refl builtins _⟩

theorem skip (a : Point) (bytes : Nat) : a.Reaches builtins (a.skip bytes) :=
  ⟨Nat.le_add_right _ _, .refl builtins _⟩

end Point.Reaches

section Parts

variable (builtins : Nat) {code : Code} {constants : Array Value} {a b : Point}

/-! ## The combinators

One lemma for each combinator of a layout. Where a combinator always has an instruction of its own,
the lemma also says that its end lies strictly behind its start; the others (an `Ending` that keeps
the value, no `pop` at all, a branch whose statements have no code) may end where they begin. -/

/-- One instruction takes at least the byte of its opcode. -/
theorem OpAt.reaches {op : Op} {operands : List Nat} (h : OpAt code op operands a b) :
    a.Reaches builtins b ∧ a.position < b.position := by
  obtain ⟨-, rfl⟩ := h
  exact ⟨.skip a op.size, Nat.lt_add_of_pos_right op.size_pos⟩

/-- The end of a statement takes one byte or, where the value is kept, none. -/
theorem EndAt.reaches {ending : Ending} (h : EndAt code ending a b) : a.Reaches builtins b := by
  cases ending with
  | drop => exact (OpAt.reaches _ h).1
  | keep =>
    obtain rfl : b = a := h
    exact .refl builtins b
  | give => exact (OpAt.reaches _ h).1

/-- Induction on the number of operands that a jump drops. -/
theorem PopsAt.reaches {count : Nat} (h : PopsAt code count a b) : a.Reaches builtins b := by
  induction count generalizing a with
  | zero =>
    obtain rfl : b = a := h
    exact .refl builtins b
  | succ count ih =>
    obtain ⟨m, hop, hrest⟩ := h
    exact (hop.reaches _).1.trans (ih hrest)

/-- A constant is made, which changes no symbol, and then one instruction is emitted. -/
theorem ConstAt.reaches {value : Value} (h : ConstAt code constants value a b) :
    a.Reaches builtins b ∧ a.position < b.position := by
  obtain ⟨-, -, hop⟩ := h
  obtain ⟨hreach, hlt⟩ := hop.reaches builtins
  exact ⟨(Point.Reaches.addConstant builtins a).trans hreach, hlt⟩

/-- Whatever the kind of the symbol, it is read by one instruction. -/
theorem LoadAt.reaches {symbol : Symbol} (h : LoadAt code symbol a b) :
    a.Reaches builtins b ∧ a.position < b.position := by
  unfold LoadAt at h
  split at h
  · exact h.2.reaches _
  all_goals exact OpAt.reaches _ h

/-- Storing may define a global in the place of a built-in function; this is the only case in which
the symbols move here. -/
theorem StoreAt.reaches {symbol : Symbol} (h : StoreAt code symbol a b) :
    a.Reaches builtins b := by
  unfold StoreAt at h
  split at h
  · exact (h.2.reaches _).1
  · exact (h.2.reaches _).1
  · exact (OpAt.reaches _ h).1
  · exact (Point.Reaches.withSymbols (Symbols.defineGlobal_evolves builtins _ _)).trans
      (h.2.reaches _).1

/-- A branch is its statements, with one more instruction where these leave no value. -/
theorem BranchAt.reaches {closing : Closing} {body : Ending → Point → Point → Prop}
    (hbody : ∀ ending b, body ending a b → a.Reaches builtins b)
    (h : BranchAt code closing body a b) : a.Reaches builtins b := by
  unfold BranchAt at h
  split at h
  · exact hbody _ _ h
  · obtain ⟨m, hm, hop⟩ := h
    exact (hbody _ _ hm).trans (hop.reaches _).1

/-- The code of a function, which begins at position `0` of its own code. So this lemma is applied
to points of that code, not of the code around it. -/
theorem BodyAt.reaches {closing : Closing} {body : Ending → Point → Point → Prop}
    (hbody : ∀ ending b, body ending a b → a.Reaches builtins b)
    (h : BodyAt code closing body a b) : a.Reaches builtins b := by
  unfold BodyAt at h
  split at h
  · exact hbody _ _ h
  · exact hbody _ _ h
  · obtain ⟨m, hm, hop⟩ := h
    exact (hbody _ _ hm).trans (hop.reaches _).1

/-- The symbols behind a function are those that `leaveFunction?` gives back. That they have evolved
from the ones before it rests on the body, whose own symbols have evolved from those at its
start. -/
theorem FunctionAt.reaches {params : List String} {body : Code → Point → Point → Prop}
    (hbody : ∀ code a b, body code a b → a.Reaches builtins b)
    (h : FunctionAt code constants params body a b) :
    a.Reaches builtins b ∧ a.position < b.position := by
  obtain ⟨i, id, fn, inner, -, -, hcode, -, -, -, -, -, symbols, hleave, hop⟩ := h
  have hinner := ((Symbols.defineAll_evolves builtins _ params).trans
    (hbody _ _ _ hcode).symbols)
  have hafter := (Symbols.leaveFunction_evolves hinner hleave).1
  obtain ⟨hreach, hlt⟩ := hop.reaches builtins
  exact ⟨⟨hreach.position, hafter.trans hreach.symbols⟩, hlt⟩

/-- The three parts and the two jumps between them. The branches are asked for at every point, since
they do not start where the condition starts. -/
theorem CondAt.reaches {test yes no : Point → Point → Prop}
    (htest : ∀ b, test a b → a.Reaches builtins b)
    (hyes : ∀ a b, yes a b → a.Reaches builtins b)
    (hno : ∀ a b, no a b → a.Reaches builtins b) (h : CondAt code test yes no a b) :
    a.Reaches builtins b ∧ a.position < b.position := by
  obtain ⟨m, n, ht, -, hy, -, -, -, hn⟩ := h
  have hm := htest m ht
  have hreach := ((hm.trans (.skip m Op.jumpNotTruthy.size)).trans (hyes _ _ hy)).trans
    ((Point.Reaches.skip n Op.jump.size).trans (hno _ _ hn))
  refine ⟨hreach, ?_⟩
  have h₁ := hm.position
  have h₂ := (hyes _ _ hy).position
  have h₃ := (hno _ _ hn).position
  have hpos := Op.jump.size_pos
  simp only [Point.skip] at h₂ h₃
  omega

/-- The parts of a loop stand in the order in which a round runs them, with the jump back behind the
last one. The body is asked for with all targets of its jumps, for these say nothing about where it
lies. -/
theorem LoopAt.reaches {init test post : Point → Point → Prop}
    {body : (onBreak onContinue : Nat) → Point → Point → Prop}
    (hinit : ∀ b, init a b → a.Reaches builtins b)
    (htest : ∀ a b, test a b → a.Reaches builtins b)
    (hpost : ∀ a b, post a b → a.Reaches builtins b)
    (hbody : ∀ onBreak onContinue a b, body onBreak onContinue a b → a.Reaches builtins b)
    (h : LoopAt code init test post body a b) : a.Reaches builtins b := by
  obtain ⟨m₁, m₂, m₃, m₄, h₁, h₂, -, h₃, h₄, -, -, -, h₅⟩ := h
  exact ((hinit _ h₁).trans (htest _ _ h₂)).trans ((Point.Reaches.skip _ _).trans
    ((hbody _ _ _ _ h₃).trans ((hpost _ _ h₄).trans ((Point.Reaches.skip _ _).trans
      (h₅.reaches _).1))))

/-- A jump out of a loop, behind the `pop` instructions that drop its operands. -/
theorem ExitAt.reaches {target : Exit → Nat} {exit : Option Exit} {d : Nat}
    (h : ExitAt code target exit d a b) : a.Reaches builtins b := by
  obtain ⟨exit', m, -, hpops, hop, -⟩ := h
  exact (hpops.reaches _).trans (hop.reaches _).1

end Parts

/-! ## The layout leads forward

The mutual recursion over the syntax, with one case for each constructor that names the lemma of its
combinator. It needs no invariant besides the statement itself: the depth, the exit and the ending
are arbitrary throughout, since none of them decides where the code lies. -/

mutual

/-- **The code of an expression leads forward and takes at least one byte.** -/
theorem ExprAt.reaches (builtins : Nat) {code : Code} {constants : Array Value}
    {exit : Option Exit} : (e : Expr) → ∀ {d : Nat} {a b : Point},
      ExprAt code constants exit d e a b → a.Reaches builtins b ∧ a.position < b.position
  | .int _, _, _, _, h | .float _, _, _, _, h | .str _, _, _, _, h => ConstAt.reaches _ h
  | .bool _, _, _, _, h => OpAt.reaches _ h
  | .ident name, _, a, _, h => by
    obtain ⟨hreach, hlt⟩ := LoadAt.reaches _ h
    exact ⟨(Point.Reaches.withSymbols (Symbols.require_evolves builtins _ name)).trans hreach, hlt⟩
  | .infixOp left op right, d, a, b, h => by
    rw [ExprAt] at h
    split at h
    · obtain ⟨m, n, hright, hleft, hop⟩ := h
      have h₁ := ExprAt.reaches builtins right hright
      have h₂ := ExprAt.reaches builtins left hleft
      have h₃ := hop.reaches builtins
      exact ⟨(h₁.1.trans h₂.1).trans h₃.1, by omega⟩
    · obtain ⟨o, m, n, -, hleft, hright, hop⟩ := h
      have h₁ := ExprAt.reaches builtins left hleft
      have h₂ := ExprAt.reaches builtins right hright
      have h₃ := hop.reaches builtins
      exact ⟨(h₁.1.trans h₂.1).trans h₃.1, by omega⟩
  | .prefixOp op operand, d, a, b, h => by
    obtain ⟨o, m, -, hoperand, hop⟩ := h
    have h₁ := ExprAt.reaches builtins operand hoperand
    have h₂ := hop.reaches builtins
    exact ⟨h₁.1.trans h₂.1, by omega⟩
  | .cond test yes no, d, a, b, h => by
    cases no with
    | none =>
      exact CondAt.reaches _ (fun _ h => (ExprAt.reaches _ test h).1)
        (fun _ _ h => BranchAt.reaches _ (fun _ _ h => StmtsAt.reaches _ yes h) h)
        (fun _ _ h => (OpAt.reaches _ h).1) h
    | some no =>
      exact CondAt.reaches _ (fun _ h => (ExprAt.reaches _ test h).1)
        (fun _ _ h => BranchAt.reaches _ (fun _ _ h => StmtsAt.reaches _ yes h) h)
        (fun _ _ h => BranchAt.reaches _ (fun _ _ h => StmtsAt.reaches _ no h) h) h
  | .array elements, d, a, b, h => by
    obtain ⟨m, helements, -, hop⟩ := h
    have h₁ := ExprsAt.reaches builtins elements helements
    have h₂ := hop.reaches builtins
    exact ⟨h₁.trans h₂.1, Nat.lt_of_le_of_lt h₁.position h₂.2⟩
  | .hash pairs, d, a, b, h => by
    obtain ⟨m, hpairs, -, hop⟩ := h
    have h₁ := PairsAt.reaches builtins pairs hpairs
    have h₂ := hop.reaches builtins
    exact ⟨h₁.trans h₂.1, Nat.lt_of_le_of_lt h₁.position h₂.2⟩
  | .index left subscript, d, a, b, h => by
    obtain ⟨m, n, hleft, hsubscript, hop⟩ := h
    have h₁ := ExprAt.reaches builtins left hleft
    have h₂ := ExprAt.reaches builtins subscript hsubscript
    have h₃ := hop.reaches builtins
    exact ⟨(h₁.1.trans h₂.1).trans h₃.1, by omega⟩
  | .fn params body, d, a, b, h =>
    FunctionAt.reaches _
      (fun _ _ _ h => BodyAt.reaches _ (fun _ _ h => StmtsAt.reaches _ body h) h) h
  | .call callee args, d, a, b, h => by
    have hquotes := Symbols.quotes_evolves builtins a.symbols callee
    rw [ExprAt] at h
    split at h
    · rename_i symbols hq
      rw [hq] at hquotes
      obtain ⟨id, e, -, hconst⟩ := h
      have h₁ := hconst.reaches builtins
      exact ⟨(Point.Reaches.withSymbols hquotes).trans h₁.1, h₁.2⟩
    · rename_i symbols hq
      rw [hq] at hquotes
      obtain ⟨m, n, hcallee, hargs, -, hop⟩ := h
      have h₁ := ExprAt.reaches builtins callee hcallee
      have h₂ := ExprsAt.reaches builtins args hargs
      have h₃ := hop.reaches builtins
      -- the callee is looked at with other symbols, but it starts at the same position
      have hlt : a.position < m.position := h₁.2
      have hle := h₂.position
      exact ⟨(Point.Reaches.withSymbols hquotes).trans ((h₁.1.trans h₂).trans h₃.1), by omega⟩

/-- There may be no expressions, so this list may take no bytes. -/
theorem ExprsAt.reaches (builtins : Nat) {code : Code} {constants : Array Value}
    {exit : Option Exit} : (es : List Expr) → ∀ {d : Nat} {a b : Point},
      ExprsAt code constants exit d es a b → a.Reaches builtins b
  | [], _, a, _, h => by
    obtain rfl : _ = a := h
    exact .refl builtins _
  | e :: rest, _, _, _, h => by
    obtain ⟨m, he, hrest⟩ := h
    exact (ExprAt.reaches _ e he).1.trans (ExprsAt.reaches _ rest hrest)

/-- Likewise for the pairs of a hash. -/
theorem PairsAt.reaches (builtins : Nat) {code : Code} {constants : Array Value}
    {exit : Option Exit} : (pairs : List (Expr × Expr)) → ∀ {d : Nat} {a b : Point},
      PairsAt code constants exit d pairs a b → a.Reaches builtins b
  | [], _, a, _, h => by
    obtain rfl : _ = a := h
    exact .refl builtins _
  | (key, value) :: rest, _, _, _, h => by
    obtain ⟨m, n, hkey, hvalue, hrest⟩ := h
    exact ((ExprAt.reaches _ key hkey).1.trans (ExprAt.reaches _ value hvalue).1).trans
      (PairsAt.reaches _ rest hrest)

/-- **The code of a statement leads forward.** A block without statements takes no bytes, so the end
may be the start. A `let` of a function defines the name first and any other `let` defines it behind
its value; the symbols evolve either way. -/
theorem StmtAt.reaches (builtins : Nat) {code : Code} {constants : Array Value}
    {exit : Option Exit} : (s : Stmt) → ∀ {ending : Ending} {d : Nat} {a b : Point},
      StmtAt code constants exit ending d s a b → a.Reaches builtins b
  | .expr value, _, _, _, _, h => by
    obtain ⟨m, hvalue, hend⟩ := h
    exact (ExprAt.reaches _ value hvalue).1.trans (hend.reaches _)
  | .bind name value, ending, d, a, b, h => by
    have ih := @ExprAt.reaches builtins code constants exit value d a
    cases value with
    | fn params body =>
      obtain ⟨m, hfunction, hstore⟩ := h
      -- the name of a function is defined before the function, so that it may call itself
      have h₁ := FunctionAt.reaches builtins
        (fun _ _ _ h => BodyAt.reaches _ (fun _ _ h => StmtsAt.reaches _ body h) h) hfunction
      exact (Point.Reaches.withSymbols (Symbols.define_evolves builtins _ name)).trans
        (h₁.1.trans (hstore.reaches _))
    | _ =>
      obtain ⟨m, hvalue, hstore⟩ := h
      exact (ih hvalue).1.trans ((Point.Reaches.withSymbols
        (Symbols.define_evolves builtins _ name)).trans (hstore.reaches _))
  | .assign name value, _, _, _, _, h => by
    obtain ⟨m, hvalue, hstore⟩ := h
    exact (ExprAt.reaches _ value hvalue).1.trans ((Point.Reaches.withSymbols
      (Symbols.require_evolves builtins _ name)).trans (hstore.reaches _))
  | .ret value, _, _, _, _, h => by
    obtain ⟨m, hvalue, hop⟩ := h
    exact (ExprAt.reaches _ value hvalue).1.trans (hop.reaches _).1
  | .block body, _, _, a, _, h => by
    obtain ⟨m, hbody, rfl⟩ := h
    exact (Point.Reaches.withSymbols (Symbols.enterBlock_evolves builtins a.symbols)).trans
      ((StmtsAt.reaches _ body hbody).trans
        (Point.Reaches.withSymbols (Symbols.leaveBlock_evolves builtins m.symbols)))
  | .loop init test post body, _, _, a, _, h => by
    obtain ⟨m, hloop, hend⟩ := h
    have h₁ := LoopAt.reaches builtins (fun _ h => StmtAt.reaches _ init h)
      (fun _ _ h => (ExprAt.reaches _ test h).1) (fun _ _ h => StmtAt.reaches _ post h)
      (fun _ _ _ _ h => StmtsAt.reaches _ body h) hloop
    exact (Point.Reaches.withSymbols (Symbols.enterBlock_evolves builtins a.symbols)).trans
      (h₁.trans ((Point.Reaches.withSymbols
        (Symbols.leaveBlock_evolves builtins m.symbols)).trans (hend.reaches _)))
  | .breakLoop, _, _, _, _, h => ExitAt.reaches _ h
  | .continueLoop, _, _, _, _, h => ExitAt.reaches _ h

/-- The statements lead forward one after the other, whichever of them has the ending. -/
theorem StmtsAt.reaches (builtins : Nat) {code : Code} {constants : Array Value}
    {exit : Option Exit} : (body : List Stmt) → ∀ {ending : Ending} {d : Nat} {a b : Point},
      StmtsAt code constants exit ending d body a b → a.Reaches builtins b
  | [], _, _, a, _, h => by
    obtain rfl : _ = a := h
    exact .refl builtins _
  | s :: rest, _, _, _, _, h => by
    obtain ⟨m, h⟩ := h
    split at h
    · exact (StmtAt.reaches _ s h.1).trans (StmtsAt.reaches _ rest h.2)
    · exact (StmtAt.reaches _ s h.1).trans (StmtsAt.reaches _ rest h.2)

end

/-! ## Statements with and without code

`Stmt.closing` decides from the syntax whether a statement has code. Only blocks without code have
none: the mutual recursion goes through blocks inside blocks, and every other constructor
contradicts the hypothesis. -/

section Closing

variable {code : Code} {constants : Array Value} {exit : Option Exit}

mutual

/-- A statement without code ends where it starts. -/
theorem StmtAt.position_eq : (s : Stmt) → s.closing = .nothing →
    ∀ {ending : Ending} {d : Nat} {a b : Point}, StmtAt code constants exit ending d s a b →
      b.position = a.position
  | .block body, hclosing, _, _, _, _, h => by
    obtain ⟨m, hbody, rfl⟩ := h
    have heq := StmtsAt.position_eq body hclosing hbody
    exact heq
  | .expr _, h, _, _, _, _, _ | .bind _ _, h, _, _, _, _, _ | .assign _ _, h, _, _, _, _, _
  | .ret _, h, _, _, _, _, _ | .loop _ _ _ _, h, _, _, _, _, _ | .breakLoop, h, _, _, _, _, _
  | .continueLoop, h, _, _, _, _, _ => absurd h (by simp [Stmt.closing])

/-- If the statements have no code, then neither has any of them, for the last one that had some
would have decided `Stmt.closingList`. -/
theorem StmtsAt.position_eq : (body : List Stmt) → Stmt.closingList body = .nothing →
    ∀ {ending : Ending} {d : Nat} {a b : Point}, StmtsAt code constants exit ending d body a b →
      b.position = a.position
  | [], _, _, _, _, _, h => by
    obtain rfl := h
    rfl
  | s :: rest, hclosing, _, _, _, _, h => by
    rw [Stmt.closingList] at hclosing
    split at hclosing
    · rename_i hrest
      obtain ⟨m, h⟩ := h
      rw [if_pos hrest] at h
      rw [StmtsAt.position_eq rest hrest h.2, StmtAt.position_eq s hclosing h.1]
    · rename_i hrest
      exact absurd hclosing hrest

end

end Closing

end Scriptlet
