import Scriptlet.Proofs.Layout.Compiled
import Scriptlet.Proofs.WellFormed.Instructions

/-!
# The instructions of the top level

Only functions return `null` of themselves: the code of statements contains no such instruction, but
for the code of the functions made in it, which stands elsewhere (`StmtsAt.chain`). If a program
ends with a statement that has a value, then its last instruction drops that value
(`StmtsAt.chain_pop`), and the end of the code is reached from there only (`MainCode`).

This matters because the result of a program is the value in the slot above the top of the stack. A
`returnNull` at the top level would end the program without having written that slot, and so would a
jump to the end of the code; both are ruled out here, from the layout alone.
-/

namespace Scriptlet

/-! ## Chains

A chain is a stretch of code whose instructions are known to exclude one operation. It forgets which
instructions they are, so chains compose by `Chain.trans` without any lists in sight. -/

/-- **The code from `p` to `q` consists of instructions, none of which returns `null`.** -/
def Chain (code : Code) (p q : Nat) : Prop :=
  ∃ instrs, Tiles code p q instrs ∧ ∀ i ∈ instrs, i.op ≠ .returnNull

section Chain

variable {code : Code} {p q r : Nat}

theorem Chain.refl (code : Code) (p : Nat) : Chain code p p :=
  ⟨[], rfl, fun _ h => absurd h List.not_mem_nil⟩

theorem Chain.trans (h : Chain code p q) (h' : Chain code q r) : Chain code p r := by
  obtain ⟨instrs, htiles, hops⟩ := h
  obtain ⟨more, hmore, hops'⟩ := h'
  exact ⟨instrs ++ more, htiles.append hmore, fun i hi =>
    (List.mem_append.mp hi).elim (hops i) (hops' i)⟩

end Chain

/-! ## Parts of a layout

One lemma for each combinator of a layout, in the pattern of `Proofs/Layout/Reach.lean`: what is to
be shown of the whole is a hypothesis on the parts. -/

section Parts

variable {code : Code} {constants : Array Value} {a b : Point}

theorem OpAt.chain {op : Op} {operands : List Nat} (h : OpAt code op operands a b)
    (hop : op ≠ .returnNull) : Chain code a.position b.position := by
  obtain ⟨hinstr, rfl⟩ := h
  exact ⟨[⟨a.position, op, operands⟩], ⟨rfl, hinstr, rfl⟩, fun i hi => by
    rwa [List.mem_singleton.mp hi]⟩

theorem ConstAt.chain {value : Value} (h : ConstAt code constants value a b) :
    Chain code a.position b.position := by
  have hchain := h.2.2.chain nofun
  exact hchain

theorem LoadAt.chain {symbol : Symbol} (h : LoadAt code symbol a b) :
    Chain code a.position b.position := by
  unfold LoadAt at h
  split at h
  · exact h.2.chain nofun
  all_goals exact OpAt.chain h nofun

theorem StoreAt.chain {symbol : Symbol} (h : StoreAt code symbol a b) :
    Chain code a.position b.position := by
  unfold StoreAt at h
  split at h
  · exact h.2.chain nofun
  · exact h.2.chain nofun
  · exact OpAt.chain h nofun
  · have hchain := h.2.chain nofun
    exact hchain

theorem PopsAt.chain {count : Nat} (h : PopsAt code count a b) :
    Chain code a.position b.position := by
  induction count generalizing a with
  | zero =>
    obtain rfl : b = a := h
    exact .refl code _
  | succ count ih =>
    obtain ⟨m, hop, hrest⟩ := h
    exact (hop.chain nofun).trans (ih hrest)

theorem EndAt.chain {ending : Ending} (h : EndAt code ending a b) :
    Chain code a.position b.position := by
  cases ending with
  | keep =>
    obtain rfl : b = a := h
    exact .refl code _
  | drop | give => exact OpAt.chain h nofun

theorem BranchAt.chain {closing : Closing} {body : Ending → Point → Point → Prop}
    (hbody : ∀ ending b, body ending a b → Chain code a.position b.position)
    (h : BranchAt code closing body a b) : Chain code a.position b.position := by
  unfold BranchAt at h
  split at h
  · exact hbody _ _ h
  · obtain ⟨m, hm, hop⟩ := h
    exact (hbody _ _ hm).trans (hop.chain nofun)

theorem CondAt.chain {test yes no : Point → Point → Prop}
    (htest : ∀ b, test a b → Chain code a.position b.position)
    (hyes : ∀ a b, yes a b → Chain code a.position b.position)
    (hno : ∀ a b, no a b → Chain code a.position b.position)
    (h : CondAt code test yes no a b) : Chain code a.position b.position := by
  obtain ⟨m, n, ht, hbranch, hy, hjump, -, -, hn⟩ := h
  exact ((htest _ ht).trans (hbranch.chain nofun)).trans ((hyes _ _ hy).trans
    ((hjump.chain nofun).trans (hno _ _ hn)))

/-- The code of a function stands elsewhere. What is left of the function at its place is the
instruction that makes the closure, so nothing is asked of its body, which may well end with
`returnNull`. -/
theorem FunctionAt.chain {params : List String} {body : Code → Point → Point → Prop}
    (h : FunctionAt code constants params body a b) : Chain code a.position b.position := by
  obtain ⟨i, id, fn, inner, -, -, -, -, -, -, -, -, symbols, -, hop⟩ := h
  have hchain := hop.chain nofun
  exact hchain

theorem LoopAt.chain {init test post : Point → Point → Prop}
    {body : (onBreak onContinue : Nat) → Point → Point → Prop}
    (hinit : ∀ b, init a b → Chain code a.position b.position)
    (htest : ∀ a b, test a b → Chain code a.position b.position)
    (hpost : ∀ a b, post a b → Chain code a.position b.position)
    (hbody : ∀ onBreak onContinue a b, body onBreak onContinue a b →
      Chain code a.position b.position)
    (h : LoopAt code init test post body a b) : Chain code a.position b.position := by
  obtain ⟨m₁, m₂, m₃, m₄, h₁, h₂, hleave, h₃, h₄, hback, -, -, hnull⟩ := h
  have hround := (hbody _ _ _ _ h₃).trans ((hpost _ _ h₄).trans (hback.chain nofun))
  exact ((hinit _ h₁).trans (htest _ _ h₂)).trans
    ((hleave.chain nofun).trans (hround.trans (hnull.chain nofun)))

theorem ExitAt.chain {target : Exit → Nat} {exit : Option Exit} {d : Nat}
    (h : ExitAt code target exit d a b) : Chain code a.position b.position := by
  obtain ⟨exit', m, -, hpops, hop, -⟩ := h
  exact hpops.chain.trans (hop.chain nofun)

end Parts

theorem infixOp?_ne_returnNull {op : Token} {o : Op} (h : Compilation.infixOp? op = some o) :
    o ≠ .returnNull := by
  rintro rfl
  cases op <;> simp [Compilation.infixOp?] at h

theorem prefixOp?_ne_returnNull {op : Token} {o : Op} (h : Compilation.prefixOp? op = some o) :
    o ≠ .returnNull := by
  rintro rfl
  cases op <;> simp [Compilation.prefixOp?] at h

section Layout

variable {code : Code} {constants : Array Value}

mutual

/-- **The code of an expression is a chain.** Recursion on the syntax; the bodies of functions are
not entered. -/
theorem ExprAt.chain {exit : Option Exit} : (e : Expr) → ∀ {d : Nat} {a b : Point},
    ExprAt code constants exit d e a b → Chain code a.position b.position
  | .int _, _, _, _, h | .float _, _, _, _, h | .str _, _, _, _, h => ConstAt.chain h
  | .bool v, _, _, _, h => OpAt.chain h (by cases v <;> decide)
  | .ident name, _, a, _, h => by
    have hload := LoadAt.chain h
    exact hload
  | .infixOp left op right, d, a, b, h => by
    rw [ExprAt] at h
    split at h
    -- the operands of `<` stand in reverse
    · obtain ⟨m, n, hright, hleft, hop⟩ := h
      exact (ExprAt.chain right hright).trans
        ((ExprAt.chain left hleft).trans (hop.chain nofun))
    · obtain ⟨o, m, n, ho, hleft, hright, hop⟩ := h
      exact (ExprAt.chain left hleft).trans ((ExprAt.chain right hright).trans
        (hop.chain (infixOp?_ne_returnNull ho)))
  | .prefixOp op operand, d, a, b, h => by
    obtain ⟨o, m, ho, hoperand, hop⟩ := h
    exact (ExprAt.chain operand hoperand).trans (hop.chain (prefixOp?_ne_returnNull ho))
  | .cond test yes no, d, a, b, h => by
    cases no with
    | none =>
      exact CondAt.chain (fun _ h => ExprAt.chain test h)
        (fun _ _ h => BranchAt.chain (fun _ _ h => StmtsAt.chain yes h) h)
        (fun _ _ h => OpAt.chain h (by decide)) h
    | some no =>
      exact CondAt.chain (fun _ h => ExprAt.chain test h)
        (fun _ _ h => BranchAt.chain (fun _ _ h => StmtsAt.chain yes h) h)
        (fun _ _ h => BranchAt.chain (fun _ _ h => StmtsAt.chain no h) h) h
  | .array elements, d, a, b, h => by
    obtain ⟨m, helements, -, hop⟩ := h
    exact (ExprsAt.chain elements helements).trans (hop.chain nofun)
  | .hash pairs, d, a, b, h => by
    obtain ⟨m, hpairs, -, hop⟩ := h
    exact (PairsAt.chain pairs hpairs).trans (hop.chain nofun)
  | .index left subscript, d, a, b, h => by
    obtain ⟨m, n, hleft, hsubscript, hop⟩ := h
    exact (ExprAt.chain left hleft).trans
      ((ExprAt.chain subscript hsubscript).trans (hop.chain nofun))
  | .fn params body, d, a, b, h => FunctionAt.chain h
  | .call callee args, d, a, b, h => by
    rw [ExprAt] at h
    split at h
    -- a quote is a constant
    · obtain ⟨id, e, -, hconst⟩ := h
      have hchain := hconst.chain
      exact hchain
    · obtain ⟨m, n, hcallee, hargs, -, hop⟩ := h
      have hchain := ExprAt.chain callee hcallee
      exact hchain.trans ((ExprsAt.chain args hargs).trans (hop.chain nofun))

theorem ExprsAt.chain {exit : Option Exit} : (es : List Expr) → ∀ {d : Nat} {a b : Point},
    ExprsAt code constants exit d es a b → Chain code a.position b.position
  | [], _, a, _, h => by
    obtain rfl : _ = a := h
    exact .refl code _
  | e :: rest, _, _, _, h => by
    obtain ⟨m, he, hrest⟩ := h
    exact (ExprAt.chain e he).trans (ExprsAt.chain rest hrest)

theorem PairsAt.chain {exit : Option Exit} : (pairs : List (Expr × Expr)) →
    ∀ {d : Nat} {a b : Point},
    PairsAt code constants exit d pairs a b → Chain code a.position b.position
  | [], _, a, _, h => by
    obtain rfl : _ = a := h
    exact .refl code _
  | (key, value) :: rest, _, _, _, h => by
    obtain ⟨m, n, hkey, hvalue, hrest⟩ := h
    exact ((ExprAt.chain key hkey).trans (ExprAt.chain value hvalue)).trans
      (PairsAt.chain rest hrest)

/-- **The code of a statement is a chain**, with any ending: a branch keeps the last value and only
a function returns it. -/
theorem StmtAt.chain {exit : Option Exit} : (s : Stmt) →
    ∀ {ending : Ending} {d : Nat} {a b : Point},
    StmtAt code constants exit ending d s a b → Chain code a.position b.position
  | .expr value, _, _, _, _, h => by
    obtain ⟨m, hvalue, hend⟩ := h
    exact (ExprAt.chain value hvalue).trans hend.chain
  | .bind name value, ending, d, a, b, h => by
    have ih := @ExprAt.chain exit value d a
    cases value with
    | fn params body =>
      obtain ⟨m, hfunction, hstore⟩ := h
      have hchain := FunctionAt.chain hfunction
      exact hchain.trans hstore.chain
    | _ =>
      obtain ⟨m, hvalue, hstore⟩ := h
      have hchain := StoreAt.chain hstore
      exact (ih hvalue).trans hchain
  | .assign name value, _, _, _, _, h => by
    obtain ⟨m, hvalue, hstore⟩ := h
    have hchain := StoreAt.chain hstore
    exact (ExprAt.chain value hvalue).trans hchain
  | .ret value, _, _, _, _, h => by
    obtain ⟨m, hvalue, hop⟩ := h
    exact (ExprAt.chain value hvalue).trans (hop.chain nofun)
  | .block body, _, _, a, _, h => by
    obtain ⟨m, hbody, rfl⟩ := h
    have hchain := StmtsAt.chain body hbody
    exact hchain
  | .loop init test post body, _, _, a, _, h => by
    obtain ⟨m, hloop, hend⟩ := h
    have hchain := LoopAt.chain (fun _ h => StmtAt.chain init h) (fun _ _ h => ExprAt.chain test h)
      (fun _ _ h => StmtAt.chain post h) (fun _ _ _ _ h => StmtsAt.chain body h) hloop
    exact hchain.trans hend.chain
  | .breakLoop, _, _, _, _, h => ExitAt.chain h
  | .continueLoop, _, _, _, _, h => ExitAt.chain h

theorem StmtsAt.chain {exit : Option Exit} : (body : List Stmt) →
    ∀ {ending : Ending} {d : Nat} {a b : Point},
    StmtsAt code constants exit ending d body a b → Chain code a.position b.position
  | [], _, _, a, _, h => by
    obtain rfl : _ = a := h
    exact .refl code _
  | s :: rest, _, _, _, _, h => by
    obtain ⟨m, h⟩ := h
    split at h
    · exact (StmtAt.chain s h.1).trans (StmtsAt.chain rest h.2)
    · exact (StmtAt.chain s h.1).trans (StmtsAt.chain rest h.2)

end

mutual

/-- **A statement that has a value ends by dropping it.** Expression statements and loops do so by
themselves, and a block by its last statement that has code. -/
theorem StmtAt.chain_pop {exit : Option Exit} : (s : Stmt) → s.closing = .value →
    ∀ {d : Nat} {a b : Point},
    StmtAt code constants exit .drop d s a b →
      ∃ q, Chain code a.position q ∧ InstrAt code q .pop [] ∧ b.position = q + Op.pop.size
  | .expr value, _, _, _, _, h => by
    obtain ⟨m, hvalue, hpop, rfl⟩ := h
    exact ⟨m.position, ExprAt.chain value hvalue, hpop, rfl⟩
  | .loop init test post body, _, _, a, _, h => by
    obtain ⟨m, hloop, hpop, rfl⟩ := h
    have hchain := LoopAt.chain (fun _ h => StmtAt.chain init h) (fun _ _ h => ExprAt.chain test h)
      (fun _ _ h => StmtAt.chain post h) (fun _ _ _ _ h => StmtsAt.chain body h) hloop
    exact ⟨m.position, hchain, hpop, rfl⟩
  | .block body, hclosing, _, a, _, h => by
    obtain ⟨m, hbody, rfl⟩ := h
    obtain ⟨q, hchain, hpop⟩ := StmtsAt.chain_pop body hclosing hbody
    exact ⟨q, hchain, hpop⟩
  | .bind _ _, h, _, _, _, _ | .assign _ _, h, _, _, _, _ | .ret _, h, _, _, _, _
  | .breakLoop, h, _, _, _, _ | .continueLoop, h, _, _, _, _ => by cases h

/-- The last statement that has code is the one with the value. Those behind it have no code, so
they end where they start. -/
theorem StmtsAt.chain_pop {exit : Option Exit} : (body : List Stmt) →
    Stmt.closingList body = .value → ∀ {d : Nat} {a b : Point},
    StmtsAt code constants exit .drop d body a b →
      ∃ q, Chain code a.position q ∧ InstrAt code q .pop [] ∧ b.position = q + Op.pop.size
  | [], h, _, _, _, _ => by cases h
  | s :: rest, hclosing, _, _, _, h => by
    rw [Stmt.closingList] at hclosing
    obtain ⟨m, h⟩ := h
    by_cases hnone : Stmt.closingList rest = .nothing
    -- the rest has no code, so the statement is the last one that does something
    · rw [if_pos hnone] at hclosing h
      obtain ⟨q, hchain, hpop, hposition⟩ := StmtAt.chain_pop s hclosing h.1
      exact ⟨q, hchain, hpop, (StmtsAt.position_eq rest hnone h.2).trans hposition⟩
    · rw [if_neg hnone] at hclosing h
      obtain ⟨q, hchain, hpop⟩ := StmtsAt.chain_pop rest hclosing h.2
      exact ⟨q, (StmtAt.chain s h.1).trans hchain, hpop⟩

end

end Layout

/-! ## Whole programs

The layout and the list of instructions from `Compilation.program_listed` are put side by side. They
describe the same code, so by `Tiles.ops_eq` they agree on positions and operations, and each
contributes what it knows. -/

/-- **The instructions of a program that ends with the value of a statement.** The last field says
that the end of the code is reached only by falling off a `pop`; that no jump leads there is part of
`jumps`, since the end is not the start of an instruction. -/
structure MainCode (code : Code) (instrs : List Instruction) : Prop where
  tiles : Tiles code 0 code.size instrs
  start : 0 ∈ starts instrs
  stored : ∀ i ∈ instrs, readBack i.op.widths i.operands = i.operands
  jumps : ∀ i ∈ instrs, ∀ target, i.target? = some target → target ∈ starts instrs
  plain : ∀ i ∈ instrs, i.op ≠ .returnNull
  last : ∀ i ∈ instrs, i.position + i.op.size = code.size → i.op = .pop

/-- Every program that ends with a value has such a list. Where it begins with an instruction is
clear: its code is not empty, for there is at least the `pop`. -/
theorem Compilation.exists_mainCode {table : BuiltinTable} {prog : Program} {exe : Executable}
    (h : Compilation.program table prog = .ok exe) (hvalue : Stmt.closingList prog = .value) :
    ∃ instrs, MainCode exe.code instrs := by
  obtain ⟨symbols, hlaid, instrs, hlisted⟩ := Compilation.program_listed h
  obtain ⟨q, ⟨front, htiles, hfront⟩, hpop, hsize⟩ := StmtsAt.chain_pop prog hvalue hlaid
  have hwhole : Tiles exe.code 0 exe.code.size (front ++ [⟨q, .pop, []⟩]) :=
    htiles.append ⟨rfl, hpop, hsize.symm⟩
  -- every instruction is one of those in front or the last one
  have hcases : ∀ i ∈ instrs, (∃ j ∈ front, j.position = i.position ∧ j.op = i.op)
      ∨ i.op = .pop := by
    intro i hi
    have hmem := List.mem_map_of_mem (f := fun i : Instruction => (i.position, i.op)) hi
    rw [hlisted.tiles.ops_eq hwhole] at hmem
    obtain ⟨j, hj, heq⟩ := List.mem_map.mp hmem
    rcases List.mem_append.mp hj with hj | hj
    · exact .inl ⟨j, hj, congrArg Prod.fst heq, congrArg Prod.snd heq⟩
    · rw [List.mem_singleton.mp hj] at heq
      exact .inr (congrArg Prod.snd heq).symm
  have hstart : 0 ∈ starts instrs := hlisted.tiles.start_mem (by
    have := Op.pop.size_pos
    simp only at hsize ⊢
    omega)
  refine ⟨instrs, hlisted.tiles, hstart, hlisted.stored,
    fun i hi target htarget => (hlisted.jumps i hi target htarget).resolve_right id,
    fun i hi => ?_, fun i hi hlast => ?_⟩
  · rcases hcases i hi with ⟨j, hj, -, hop⟩ | hop
    · rw [← hop]
      exact hfront j hj
    · rw [hop]
      decide
  · rcases hcases i hi with ⟨j, hj, hposition, hop⟩ | hop
    · have hle := htiles.end_le hj
      have hpos := Op.pop.size_pos
      rw [hposition, hop, hlast] at hle
      simp only at hsize
      omega
    · exact hop

end Scriptlet
