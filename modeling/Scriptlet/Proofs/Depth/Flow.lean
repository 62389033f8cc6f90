import Scriptlet.Proofs.Depth.Parts

/-!
# The depths of a layout

Every layout has depths: `ExprAt.typed` and `StmtAt.typed`, by induction on the syntax. An
expression that starts with `D` operands ends with one more; a statement ends with as many as it
started with, unless it diverts, in which case what stands behind it gets no depth at all.

What the induction shows of a piece of syntax is the same for each constructor, up to the layout and
the judgement: wherever the piece is laid out, at a place with `Site`, the judgement holds. That is
what `ExprFlows`, `StmtFlows` and their companions for lists say, and there is one lemma for each
constructor that derives it from the same of its parts. The recursion at the end of the file only
names the lemma for each case.
-/

namespace Scriptlet

open Symbols (Evolves)

mutual

/-- A statement that diverts has code. -/
theorem Stmt.closing_of_diverts : (s : Stmt) → s.diverts = true → s.closing ≠ .nothing
  | .block body, h => Stmt.closing_of_divertsAny body h
  | .expr _, _ | .bind _ _, _ | .assign _ _, _ | .ret _, _ | .loop _ _ _ _, _ | .breakLoop, _
  | .continueLoop, _ => by simp [Stmt.closing]

theorem Stmt.closing_of_divertsAny :
    (body : List Stmt) → Stmt.divertsAny body = true → Stmt.closingList body ≠ .nothing
  | [], h => absurd h (by simp [Stmt.divertsAny])
  | s :: rest, h => by
    rw [Stmt.closingList]
    split
    · rename_i hrest
      rw [Stmt.divertsAny, Bool.or_eq_true] at h
      rcases h with h | h
      · exact Stmt.closing_of_diverts s h
      · exact absurd hrest (Stmt.closing_of_divertsAny rest h)
    · rename_i hrest
      exact hrest

end

/-! ## What the induction shows

The hypotheses are the same for all five: the layout, the site, and that the piece is aligned if the
map is to be exact. `pending` and `slack` are handed down as `Stmt.aligned` does it. -/

section Judgements

variable (exact : Prop) (surroundings : Surroundings) (code : Code) (constants : Array Value)

/-- Wherever an expression is laid out, it leaves one operand more than it has started with. -/
def ExprFlows (e : Expr) : Prop :=
  ∀ {exit : Option Exit} {base : Nat} {a b : Point} {d D : Nat} {pending slack : Bool},
    ExprAt code constants exit d e a b → Site surroundings exit base a b d D pending slack →
    (exact → e.aligned pending slack = true) →
      Flows exact surroundings code constants exit base a b D (D + 1)

/-- Wherever expressions are laid out in turn, they leave one operand each. -/
def ExprsFlow (es : List Expr) : Prop :=
  ∀ {exit : Option Exit} {base : Nat} {a b : Point} {d D : Nat} {pending slack : Bool},
    ExprsAt code constants exit d es a b → Site surroundings exit base a b d D pending slack →
    (exact → Expr.alignedAll pending slack es = true) →
      FlowsIf exact surroundings code constants exit base (es ≠ []) a b D (D + es.length)

/-- Wherever the pairs of a hash are laid out in turn, they leave two operands each. -/
def PairsFlow (pairs : List (Expr × Expr)) : Prop :=
  ∀ {exit : Option Exit} {base : Nat} {a b : Point} {d D : Nat} {pending slack : Bool},
    PairsAt code constants exit d pairs a b → Site surroundings exit base a b d D pending slack →
    (exact → Expr.alignedPairs pending slack pairs = true) →
      FlowsIf exact surroundings code constants exit base (pairs ≠ []) a b D
        (D + 2 * pairs.length)

/-- Wherever a statement is laid out, it ends as its ending says. Only the value of a statement that
has one can be kept or returned. -/
def StmtFlows (s : Stmt) : Prop :=
  ∀ {ending : Ending} {exit : Option Exit} {base : Nat} {a b : Point} {d D : Nat}
    {pending slack : Bool},
    StmtAt code constants exit ending d s a b → (ending = .drop ∨ s.closing = .value) →
    Site surroundings exit base a b d D pending slack → (exact → s.aligned pending slack = true) →
      Falls exact surroundings code constants exit base ending s.closing s.diverts a b D

/-- Wherever statements are laid out in turn, they end as the ending says. -/
def StmtsFlow (body : List Stmt) : Prop :=
  ∀ {ending : Ending} {exit : Option Exit} {base : Nat} {a b : Point} {d D : Nat}
    {pending slack : Bool},
    StmtsAt code constants exit ending d body a b →
    (ending = .drop ∨ Stmt.closingList body = .value) →
    Site surroundings exit base a b d D pending slack →
    (exact → Stmt.alignedAll pending slack body = true) →
      Falls exact surroundings code constants exit base ending (Stmt.closingList body)
        (Stmt.divertsAny body) a b D

end Judgements

/-! ## Expressions

In front of each part of an expression there are the operands that the parts before it have left,
and so much is pending from then on: `Site.part` is given a count that has been pushed as often. -/

section Expressions

variable {exact : Prop} {surroundings : Surroundings} {code : Code} {constants : Array Value}

theorem boolean_flows (v : Bool) : ExprFlows exact surroundings code constants (.bool v) := by
  intro exit base a b d D pending slack h hs hal
  have hop : OpAt code (if v then .pushTrue else .pushFalse) [] a b := h
  exact hop.flows fun depths hlead => by cases v <;> exact hlead

theorem ident_flows (name : String) :
    ExprFlows exact surroundings code constants (.ident name) := by
  intro exit base a b d D pending slack h hs hal
  have hload := (LoadAt.reaches surroundings.builtins h).1
  exact .of_symbols (LoadAt.flows (hload.bound hs.bound) hs.max
    (Symbols.require_within name hs.bounded) h)

/-- Two operands in turn and the instruction that takes them. -/
theorem binary_flows {first second : Expr} {op : Op} {exit : Option Exit} {base : Nat}
    {a m n b : Point} {d D : Nat} {pending slack : Bool}
    (ih₁ : ExprFlows exact surroundings code constants first)
    (ih₂ : ExprFlows exact surroundings code constants second)
    (h₁ : ExprAt code constants exit d first a m)
    (h₂ : ExprAt code constants exit (d + 1) second m n) (hop : OpAt code op [] n b)
    (hs : Site surroundings exit base a b d D pending slack)
    (hal : exact → first.aligned pending slack = true ∧ second.aligned true slack = true)
    (hfits : ∀ depths, Leads exact depths (n.position + op.size) (D + 1) →
      Fits exact surroundings constants depths n.position (D + 2) op []) :
    Flows exact surroundings code constants exit base a b D (D + 1) := by
  have hr₁ := (ExprAt.reaches surroundings.builtins first h₁).1
  have hr₂ := (ExprAt.reaches surroundings.builtins second h₂).1
  have hr₃ := (hop.reaches surroundings.builtins).1
  have hfirst := ih₁ h₁ (hs.part (.refl _ a) (hr₂.trans hr₃) hs.counted) fun he => (hal he).1
  have hsecond := ih₂ h₂ (hs.part hr₁ hr₃ (hs.counted.push 1)) fun he => (hal he).2
  exact hfirst.seq (hsecond.seq (hop.flows hfits) hr₂ hr₃) hr₁ (hr₂.trans hr₃)

/-- The operands of `<` are evaluated in the opposite order, and compared by `greaterThan`. -/
theorem infix_flows {left right : Expr} (op : Token)
    (ihl : ExprFlows exact surroundings code constants left)
    (ihr : ExprFlows exact surroundings code constants right) :
    ExprFlows exact surroundings code constants (.infixOp left op right) := by
  intro exit base a b d D pending slack h hs hal
  rw [ExprAt] at h
  split at h
  · rename_i hop
    obtain ⟨m, n, hright, hleft, hgt⟩ := h
    refine binary_flows ihr ihl hright hleft hgt hs (fun he => ?_)
      fun depths hlead => ⟨Nat.le_add_left 2 D, hlead⟩
    have := hal he
    rwa [Expr.aligned, if_pos hop, Bool.and_eq_true] at this
  · rename_i hop
    obtain ⟨o, m, n, ho, hleft, hright, hop'⟩ := h
    refine binary_flows ihl ihr hleft hright hop' hs (fun he => ?_)
      fun depths hlead => fits_infixOp ho hlead
    have := hal he
    rwa [Expr.aligned, if_neg hop, Bool.and_eq_true] at this

/-- The operator takes the operand and leaves its result. -/
theorem prefix_flows {operand : Expr} (op : Token)
    (ih : ExprFlows exact surroundings code constants operand) :
    ExprFlows exact surroundings code constants (.prefixOp op operand) := by
  intro exit base a b d D pending slack h hs hal
  obtain ⟨o, m, ho, hoperand, hop⟩ := h
  have hr₁ := (ExprAt.reaches surroundings.builtins operand hoperand).1
  have hr₂ := (hop.reaches surroundings.builtins).1
  exact (ih hoperand (hs.part (.refl _ a) hr₂ hs.counted) hal).seq
    (hop.flows fun depths hlead => fits_prefixOp ho hlead) hr₁ hr₂

/-- The subscript is on top of the container when they are taken. -/
theorem index_flows {left subscript : Expr}
    (ihl : ExprFlows exact surroundings code constants left)
    (ihs : ExprFlows exact surroundings code constants subscript) :
    ExprFlows exact surroundings code constants (.index left subscript) := by
  intro exit base a b d D pending slack h hs hal
  obtain ⟨m, n, hleft, hsubscript, hop⟩ := h
  refine binary_flows ihl ihs hleft hsubscript hop hs (fun he => ?_)
    fun depths hlead => ⟨Nat.le_add_left 2 D, hlead⟩
  have := hal he
  rwa [Expr.aligned, Bool.and_eq_true] at this

/-- A branch of a condition, wherever it is placed. -/
theorem branch_flows {body : List Stmt} {exit : Option Exit} {base : Nat} {a b : Point}
    {d D : Nat} {pending slack : Bool}
    (ih : StmtsFlow exact surroundings code constants body)
    (hs : Site surroundings exit base a b d D pending slack)
    (hal : exact → Stmt.alignedAll pending slack body = true) :
    Placed surroundings.builtins a b (BranchAt code (Stmt.closingList body)
      fun ending a b => StmtsAt code constants exit ending d body a b) fun m n =>
        Flows exact surroundings code constants exit base m n D (D + 1) := fun _ _ hmn =>
  ⟨BranchAt.reaches _ (fun _ _ h => StmtsAt.reaches _ body h) hmn, fun ham hnb =>
    BranchAt.flows (fun _ h hc => StmtsAt.position_eq body hc h)
      (fun _ _ h => StmtsAt.reaches _ body h)
      (fun _ _ hend hx hxn => ih hx hend (hs.part ham (hxn.trans hnb) hs.counted) hal) hmn⟩

/-- The test of a condition or a loop, wherever it is placed. -/
theorem test_flows {test : Expr} {exit : Option Exit} {base : Nat} {a b : Point}
    {d D : Nat} {pending slack : Bool} (ih : ExprFlows exact surroundings code constants test)
    (hs : Site surroundings exit base a b d D pending slack)
    (hal : exact → test.aligned pending slack = true) :
    Placed surroundings.builtins a b (fun a b => ExprAt code constants exit d test a b)
      fun m n => Flows exact surroundings code constants exit base m n D (D + 1) := fun _ _ hmn =>
  ⟨(ExprAt.reaches surroundings.builtins test hmn).1, fun ham hnb =>
    ih hmn (hs.part ham hnb hs.counted) hal⟩

/-- Both branches start with what the test has found, and each of them leaves one value. Without a
second branch this value is `null`. -/
theorem cond_flows {test : Expr} {yes : List Stmt} {no : Option (List Stmt)}
    (iht : ExprFlows exact surroundings code constants test)
    (ihy : StmtsFlow exact surroundings code constants yes)
    (ihn : ∀ body, no = some body → StmtsFlow exact surroundings code constants body) :
    ExprFlows exact surroundings code constants (.cond test yes no) := by
  intro exit base a b d D pending slack h hs hal
  cases no with
  | none =>
    have hal' : exact →
        test.aligned pending slack = true ∧ Stmt.alignedAll pending slack yes = true := by
      intro he
      simpa [Expr.aligned] using hal he
    refine CondAt.flows (test_flows iht hs fun he => (hal' he).1)
      (branch_flows ihy hs fun he => (hal' he).2) (fun m n hmn => ?_) h
    have hop : OpAt code .pushNull [] m n := hmn
    exact ⟨(hop.reaches _).1, fun _ _ => hop.flows fun depths hlead => hlead⟩
  | some no =>
    have hal' : exact → test.aligned pending slack = true
        ∧ Stmt.alignedAll pending slack yes = true ∧ Stmt.alignedAll pending slack no = true := by
      intro he
      simpa [Expr.aligned, and_assoc] using hal he
    exact CondAt.flows (test_flows iht hs fun he => (hal' he).1)
      (branch_flows ihy hs fun he => (hal' he).2.1)
      (branch_flows (ihn no rfl) hs fun he => (hal' he).2.2) h

/-- The array takes the place of all its elements. -/
theorem array_flows {elements : List Expr}
    (ih : ExprsFlow exact surroundings code constants elements) :
    ExprFlows exact surroundings code constants (.array elements) := by
  intro exit base a b d D pending slack h hs hal
  obtain ⟨m, helements, hcount, hop⟩ := h
  have hr₁ := ExprsAt.reaches surroundings.builtins elements helements
  have hr₂ := (hop.reaches surroundings.builtins).1
  exact (ih helements (hs.part (.refl _ a) hr₂ hs.counted) hal).after
    (hop.flows fun depths hlead =>
      ⟨hcount, Nat.le_add_left _ D, by rwa [Nat.add_sub_cancel]⟩) hr₁ hr₂

/-- The hash takes the place of its keys and values, twice as many as there are pairs. -/
theorem hash_flows {pairs : List (Expr × Expr)}
    (ih : PairsFlow exact surroundings code constants pairs) :
    ExprFlows exact surroundings code constants (.hash pairs) := by
  intro exit base a b d D pending slack h hs hal
  obtain ⟨m, hpairs, hcount, hop⟩ := h
  have hr₁ := PairsAt.reaches surroundings.builtins pairs hpairs
  have hr₂ := (hop.reaches surroundings.builtins).1
  exact (ih hpairs (hs.part (.refl _ a) hr₂ hs.counted) hal).after
    (hop.flows fun depths hlead =>
      ⟨hcount, Nat.mul_mod_right 2 _, Nat.le_add_left _ D, by rwa [Nat.add_sub_cancel]⟩) hr₁ hr₂

/-- A call of `quote` is a constant. Any other call takes the callee and the arguments, which are
pushed in this order. -/
theorem call_flows {callee : Expr} {args : List Expr}
    (ihc : ExprFlows exact surroundings code constants callee)
    (iha : ExprsFlow exact surroundings code constants args) :
    ExprFlows exact surroundings code constants (.call callee args) := by
  intro exit base a b d D pending slack h hs hal
  have hquotes := Symbols.quotes_evolves surroundings.builtins a.symbols callee
  rw [ExprAt] at h
  split at h
  · obtain ⟨id, e, -, hconst⟩ := h
    exact .of_symbols (hconst.flows trivial)
  · rename_i symbols hq
    rw [hq] at hquotes
    obtain ⟨m, n, hcallee, hargs, hcount, hop⟩ := h
    have hr₀ := Point.Reaches.withSymbols hquotes
    have hr₁ := (ExprAt.reaches surroundings.builtins callee hcallee).1
    have hr₂ := ExprsAt.reaches surroundings.builtins args hargs
    have hr₃ := (hop.reaches surroundings.builtins).1
    have hal' : exact →
        callee.aligned pending slack = true ∧ Expr.alignedAll true slack args = true := by
      intro he
      have := hal he
      rwa [Expr.aligned, Bool.and_eq_true] at this
    have hfirst := ihc hcallee (hs.part hr₀ (hr₂.trans hr₃) hs.counted) fun he => (hal' he).1
    have hrest := iha hargs (hs.part (hr₀.trans hr₁) hr₃ (hs.counted.push 1))
      fun he => (hal' he).2
    have hcall : Flows exact surroundings code constants exit base n b (D + 1 + args.length)
        (D + 1) :=
      hop.flows fun depths hlead => ⟨hcount, by omega, by rwa [Nat.add_sub_cancel]⟩
    exact .of_symbols (hfirst.seq (hrest.after hcall hr₂ hr₃) hr₁ (hr₂.trans hr₃))

theorem exprs_flow_nil : ExprsFlow exact surroundings code constants [] := by
  intro exit base a b d D pending slack h hs hal
  obtain rfl : b = a := h
  exact flowsIf_nil b D (by simp)

/-- The rest is laid out with the value of the first expression pending, and starts one operand
higher. -/
theorem exprs_flow_cons {e : Expr} {rest : List Expr}
    (ihe : ExprFlows exact surroundings code constants e)
    (ihr : ExprsFlow exact surroundings code constants rest) :
    ExprsFlow exact surroundings code constants (e :: rest) := by
  intro exit base a b d D pending slack h hs hal
  obtain ⟨m, he, hrest⟩ := h
  have hr₁ := (ExprAt.reaches surroundings.builtins e he).1
  have hr₂ := ExprsAt.reaches surroundings.builtins rest hrest
  have hal' : exact →
      e.aligned pending slack = true ∧ Expr.alignedAll true slack rest = true := by
    intro he
    have := hal he
    rwa [Expr.alignedAll, Bool.and_eq_true] at this
  have hfirst := ihe he (hs.part (.refl _ a) hr₂ hs.counted) fun he => (hal' he).1
  have hnext := ihr hrest (hs.part hr₁ (.refl _ b) (hs.counted.push 1)) fun he => (hal' he).2
  have hlength : D + 1 + rest.length = D + (e :: rest).length := by
    rw [List.length_cons]
    omega
  rw [hlength] at hnext
  exact (hnext.before hfirst hr₁ hr₂).flowsIf (List.cons_ne_nil e rest)

theorem pairs_flow_nil : PairsFlow exact surroundings code constants [] := by
  intro exit base a b d D pending slack h hs hal
  obtain rfl : b = a := h
  exact flowsIf_nil b D (by simp)

/-- The value of a pair is laid out with its key pending, and the rest with both. -/
theorem pairs_flow_cons {key value : Expr} {rest : List (Expr × Expr)}
    (ihk : ExprFlows exact surroundings code constants key)
    (ihv : ExprFlows exact surroundings code constants value)
    (ihr : PairsFlow exact surroundings code constants rest) :
    PairsFlow exact surroundings code constants ((key, value) :: rest) := by
  intro exit base a b d D pending slack h hs hal
  obtain ⟨m, n, hkey, hvalue, hrest⟩ := h
  have hr₁ := (ExprAt.reaches surroundings.builtins key hkey).1
  have hr₂ := (ExprAt.reaches surroundings.builtins value hvalue).1
  have hr₃ := PairsAt.reaches surroundings.builtins rest hrest
  have hal' : exact → (key.aligned pending slack = true ∧ value.aligned true slack = true)
      ∧ Expr.alignedPairs true slack rest = true := by
    intro he
    have := hal he
    rwa [Expr.alignedPairs, Bool.and_eq_true, Bool.and_eq_true] at this
  have hfirst := ihk hkey (hs.part (.refl _ a) (hr₂.trans hr₃) hs.counted) fun he => (hal' he).1.1
  have hsecond := ihv hvalue (hs.part hr₁ hr₃ (hs.counted.push 1)) fun he => (hal' he).1.2
  have hnext := ihr hrest (hs.part (hr₁.trans hr₂) (.refl _ b) (hs.counted.push 2))
    fun he => (hal' he).2
  have hlength : D + 2 + 2 * rest.length = D + 2 * ((key, value) :: rest).length := by
    rw [List.length_cons]
    omega
  rw [hlength] at hnext
  exact (hfirst.seq (hnext.before hsecond hr₂ hr₃) hr₁ (hr₂.trans hr₃)).flowsIf
    (List.cons_ne_nil _ rest)

end Expressions

/-! ## Statements

A statement is laid out with an ending, and what it ends with depends on it. Statements that divert
end nowhere, and nothing is claimed of the place behind them. -/

section Statements

variable {exact : Prop} {surroundings : Surroundings} {code : Code} {constants : Array Value}

theorem value_flows {value : Expr} (ih : ExprFlows exact surroundings code constants value) :
    StmtFlows exact surroundings code constants (.expr value) := by
  intro ending exit base a b d D pending slack h hending hs hal
  obtain ⟨m, hvalue, hend⟩ := h
  have hr₁ := (ExprAt.reaches surroundings.builtins value hvalue).1
  have hr₂ := hend.reaches surroundings.builtins
  exact (ih hvalue (hs.part (.refl _ a) hr₂ hs.counted) hal).falls_end hr₁ hend rfl

/-- The name of a function is defined before its body is compiled, so that the function can call
itself. -/
theorem bind_fn_flows (name : String) (params : List String) (body : List Stmt) :
    StmtFlows exact surroundings code constants (.bind name (.fn params body)) := by
  intro ending exit base a b d D pending slack h hending hs hal
  obtain rfl : ending = .drop := by simpa [Stmt.closing] using hending
  obtain ⟨m, hfunction, hstore⟩ := h
  have hr₀ := Point.Reaches.withSymbols (a := a)
    (Symbols.define_evolves surroundings.builtins a.symbols name)
  have hr₁ := (FunctionAt.reaches surroundings.builtins
    (fun _ _ _ h => BodyAt.reaches _ (fun _ _ h => StmtsAt.reaches _ body h) h) hfunction).1
  have hr₂ := hstore.reaches surroundings.builtins
  have hvalue : Flows exact surroundings code constants exit base
      (a.withSymbols (a.symbols.define name).2) m D (D + 1) :=
    FunctionAt.flows hal (hs.part hr₀ hr₂ hs.counted) hfunction
  -- the name was defined before the function, and is still there behind it
  have hwithin : (a.symbols.define name).1.Within surroundings.builtins m.symbols.table
      m.symbols.outer := by
    cases hr₁.symbols.extends_ with
    | cons hext hrest => exact (Symbols.define_within name hs.bounded).extends hext hrest
  exact (hvalue.of_symbols.store (hr₀.trans hr₁) hs hwithin hstore).falls rfl

/-- Any other value is there before its name is defined. -/
theorem bind_value_flows {name : String} {value : Expr} {exit : Option Exit} {base : Nat}
    {a b : Point} {d D : Nat} {pending slack : Bool}
    (ih : ExprFlows exact surroundings code constants value)
    (h : ∃ m, ExprAt code constants exit d value a m
      ∧ StoreAt code (m.symbols.define name).1 (m.withSymbols (m.symbols.define name).2) b)
    (hs : Site surroundings exit base a b d D pending slack)
    (hal : exact → value.aligned pending slack = true) :
    Flows exact surroundings code constants exit base a b D D := by
  obtain ⟨m, hvalue, hstore⟩ := h
  have hr₁ := (ExprAt.reaches surroundings.builtins value hvalue).1
  have hr₂ := Point.Reaches.withSymbols (a := m)
    (Symbols.define_evolves surroundings.builtins m.symbols name)
  have hr₃ := hstore.reaches surroundings.builtins
  exact (ih hvalue (hs.part (.refl _ a) (hr₂.trans hr₃) hs.counted) hal).store hr₁ hs
    (Symbols.define_within name (hr₁.bounded hs.bounded)) hstore

theorem bind_flows (name : String) {value : Expr}
    (ih : ExprFlows exact surroundings code constants value) :
    StmtFlows exact surroundings code constants (.bind name value) := by
  intro ending exit base a b d D pending slack h hending hs hal
  cases value with
  | fn params body => exact bind_fn_flows name params body h hending hs hal
  | _ =>
    obtain rfl : ending = .drop := by simpa [Stmt.closing] using hending
    exact (bind_value_flows ih h hs hal).falls rfl

/-- A name that is not defined becomes a global when it is assigned to. -/
theorem assign_flows (name : String) {value : Expr}
    (ih : ExprFlows exact surroundings code constants value) :
    StmtFlows exact surroundings code constants (.assign name value) := by
  intro ending exit base a b d D pending slack h hending hs hal
  obtain rfl : ending = .drop := by simpa [Stmt.closing] using hending
  obtain ⟨m, hvalue, hstore⟩ := h
  have hr₁ := (ExprAt.reaches surroundings.builtins value hvalue).1
  have hr₂ := Point.Reaches.withSymbols (a := m)
    (Symbols.require_evolves surroundings.builtins m.symbols name)
  have hr₃ := hstore.reaches surroundings.builtins
  exact ((ih hvalue (hs.part (.refl _ a) (hr₂.trans hr₃) hs.counted) hal).store hr₁ hs
    (Symbols.require_within name (hr₁.bounded hs.bounded)) hstore).falls rfl

/-- A `return` is left by the instruction that returns, whatever its ending asks for. -/
theorem ret_flows {value : Expr} (ih : ExprFlows exact surroundings code constants value) :
    StmtFlows exact surroundings code constants (.ret value) := by
  intro ending exit base a b d D pending slack h hending hs hal
  obtain ⟨m, hvalue, hop⟩ := h
  have hr₁ := (ExprAt.reaches surroundings.builtins value hvalue).1
  have hr₂ := (hop.reaches surroundings.builtins).1
  have hreturned := ih hvalue (hs.part (.refl _ a) hr₂ hs.counted) hal
  have hop := hop.typed exact surroundings constants (fun _ => True) (D + 1)
    fun depths _ => Nat.le_add_left 1 D
  exact (Typed.seq hr₁.position hr₂.position hreturned hop).mono (fun _ hk _ => hk.1)
    fun _ hk he => ⟨⟨hk.2, he.2⟩, trivial⟩

/-- A block is the row of its statements, with symbols of its own. -/
theorem block_flows {body : List Stmt} (ih : StmtsFlow exact surroundings code constants body) :
    StmtFlows exact surroundings code constants (.block body) := by
  intro ending exit base a b d D pending slack h hending hs hal
  obtain ⟨m, hbody, rfl⟩ := h
  have hr₁ := Point.Reaches.withSymbols
    (Symbols.enterBlock_evolves surroundings.builtins a.symbols)
  have hr₂ := Point.Reaches.withSymbols
    (Symbols.leaveBlock_evolves surroundings.builtins m.symbols)
  have hfalls := ih hbody hending (hs.part hr₁ hr₂ hs.counted) hal
  exact hfalls

/-- A statement in a row of code, wherever it is placed. -/
theorem part_flows {s : Stmt} {exit : Option Exit} {base : Nat} {a b : Point} {d D : Nat}
    {pending slack : Bool} (ih : StmtFlows exact surroundings code constants s)
    (hs : Site surroundings exit base a b d D pending slack)
    (hal : exact → s.aligned pending slack = true) :
    Placed surroundings.builtins a b (fun a b => StmtAt code constants exit .drop d s a b)
      fun m n => FlowsIf exact surroundings code constants exit base (s.closing ≠ .nothing) m n D
        D := fun _ _ hmn =>
  ⟨StmtAt.reaches _ s hmn, fun ham hnb =>
    (ih hmn (.inl rfl) (hs.part ham hnb hs.counted) hal).flowsIf
      fun hc => StmtAt.position_eq s hc hmn⟩

/-- The body of a loop, wherever it is placed in front of where it is left to. The loop has its own
count, so nothing of the place matters to the body but the depth. -/
theorem body_flows {body : List Stmt} {exit : Option Exit} {base : Nat} {a b : Point}
    {d d' D : Nat} {pending slack : Bool} (ih : StmtsFlow exact surroundings code constants body)
    (hs : Site surroundings exit base a b d D pending slack)
    (hal : exact → Stmt.alignedAll false false body = true) (onBreak onContinue : Nat) :
    Placed surroundings.builtins a b
      (fun m n => n.position ≤ onBreak ∧ n.position ≤ onContinue
        ∧ StmtsAt code constants (some ⟨d', onBreak, onContinue⟩) .drop d' body m n)
      fun m n => FlowsIf exact surroundings code constants (some ⟨d', onBreak, onContinue⟩) D
        (Stmt.closingList body ≠ .nothing) m n D D := fun _ _ ⟨hbreak, hcontinue, hmn⟩ =>
  ⟨StmtsAt.reaches _ body hmn, fun ham hnb =>
    (ih hmn (.inl rfl) (hs.inside ham hnb hbreak hcontinue) hal).flowsIf
      fun hc => StmtsAt.position_eq body hc hmn⟩

/-- A loop whose first part diverts is never entered: that part is all there is to it. -/
theorem loop_flows_diverted {init test post : Point → Point → Prop}
    {body : (onBreak onContinue : Nat) → Point → Point → Prop} {exit : Option Exit} {base : Nat}
    {ending : Ending} {closing closing' : Closing} {a b : Point} {D : Nat}
    (hinit : ∀ m, init a m → a.Reaches surroundings.builtins m
      ∧ (m.Reaches surroundings.builtins b →
        Falls exact surroundings code constants exit base .drop closing true a m D))
    (hcode : closing ≠ .nothing)
    (htest : ∀ a b, test a b → a.Reaches surroundings.builtins b)
    (hpost : ∀ a b, post a b → a.Reaches surroundings.builtins b)
    (hbody : ∀ onBreak onContinue a b, body onBreak onContinue a b →
      a.Reaches surroundings.builtins b)
    {m : Point} (h : LoopAt code init test post body a m)
    (hmb : m.Reaches surroundings.builtins b) :
    Falls exact surroundings code constants exit base ending closing' true a b D := by
  obtain ⟨m₁, m₂, m₃, m₄, h₁, h₂, hleave, h₃, h₄, hback, -, -, hnull⟩ := h
  have hrest : m₁.Reaches surroundings.builtins b :=
    (htest _ _ h₂).trans ((hleave.reaches _).1.trans ((hbody _ _ _ _ h₃).trans
      ((hpost _ _ h₄).trans ((hback.reaches _).1.trans ((hnull.reaches _).1.trans hmb)))))
  obtain ⟨ham, hinit⟩ := hinit m₁ h₁
  exact (hinit hrest).diverted hcode ham hrest

theorem loop_flows {init post : Stmt} {test : Expr} {body : List Stmt}
    (ihi : StmtFlows exact surroundings code constants init)
    (iht : ExprFlows exact surroundings code constants test)
    (ihp : StmtFlows exact surroundings code constants post)
    (ihb : StmtsFlow exact surroundings code constants body) :
    StmtFlows exact surroundings code constants (.loop init test post body) := by
  intro ending exit base a b d D pending slack h hending hs hal
  obtain ⟨m, hloop, hend⟩ := h
  have hr₀ := Point.Reaches.withSymbols (a := a)
    (Symbols.enterBlock_evolves surroundings.builtins a.symbols)
  have hr₂ := (Point.Reaches.withSymbols (a := m)
    (Symbols.leaveBlock_evolves surroundings.builtins m.symbols)).trans (hend.reaches _)
  have hal' : exact → init.aligned pending slack = true ∧ (init.diverts = true
      ∨ (test.aligned pending (init.slackAfter pending slack) = true
        ∧ Stmt.alignedAll false false body = true)
        ∧ post.aligned pending (init.slackAfter pending slack) = true) := by
    intro he
    have := hal he
    rwa [Stmt.aligned, Bool.and_eq_true, Bool.or_eq_true, Bool.and_eq_true,
      Bool.and_eq_true] at this
  cases hdiverts : init.diverts with
  -- the first part of the head is left by a jump, and nothing behind it is reached
  | true =>
    have hfalls : Falls exact surroundings code constants exit base ending .value true
        (a.withSymbols a.symbols.enterBlock) b D := loop_flows_diverted
      (fun m₁ h₁ => ⟨StmtAt.reaches _ init h₁, fun hb => by
        rw [← hdiverts]
        exact ihi h₁ (.inl rfl) (hs.part hr₀ hb hs.counted) fun he => (hal' he).1⟩)
      (Stmt.closing_of_diverts init hdiverts) (fun _ _ h => (ExprAt.reaches _ test h).1)
      (fun _ _ h => StmtAt.reaches _ post h) (fun _ _ _ _ h => StmtsAt.reaches _ body h) hloop hr₂
    rw [Stmt.diverts, hdiverts]
    exact hfalls
  -- the loop is entered: its parts are put together around the depth that it starts with
  | false =>
    have hentered := fun he => (hal' he).2.resolve_left (by rw [hdiverts]; decide)
    have hsite : Site surroundings exit base (a.withSymbols a.symbols.enterBlock) m d D pending
        slack := hs.part hr₀ hr₂ hs.counted
    have hafter : Site surroundings exit base (a.withSymbols a.symbols.enterBlock) m
        (init.depthAfter exit d) D pending (init.slackAfter pending slack) :=
      hs.part hr₀ hr₂ (hs.counted.after init)
    have hflows := LoopAt.flows (part_flows ihi hsite fun he => (hal' he).1)
      (test_flows iht hafter fun he => (hentered he).1.1)
      (body_flows ihb hafter fun he => (hentered he).1.2)
      (part_flows ihp hafter fun he => (hentered he).2) hloop
    have hr₁ := LoopAt.reaches surroundings.builtins (fun _ h => StmtAt.reaches _ init h)
      (fun _ _ h => (ExprAt.reaches _ test h).1) (fun _ _ h => StmtAt.reaches _ post h)
      (fun _ _ _ _ h => StmtsAt.reaches _ body h) hloop
    have hvalue : Flows exact surroundings code constants exit base a
        (m.withSymbols m.symbols.leaveBlock) D (D + 1) := hflows
    exact hvalue.falls_end (hr₀.trans (hr₁.trans (.withSymbols
      (Symbols.leaveBlock_evolves surroundings.builtins m.symbols)))) hend hdiverts

theorem breakLoop_flows : StmtFlows exact surroundings code constants .breakLoop := by
  intro ending exit base a b d D pending slack h hending hs hal
  exact ExitAt.falls (fun _ h e he => (h e he).1) (fun e he => (hs.ahead e he).1) hs.counted
    (fun he => by simpa [Stmt.aligned] using hal he) h

theorem continueLoop_flows : StmtFlows exact surroundings code constants .continueLoop := by
  intro ending exit base a b d D pending slack h hending hs hal
  exact ExitAt.falls (fun _ h e he => (h e he).2) (fun e he => (hs.ahead e he).2) hs.counted
    (fun he => by simpa [Stmt.aligned] using hal he) h

/-- No statements are no code, and have no value that could be kept. -/
theorem stmts_flow_nil : StmtsFlow exact surroundings code constants [] := by
  intro ending exit base a b d D pending slack h hending hs hal
  obtain rfl : b = a := h
  exact (typed_unreached _ _).mono (fun _ _ h => absurd rfl h) fun _ _ _ => trivial

/-- The last statement that has code decides about the end, and what stands behind a statement that
diverts is laid out but never reached. -/
theorem stmts_flow_cons {s : Stmt} {rest : List Stmt}
    (ihs : StmtFlows exact surroundings code constants s)
    (ihr : StmtsFlow exact surroundings code constants rest) :
    StmtsFlow exact surroundings code constants (s :: rest) := by
  intro ending exit base a b d D pending slack h hending hs hal
  have hal' : exact → s.aligned pending slack = true ∧ (s.diverts = true
      ∨ Stmt.alignedAll pending (s.slackAfter pending slack) rest = true) := by
    intro he
    have := hal he
    rwa [Stmt.alignedAll, Bool.and_eq_true, Bool.or_eq_true] at this
  rw [Stmt.closingList] at hending ⊢
  obtain ⟨m, h⟩ := h
  -- whether the rest has code decides which of the two parts has the ending of the whole
  by_cases hnone : Stmt.closingList rest = .nothing
  · -- what stands behind has no code
    rw [if_pos hnone] at h hending ⊢
    obtain ⟨hfirst, hrest⟩ := h
    have hmb : b.position = m.position := StmtsAt.position_eq rest hnone hrest
    have hrest := StmtsAt.reaches surroundings.builtins rest hrest
    have hfalls := ihs hfirst hending (hs.part (.refl _ a) hrest hs.counted)
      fun he => (hal' he).1
    have hdiverts : Stmt.divertsAny rest = false := Bool.eq_false_iff.mpr fun h =>
      Stmt.closing_of_divertsAny rest h hnone
    rw [Stmt.divertsAny, hdiverts, Bool.or_false, Falls, hmb]
    exact hfalls
  · rw [if_neg hnone] at h hending ⊢
    obtain ⟨hfirst, hrest⟩ := h
    have hr₁ := StmtAt.reaches surroundings.builtins s hfirst
    have hr₂ := StmtsAt.reaches surroundings.builtins rest hrest
    have hfalls := ihs hfirst (.inl rfl) (hs.part (.refl _ a) hr₂ hs.counted)
      fun he => (hal' he).1
    rw [Stmt.divertsAny]
    cases hdiverts : s.diverts with
    | true =>
      rw [hdiverts] at hfalls
      exact hfalls.diverted (Stmt.closing_of_diverts s hdiverts) hr₁ hr₂
    | false =>
      have hnext := ihr hrest hending (hs.part hr₁ (.refl _ b) (hs.counted.after s))
        fun he => (hal' he).2.resolve_left (by rw [hdiverts]; decide)
      have hpart := hfalls.flowsIf fun hc => StmtAt.position_eq s hc hfirst
      exact (hpart.typed.seq hr₁.position hr₂.position hnext).mono
        (fun depths hk _ => hpart.leads hk.1 (hk.2 hnone))
        fun depths hk he => ⟨⟨hk.2 hnone, he.2⟩, he.1, he.2⟩

end Statements

/-! ## The depths of expressions and statements

The recursion follows the syntax. It does not enter functions: their code is typed on its own, once
they have become constants. -/

section Depths

variable {exact : Prop} {surroundings : Surroundings} {code : Code} {constants : Array Value}

mutual

/-- **An expression that starts with `D` operands ends with one more.** -/
theorem ExprAt.typed : (e : Expr) → ExprFlows exact surroundings code constants e
  | .int _ | .float _ | .str _ => fun h _ _ => ConstAt.flows h trivial
  | .bool v => boolean_flows v
  | .ident name => ident_flows name
  | .infixOp left op right => infix_flows op (ExprAt.typed left) (ExprAt.typed right)
  | .prefixOp op operand => prefix_flows op (ExprAt.typed operand)
  | .cond test yes none =>
    cond_flows (ExprAt.typed test) (StmtsAt.typed yes) fun _ h => absurd h (by simp)
  | .cond test yes (some no) =>
    cond_flows (ExprAt.typed test) (StmtsAt.typed yes) fun _ h =>
      Option.some.inj h ▸ StmtsAt.typed no
  | .array elements => array_flows (ExprsAt.typed elements)
  | .hash pairs => hash_flows (PairsAt.typed pairs)
  | .index left subscript => index_flows (ExprAt.typed left) (ExprAt.typed subscript)
  | .fn _ _ => fun h hs hal => FunctionAt.flows hal hs h
  | .call callee args => call_flows (ExprAt.typed callee) (ExprsAt.typed args)

/-- Expressions in turn leave one operand each. -/
theorem ExprsAt.typed : (es : List Expr) → ExprsFlow exact surroundings code constants es
  | [] => exprs_flow_nil
  | e :: rest => exprs_flow_cons (ExprAt.typed e) (ExprsAt.typed rest)

/-- The pairs of a hash leave two operands each. -/
theorem PairsAt.typed :
    (pairs : List (Expr × Expr)) → PairsFlow exact surroundings code constants pairs
  | [] => pairs_flow_nil
  | (key, value) :: rest =>
    pairs_flow_cons (ExprAt.typed key) (ExprAt.typed value) (PairsAt.typed rest)

/-- **A statement ends with as many operands as it started with**, if it is left by its end. -/
theorem StmtAt.typed : (s : Stmt) → StmtFlows exact surroundings code constants s
  | .expr value => value_flows (ExprAt.typed value)
  | .bind name value => bind_flows name (ExprAt.typed value)
  | .assign name value => assign_flows name (ExprAt.typed value)
  | .ret value => ret_flows (ExprAt.typed value)
  | .block body => block_flows (StmtsAt.typed body)
  | .loop init test post body =>
    loop_flows (StmtAt.typed init) (ExprAt.typed test) (StmtAt.typed post) (StmtsAt.typed body)
  | .breakLoop => breakLoop_flows
  | .continueLoop => continueLoop_flows

/-- Statements in turn end with as many operands as they started with, if none of them diverts. -/
theorem StmtsAt.typed : (body : List Stmt) → StmtsFlow exact surroundings code constants body
  | [] => stmts_flow_nil
  | s :: rest => stmts_flow_cons (StmtAt.typed s) (StmtsAt.typed rest)

end

end Depths

end Scriptlet
