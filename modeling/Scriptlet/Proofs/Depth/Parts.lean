import Scriptlet.Proofs.Depth.Typed

/-!
# The depths of the parts of a layout

A layout is put together from few parts: single instructions, symbols that are loaded and stored,
branches, conditions, loops and functions. Each of them has depths whatever it consists of, as long
as what it consists of has. This file says so part by part, and `Scriptlet.Proofs.Depth.Flow` goes
through the syntax with it.

* **`Counted`** relates the compiler's own count of operands to the depth. The two differ where the
  count is wrong, and the induction on the syntax needs to know by how much.
* **`Flows`** is the judgement for code that is run through from its first instruction to its last:
  started with `D` operands it ends with `D'`. `FlowsIf` is the same for code that may be empty.
* **`Falls`** is the judgement for statements. What has become of the value of a statement depends
  on where it stands, and a statement that diverts is not left by its end at all.
* **`Site`** is what has to be known of the place where a part stands.

The judgements are closed under putting parts in a row (`Flows.seq`, `FlowsIf.before`,
`FlowsIf.after`), so that the depth of a row is read off its members. Only conditions and loops need
more, since they have instructions that lead somewhere else than to the next one.
-/

namespace Scriptlet

open Symbols (Evolves)

/-! ## The count of the compiler and the depth

The compiler counts operands as it goes through the syntax, and a jump out of a loop drops as many
as it has counted since the loop was entered. Its count `d` and the depth `D` agree as long as no
statement has been left by such a jump: behind one, the compiler sets its count back to that of the
loop, although the operands that were pending there are still on the stack when the code behind is
reached after all. From then on it counts too few, never too many, which is why a wrong jump leaves
operands behind but never drops one that belongs to an enclosing expression.

`Counted` is the invariant that the induction on the syntax carries. `push` and `after` are its two
steps, an operand that is put on the stack and a statement that has been passed; `inside` starts it
anew in the body of a loop. -/

/-- How the compiler's count `d` and the depth `D` are related in a loop whose body starts with
`base` operands. The flags are those of `Stmt.aligned`: without `slack` the count is right, and as
long as nothing is `pending` it is that of the loop itself. -/
structure Counted (exit : Option Exit) (base d D : Nat) (pending slack : Bool) : Prop where
  le : ∀ e, exit = some e → e.depth ≤ d
  enough : ∀ e, exit = some e → base + d ≤ D + e.depth
  right : ∀ e, exit = some e → slack = false → base + d = D + e.depth
  level : ∀ e, exit = some e → pending = false → d = e.depth ∧ D = base

namespace Counted

variable {exit : Option Exit} {base d D : Nat} {pending slack : Bool}

/-- Outside of all loops nothing is claimed, since there is no jump that could drop too few. -/
theorem outside (d D : Nat) (pending slack : Bool) : Counted none base d D pending slack :=
  ⟨fun _ h => absurd h (by simp), fun _ h => absurd h (by simp), fun _ h => absurd h (by simp),
    fun _ h => absurd h (by simp)⟩

/-- At the start of the body of a loop the count is right by definition. -/
theorem inside (d D onBreak onContinue : Nat) :
    Counted (some ⟨d, onBreak, onContinue⟩) D d D false false := by
  constructor
  all_goals
    rintro e he
    cases he
    simp

/-- Operands are put on the stack. -/
theorem push (h : Counted exit base d D pending slack) (n : Nat) :
    Counted exit base (d + n) (D + n) true slack where
  le e he := Nat.le_add_right_of_le (h.le e he)
  enough e he := by
    have := h.enough e he
    omega
  right e he hs := by
    have := h.right e he hs
    omega
  level _ _ hp := absurd hp (by decide)

/-- Behind a statement the count may be lower than before, but the depth is what it was. Where the
statement has a jump, the count is set back to that of the loop; this is slack exactly if something
was pending. -/
theorem after (h : Counted exit base d D pending slack) (s : Stmt) :
    Counted exit base (s.depthAfter exit d) D pending (s.slackAfter pending slack) := by
  cases exit with
  | none => exact outside _ D pending _
  | some e' =>
    have hle := h.le e' rfl
    have henough := h.enough e' rfl
    have hright := h.right e' rfl
    have hlevel := h.level e' rfl
    have hdepth : s.depthAfter (some e') d = if s.exits then e'.depth else d := rfl
    rw [hdepth]
    cases hexits : s.exits with
    | false =>
      have hslack : s.slackAfter pending slack = slack := by
        rw [Stmt.slackAfter, hexits, Bool.and_false, Bool.or_false]
      rw [hslack]
      exact h
    | true =>
      -- the count is now that of the loop, the depth is not
      have hslack : s.slackAfter pending slack = (slack || pending) := by
        rw [Stmt.slackAfter, hexits, Bool.and_true]
      rw [hslack]
      constructor
      all_goals
        rintro e he
        cases he
        simp only [if_true]
      · exact Nat.le_refl _
      · omega
      · intro hs
        obtain ⟨-, hp⟩ := Bool.or_eq_false_iff.mp hs
        have := hlevel hp
        omega
      · intro hp
        exact ⟨trivial, (hlevel hp).2⟩

end Counted

/-! ## Bounds

An instruction that names a local or a captured variable fits only if the function has that many.
The numbers of a function are those at the end of its body, and what is known on the way there only
grows (`Point.Reaches`), so the bound at the end is one for every point before. -/

/-- The slots and captured symbols known at a point are among those of the whole function. -/
def Point.Bound (surroundings : Surroundings) (a : Point) : Prop :=
  a.symbols.outer ≠ [] → a.symbols.table.slots ≤ surroundings.locals
    ∧ a.symbols.table.captured.size ≤ surroundings.free

namespace Point.Reaches

variable {surroundings : Surroundings} {a b : Point}

/-- What is bounded further on is bounded here. -/
theorem bound (h : a.Reaches surroundings.builtins b) (hb : b.Bound surroundings) :
    a.Bound surroundings := by
  intro houter
  cases h.symbols.extends_ with
  | cons hext hrest =>
    obtain ⟨hslots, hcaptured⟩ := hb (by rwa [Ne, ← hrest.eq_nil])
    exact ⟨Nat.le_trans hext.slots hslots, Nat.le_trans hext.size_captured hcaptured⟩

/-- Symbols that denote places that exist still do so further on. -/
theorem bounded (h : a.Reaches surroundings.builtins b)
    (ha : Symbols.Bounded surroundings.builtins a.symbols.tables) :
    Symbols.Bounded surroundings.builtins b.symbols.tables :=
  h.symbols.bounded ha

end Point.Reaches

/-- What a function captures is among the slots and captured symbols of the function around: a
symbol is captured only after it was resolved there, and never if it is a global. -/
theorem captures_within {surroundings : Surroundings} {a : Point} {symbols inner : Symbols}
    (h : Evolves surroundings.builtins symbols.enterFunction inner)
    (hleave : inner.leaveFunction? = some a.symbols)
    (hbounded : Symbols.Bounded surroundings.builtins symbols.tables)
    (hbound : a.Bound surroundings) :
    ∀ capture ∈ inner.captured.map Compilation.captureOf, capture.Within surroundings := by
  intro capture hmem
  obtain ⟨symbol, hsymbol, rfl⟩ := List.mem_map.mp hmem
  obtain ⟨hplace, hkind⟩ := (Symbols.leaveFunction_evolves h hleave).2 hbounded symbol hsymbol
  obtain ⟨name, kind, index⟩ := symbol
  cases kind with
  | global => exact absurd rfl hkind
  | builtin => exact absurd hplace (Nat.not_lt_zero _)
  | slot => exact Nat.lt_of_lt_of_le hplace.2 (hbound hplace.1).1
  | free => exact Nat.lt_of_lt_of_le hplace.2 (hbound hplace.1).2

/-! ## The judgements

`Typed` is about a piece of code from one position to another. A part of a layout stands between two
points, and promises and expects much the same each time: it promises that the machine may go on at
its start, and expects that it may go on at its end and wherever the jumps out of the innermost loop
lead. The judgements name these two shapes, so that what is said of a part is only the number of
operands before and behind it. -/

/-- The targets of the jumps out of the innermost loop are mapped to the operands at the start of
its body. -/
def ExitsLead (exact : Prop) (depths : Depths) (exit : Option Exit) (base : Nat) : Prop :=
  ∀ e, exit = some e →
    Leads exact depths e.onBreak base ∧ Leads exact depths e.onContinue base

/-- What is expected behind statements, by what has become of their end. -/
def FallsTo (exact : Prop) (depths : Depths) (p D : Nat) : Ending → Prop
  | .drop => Leads exact depths p D
  | .keep => Leads exact depths p (D + 1)
  | .give => True

/-- **Code that is run through.** It starts with `D` operands at `a` and ends with `D'` at `b`,
unless it is left by a jump out of the innermost loop, whose body starts with `base` operands. -/
def Flows (exact : Prop) (surroundings : Surroundings) (code : Code) (constants : Array Value)
    (exit : Option Exit) (base : Nat) (a b : Point) (D D' : Nat) : Prop :=
  Typed exact surroundings code constants a.position b.position
    (fun depths => Leads exact depths a.position D)
    fun depths => Leads exact depths b.position D' ∧ ExitsLead exact depths exit base

/-- **Code that may be empty**, which it is not if `coded` holds. Empty code has no position that
could be mapped, so it promises nothing; but then what is in front of it is also in front of what is
behind it. -/
structure FlowsIf (exact : Prop) (surroundings : Surroundings) (code : Code)
    (constants : Array Value) (exit : Option Exit) (base : Nat) (coded : Prop) (a b : Point)
    (D D' : Nat) : Prop where
  empty : ¬coded → b.position = a.position ∧ D' = D
  typed : Typed exact surroundings code constants a.position b.position
    (fun depths => coded → Leads exact depths a.position D)
    fun depths => Leads exact depths b.position D' ∧ ExitsLead exact depths exit base

/-- **Statements.** They start with `D` operands; what they end with depends on what has become of
the `pop` at their end, and is not asked if they divert. -/
def Falls (exact : Prop) (surroundings : Surroundings) (code : Code) (constants : Array Value)
    (exit : Option Exit) (base : Nat) (ending : Ending) (closing : Closing) (diverts : Bool)
    (a b : Point) (D : Nat) : Prop :=
  Typed exact surroundings code constants a.position b.position
    (fun depths => closing ≠ .nothing → Leads exact depths a.position D)
    fun depths => (diverts = false → FallsTo exact depths b.position D ending)
      ∧ ExitsLead exact depths exit base

/-- A part that stands somewhere between `a` and `b` is as `judgement` says. The place is not known
before the parts around it are, since their symbols come from one another. -/
def Placed (builtins : Nat) (a b : Point) (part judgement : Point → Point → Prop) : Prop :=
  ∀ m n, part m n → m.Reaches builtins n
    ∧ (a.Reaches builtins m → n.Reaches builtins b → judgement m n)

section Judgements

variable {exact : Prop} {surroundings : Surroundings} {code : Code} {constants : Array Value}
  {exit : Option Exit} {base : Nat} {coded : Prop} {a m b : Point} {D D' D'' : Nat}

theorem exitsLead_some {depths : Depths} {d onBreak onContinue : Nat}
    (hbreak : Leads exact depths onBreak base) (hcontinue : Leads exact depths onContinue base) :
    ExitsLead exact depths (some ⟨d, onBreak, onContinue⟩) base := by
  rintro e he
  cases he
  exact ⟨hbreak, hcontinue⟩

/-- An instruction that goes on at the next one. -/
theorem OpAt.flows {op : Op} {operands : List Nat} (h : OpAt code op operands a b)
    (hfits : ∀ depths, Leads exact depths (a.position + op.size) D' →
      Fits exact surroundings constants depths a.position D op operands) :
    Flows exact surroundings code constants exit base a b D D' := by
  have htyped := h.typed exact surroundings constants
    (fun depths => Leads exact depths b.position D') D fun depths hlead =>
      hfits depths (by rwa [h.2] at hlead)
  exact htyped.mono (fun _ hk => hk) fun _ _ he => he.1

/-- Where the symbols are not those of the start, the code is the same. -/
theorem Flows.of_symbols {symbols : Symbols}
    (h : Flows exact surroundings code constants exit base (a.withSymbols symbols) b D D') :
    Flows exact surroundings code constants exit base a b D D' :=
  h

/-- Two parts in a row. -/
theorem Flows.seq (h : Flows exact surroundings code constants exit base a m D D')
    (h' : Flows exact surroundings code constants exit base m b D' D'')
    (ham : a.Reaches surroundings.builtins m) (hmb : m.Reaches surroundings.builtins b) :
    Flows exact surroundings code constants exit base a b D D'' :=
  (Typed.seq ham.position hmb.position h h').mono (fun _ hk => hk.1)
    fun _ hk he => ⟨⟨hk.2, he.2⟩, he⟩

theorem Flows.flowsIf (h : Flows exact surroundings code constants exit base a b D D')
    (hcoded : coded) :
    FlowsIf exact surroundings code constants exit base coded a b D D' :=
  ⟨fun hnot => absurd hcoded hnot, Typed.mono h (fun _ hk _ => hk) fun _ _ he => he⟩

/-- Nothing at all. -/
theorem flowsIf_nil (a : Point) (D : Nat) (hcoded : ¬coded) :
    FlowsIf exact surroundings code constants exit base coded a a D D :=
  ⟨fun _ => ⟨rfl, rfl⟩,
    (typed_unreached _ _).mono (fun _ _ h => absurd h hcoded) fun _ _ _ => trivial⟩

namespace FlowsIf

/-- What leads to the end of code that may be empty is matched by what leads to its start. -/
theorem leads {depths : Depths}
    (h : FlowsIf exact surroundings code constants exit base coded a b D D)
    (hcoded : coded → Leads exact depths a.position D) (hend : Leads exact depths b.position D) :
    Leads exact depths a.position D := by
  by_cases hc : coded
  · exact hcoded hc
  · rwa [(h.empty hc).1] at hend

/-- Code that may be empty, behind code that is not. -/
theorem before (h : FlowsIf exact surroundings code constants exit base coded m b D' D'')
    (h' : Flows exact surroundings code constants exit base a m D D')
    (ham : a.Reaches surroundings.builtins m) (hmb : m.Reaches surroundings.builtins b) :
    Flows exact surroundings code constants exit base a b D D'' := by
  refine (Typed.seq ham.position hmb.position h' h.typed).mono (fun _ hk => hk.1)
    fun depths hk he => ⟨⟨?_, he.2⟩, he⟩
  by_cases hc : coded
  · exact hk.2 hc
  · obtain ⟨hposition, rfl⟩ := h.empty hc
    rw [← hposition]
    exact he.1

/-- Code that may be empty, in front of code that is not. -/
theorem after (h : FlowsIf exact surroundings code constants exit base coded a m D D')
    (h' : Flows exact surroundings code constants exit base m b D' D'')
    (ham : a.Reaches surroundings.builtins m) (hmb : m.Reaches surroundings.builtins b) :
    Flows exact surroundings code constants exit base a b D D'' := by
  refine (h.typed.seq ham.position hmb.position h').mono (fun depths hk => ?_)
    fun _ hk he => ⟨⟨hk.2, he.2⟩, he⟩
  by_cases hc : coded
  · exact hk.1 hc
  · obtain ⟨hposition, rfl⟩ := h.empty hc
    rw [← hposition]
    exact hk.2

end FlowsIf

variable {ending : Ending} {closing closing' : Closing} {diverts : Bool}

/-- Code that ends as it started is a statement whose `pop` has been kept in place. -/
theorem Flows.falls (h : Flows exact surroundings code constants exit base a b D D)
    (hdiverts : diverts = false) :
    Falls exact surroundings code constants exit base .drop closing diverts a b D :=
  Typed.mono h (fun _ hk _ => hk) fun _ _ he => ⟨he.1 hdiverts, he.2⟩

namespace Falls

/-- A statement in a row of code, where nothing depends on whether it diverts. -/
theorem flowsIf (h : Falls exact surroundings code constants exit base .drop closing diverts a b D)
    (hempty : closing = .nothing → b.position = a.position) :
    FlowsIf exact surroundings code constants exit base (closing ≠ .nothing) a b D D :=
  ⟨fun hc => ⟨hempty (Decidable.not_not.mp hc), rfl⟩,
    Typed.mono h (fun _ hk => hk) fun _ _ he => ⟨fun _ => he.1, he.2⟩⟩

/-- A statement whose value is left on the stack. -/
theorem flows (h : Falls exact surroundings code constants exit base .keep .value diverts a b D) :
    Flows exact surroundings code constants exit base a b D (D + 1) :=
  Typed.mono h (fun _ hk => hk (by decide)) fun _ _ he => ⟨fun _ => he.1, he.2⟩

/-- What stands behind a statement that diverts is never reached. -/
theorem diverted
    (h : Falls exact surroundings code constants exit base .drop closing true a m D)
    (hcode : closing ≠ .nothing) (ham : a.Reaches surroundings.builtins m)
    (hmb : m.Reaches surroundings.builtins b) :
    Falls exact surroundings code constants exit base ending closing' true a b D :=
  (Typed.seq ham.position hmb.position h (typed_unreached _ _)).mono (fun _ hk _ => hk.1 hcode)
    fun _ _ he => ⟨⟨fun h => absurd h (by decide), he.2⟩, trivial⟩

end Falls

end Judgements

/-! ## Instructions

One lemma for each group of instructions that the compiler emits together. -/

section Instructions

variable {exact : Prop} {surroundings : Surroundings} {code : Code} {constants : Array Value}
  {a b : Point} {exit : Option Exit} {base D : Nat}

/-- A constant is put on the stack. -/
theorem ConstAt.flows {value : Value} (h : ConstAt code constants value a b)
    (hvalue : value.IsLiteral) :
    Flows exact surroundings code constants exit base a b D (D + 1) := by
  obtain ⟨hi, hconst, hop⟩ := h
  refine OpAt.flows (a := a.addConstant) hop fun depths hlead =>
    ⟨?_, ⟨value, hconst, hvalue⟩, hlead⟩
  unfold Compilation.maxConstants at hi
  unfold Compilation.maxWord
  omega

/-- The value of a symbol is put on the stack. The place that the symbol denotes is there, whatever
kind it is of. -/
theorem LoadAt.flows {symbol : Symbol} (ha : a.Bound surroundings)
    (hmax : surroundings.locals ≤ Compilation.maxLocals ∧ surroundings.free ≤ Compilation.maxLocals)
    (hsymbol : symbol.Within surroundings.builtins a.symbols.table a.symbols.outer)
    (h : LoadAt code symbol a b) :
    Flows exact surroundings code constants exit base a b D (D + 1) := by
  obtain ⟨name, kind, index⟩ := symbol
  cases kind with
  | global =>
    obtain ⟨hindex, hop⟩ := h
    exact hop.flows fun depths hlead => ⟨hindex, hlead⟩
  | slot =>
    obtain ⟨houter, hindex⟩ := hsymbol
    have hlocals := Nat.lt_of_lt_of_le hindex (ha houter).1
    exact OpAt.flows h fun depths hlead => ⟨Nat.lt_of_lt_of_le hlocals hmax.1, hlocals, hlead⟩
  | builtin => exact OpAt.flows h fun depths hlead => ⟨hsymbol, hlead⟩
  | free =>
    obtain ⟨houter, hindex⟩ := hsymbol
    have hfree := Nat.lt_of_lt_of_le hindex (ha houter).2
    exact OpAt.flows h fun depths hlead => ⟨Nat.lt_of_lt_of_le hfree hmax.2, hfree, hlead⟩

/-- An operand is stored as the value of a symbol. -/
theorem StoreAt.flows {symbol : Symbol} (ha : a.Bound surroundings)
    (hmax : surroundings.locals ≤ Compilation.maxLocals ∧ surroundings.free ≤ Compilation.maxLocals)
    (hsymbol : symbol.Within surroundings.builtins a.symbols.table a.symbols.outer)
    (h : StoreAt code symbol a b) :
    Flows exact surroundings code constants exit base a b (D + 1) D := by
  obtain ⟨name, kind, index⟩ := symbol
  have hpos : 1 ≤ D + 1 := Nat.le_add_left 1 D
  cases kind with
  | global =>
    obtain ⟨hindex, hop⟩ := h
    exact hop.flows fun depths hlead => ⟨hindex, hpos, hlead⟩
  | slot =>
    obtain ⟨houter, hindex⟩ := hsymbol
    have hlocals := Nat.lt_of_lt_of_le hindex (ha houter).1
    obtain ⟨-, hop⟩ := h
    exact hop.flows fun depths hlead =>
      ⟨Nat.lt_of_lt_of_le hlocals hmax.1, hlocals, hpos, hlead⟩
  | free =>
    obtain ⟨houter, hindex⟩ := hsymbol
    have hfree := Nat.lt_of_lt_of_le hindex (ha houter).2
    exact OpAt.flows h fun depths hlead => ⟨Nat.lt_of_lt_of_le hfree hmax.2, hfree, hpos, hlead⟩
  | builtin =>
    -- a built-in function is hidden by a global of its name
    obtain ⟨hindex, hop⟩ := h
    exact Flows.of_symbols (hop.flows fun depths hlead => ⟨hindex, hpos, hlead⟩)

/-- An operator on two operands. -/
theorem fits_infixOp {op : Token} {o : Op} {depths : Depths} {p : Nat}
    (ho : Compilation.infixOp? op = some o) (hlead : Leads exact depths (p + o.size) (D + 1)) :
    Fits exact surroundings constants depths p (D + 2) o [] := by
  cases op <;> simp [Compilation.infixOp?] at ho <;> subst ho <;>
    exact ⟨Nat.le_add_left 2 D, hlead⟩

/-- An operator on one operand. -/
theorem fits_prefixOp {op : Token} {o : Op} {depths : Depths} {p : Nat}
    (ho : Compilation.prefixOp? op = some o) (hlead : Leads exact depths (p + o.size) (D + 1)) :
    Fits exact surroundings constants depths p (D + 1) o [] := by
  cases op <;> simp [Compilation.prefixOp?] at ho <;> subst ho <;>
    exact ⟨Nat.le_add_left 1 D, hlead⟩

/-- So many operands are dropped. -/
theorem PopsAt.flowsIf {count : Nat} (hcount : count ≤ D) (h : PopsAt code count a b) :
    FlowsIf exact surroundings code constants exit base (0 < count) a b D (D - count) := by
  induction count generalizing a D with
  | zero =>
    obtain rfl : b = a := h
    exact flowsIf_nil b D (by decide)
  | succ count ih =>
    obtain ⟨m, hop, hrest⟩ := h
    have hpop : Flows exact surroundings code constants exit base a m D (D - 1) :=
      hop.flows fun depths hlead => ⟨by omega, hlead⟩
    have hpops := ih (D := D - 1) (by omega) hrest
    rw [Nat.sub_sub, Nat.add_comm 1 count] at hpops
    exact (hpops.before hpop (hop.reaches _).1 (hrest.reaches _)).flowsIf (Nat.succ_pos count)

/-- **A jump out of the innermost loop** drops no more operands than there are, and none too few
where the count is right. This is the place that `Counted` is for. -/
theorem ExitAt.falls {target : Exit → Nat} {d : Nat} {pending slack : Bool} {ending : Ending}
    {closing : Closing}
    (htarget : ∀ depths, ExitsLead exact depths exit base → ∀ e, exit = some e →
      Leads exact depths (target e) base)
    (hahead : ∀ e, exit = some e → b.position ≤ target e)
    (hcounted : Counted exit base d D pending slack) (haligned : exact → slack = false)
    (h : ExitAt code target exit d a b) :
    Falls exact surroundings code constants exit base ending closing true a b D := by
  obtain ⟨e, m, rfl, hpops, hop, hword⟩ := h
  have hle := hcounted.le e rfl
  have henough := hcounted.enough e rfl
  have hright := hcounted.right e rfl
  -- the loop is left forwards, so what is asked of a jump back does not apply
  have hforward : ¬target e ≤ m.position := by
    have := (hop.reaches 0).2
    have := hahead e rfl
    omega
  have hjump := hop.typed exact surroundings constants
    (fun depths => ExitsLead exact depths (some e) base) (D - (d - e.depth)) fun depths hexits =>
      ⟨hword, (htarget depths hexits e rfl).mono (by omega) fun hexact => by
        have := hright (haligned hexact)
        omega, fun hback => absurd hback hforward⟩
  have hdrops : FlowsIf exact surroundings code constants (some e) base (0 < d - e.depth) a m D
      (D - (d - e.depth)) := hpops.flowsIf (by omega)
  refine (hdrops.typed.seq (hpops.reaches 0).position (Nat.le_of_lt (hop.reaches 0).2)
    hjump).mono (fun depths hk _ => ?_) fun depths hk he => ⟨⟨hk.2, he.2⟩, he.2⟩
  by_cases hcoded : 0 < d - e.depth
  · exact hk.1 hcoded
  · obtain ⟨hposition, hsame⟩ := hdrops.empty hcoded
    rw [← hposition, ← hsame]
    exact hk.2

end Instructions

/-! ## Where a part stands

What a part may assume of its place. It is handed on from a construct to its parts by `Site.part`,
which needs to know that the part lies inside, and to the body of a loop by `Site.inside`, where the
count starts anew. -/

/-- Where a part of a layout stands: between two points whose symbols denote places that exist, in a
loop whose operands are counted. -/
structure Site (surroundings : Surroundings) (exit : Option Exit) (base : Nat) (a b : Point)
    (d D : Nat) (pending slack : Bool) : Prop where
  ahead : ∀ e, exit = some e → b.position ≤ e.onBreak ∧ b.position ≤ e.onContinue
  max : surroundings.locals ≤ Compilation.maxLocals ∧ surroundings.free ≤ Compilation.maxLocals
  bounded : Symbols.Bounded surroundings.builtins a.symbols.tables
  bound : b.Bound surroundings
  counted : Counted exit base d D pending slack

section Site

variable {surroundings : Surroundings} {exit : Option Exit} {base : Nat} {a b m n : Point}
  {d D d' D' : Nat} {pending slack pending' slack' : Bool}

/-- A part of what stands there, possibly with more operands on the stack. -/
theorem Site.part (h : Site surroundings exit base a b d D pending slack)
    (hm : a.Reaches surroundings.builtins m) (hn : n.Reaches surroundings.builtins b)
    (hcounted : Counted exit base d' D' pending' slack') :
    Site surroundings exit base m n d' D' pending' slack' :=
  ⟨fun e he => ⟨Nat.le_trans hn.position (h.ahead e he).1,
    Nat.le_trans hn.position (h.ahead e he).2⟩, h.max, hm.bounded h.bounded, hn.bound h.bound,
    hcounted⟩

/-- The body of a loop, which is left to what stands behind it. -/
theorem Site.inside {onBreak onContinue : Nat}
    (h : Site surroundings exit base a b d D pending slack)
    (hm : a.Reaches surroundings.builtins m) (hn : n.Reaches surroundings.builtins b)
    (hbreak : n.position ≤ onBreak) (hcontinue : n.position ≤ onContinue) :
    Site surroundings (some ⟨d', onBreak, onContinue⟩) D m n d' D false false :=
  ⟨fun e he => by
    cases he
    exact ⟨hbreak, hcontinue⟩, h.max, hm.bounded h.bounded, hn.bound h.bound,
    .inside d' D onBreak onContinue⟩

end Site

/-! ## Ends, branches, conditions, loops and functions

The constructs that take statements or expressions as parts. What is known of the parts is a
hypothesis about wherever they are placed, because the recursion on the syntax that provides it is
in the next file. -/

section Parts

variable {exact : Prop} {surroundings : Surroundings} {code : Code} {constants : Array Value}
  {a b m : Point} {exit : Option Exit} {base d D : Nat} {pending slack : Bool}

/-- The value of a statement is dropped, kept or returned. -/
theorem Flows.falls_end {ending : Ending} {closing : Closing} {diverts : Bool}
    (h : Flows exact surroundings code constants exit base a m D (D + 1))
    (ham : a.Reaches surroundings.builtins m) (hend : EndAt code ending m b)
    (hdiverts : diverts = false) :
    Falls exact surroundings code constants exit base ending closing diverts a b D := by
  subst hdiverts
  cases ending with
  | drop =>
    have hop : OpAt code .pop [] m b := hend
    exact (h.seq (hop.flows fun depths hlead => ⟨Nat.le_add_left 1 D, hlead⟩) ham
      (hop.reaches _).1).falls rfl
  | keep =>
    obtain rfl : b = m := hend
    exact Typed.mono h (fun _ hk _ => hk) fun _ _ he => ⟨he.1 rfl, he.2⟩
  | give =>
    have hop : OpAt code .returnValue [] m b := hend
    have hreturn := hop.typed exact surroundings constants (fun _ => True) (D + 1)
      fun depths _ => Nat.le_add_left 1 D
    exact (Typed.seq ham.position (hop.reaches surroundings.builtins).1.position h hreturn).mono
      (fun _ hk _ => hk.1) fun _ hk he => ⟨⟨hk.2, he.2⟩, trivial⟩

/-- A value is stored. -/
theorem Flows.store {symbol : Symbol} {symbols : Symbols}
    (hvalue : Flows exact surroundings code constants exit base a m D (D + 1))
    (ham : a.Reaches surroundings.builtins m)
    (hs : Site surroundings exit base a b d D pending slack)
    (hsymbol : symbol.Within surroundings.builtins symbols.table symbols.outer)
    (hstore : StoreAt code symbol (m.withSymbols symbols) b) :
    Flows exact surroundings code constants exit base a b D D := by
  have hmb := hstore.reaches surroundings.builtins
  have hflows : Flows exact surroundings code constants exit base (m.withSymbols symbols) b (D + 1)
      D := StoreAt.flows (hmb.bound hs.bound) hs.max hsymbol hstore
  exact (Typed.seq ham.position hmb.position hvalue hflows).mono (fun _ hk => hk.1)
    fun _ hk he => ⟨⟨hk.2, he.2⟩, he⟩

/-- A branch leaves the value of its last statement, or `null` if it has none. -/
theorem BranchAt.flows {closing : Closing} {diverts : Bool} {body : Ending → Point → Point → Prop}
    (hnothing : ∀ m, body .drop a m → closing = .nothing → m.position = a.position)
    (hreaches : ∀ ending m, body ending a m → a.Reaches surroundings.builtins m)
    (hbody : ∀ ending m, ending = .drop ∨ closing = .value → body ending a m →
      m.Reaches surroundings.builtins b →
        Falls exact surroundings code constants exit base ending closing diverts a m D)
    (h : BranchAt code closing body a b) :
    Flows exact surroundings code constants exit base a b D (D + 1) := by
  unfold BranchAt at h
  split at h
  · rename_i hvalue
    subst hvalue
    exact (hbody .keep b (.inr rfl) h (.refl _ b)).flows
  · obtain ⟨m, hm, hop⟩ := h
    have hmb := (hop.reaches surroundings.builtins).1
    exact ((hbody .drop m (.inl rfl) hm hmb).flowsIf (hnothing m hm)).after
      (hop.flows fun depths hlead => hlead) (hreaches _ m hm) hmb

/-- A condition. Both branches start without the operand that was tested and end with one value, so
that the two ways to the end of the condition agree. -/
theorem CondAt.flows {test yes no : Point → Point → Prop}
    (htest : Placed surroundings.builtins a b test fun m n =>
      Flows exact surroundings code constants exit base m n D (D + 1))
    (hyes : Placed surroundings.builtins a b yes fun m n =>
      Flows exact surroundings code constants exit base m n D (D + 1))
    (hno : Placed surroundings.builtins a b no fun m n =>
      Flows exact surroundings code constants exit base m n D (D + 1))
    (h : CondAt code test yes no a b) :
    Flows exact surroundings code constants exit base a b D (D + 1) := by
  obtain ⟨m, n, ht, hleave, hy, hjump, htarget, hend, hn⟩ := h
  obtain ⟨ham, htest⟩ := htest a m ht
  obtain ⟨hmn, hyes⟩ := hyes _ _ hy
  obtain ⟨hnb, hno⟩ := hno _ _ hn
  have hm := (hleave.reaches surroundings.builtins).1
  have hn := (hjump.reaches surroundings.builtins).1
  have hrest := hmn.trans (hn.trans hnb)
  have hforward : ¬b.position ≤ n.position := by
    have : n.position + Op.jump.size ≤ b.position := hnb.position
    have := Op.jump.size_pos
    omega
  have hleaves := hleave.typed exact surroundings constants (fun depths =>
      Leads exact depths (n.position + Op.jump.size) D
        ∧ Leads exact depths (m.position + Op.jumpNotTruthy.size) D) (D + 1)
    fun depths he => ⟨htarget, Nat.le_add_left 1 D, he.1, he.2⟩
  have hjumps := hjump.typed exact surroundings constants
    (fun depths => Leads exact depths b.position (D + 1)) (D + 1)
    fun depths he => ⟨hend, he, fun hback => absurd hback hforward⟩
  have hbranches := Typed.seq hmn.position (hn.trans hnb).position
    (hyes (ham.trans hm) (hn.trans hnb))
    (hjumps.seq hn.position hnb.position (hno (ham.trans (hm.trans (hmn.trans hn))) (.refl _ b)))
  -- the two jumps are closed now: what each of them expects is known of the part where it leads
  refine (Typed.seq ham.position (hm.trans hrest).position
    (htest (.refl _ a) (hm.trans hrest))
    (hleaves.seq hm.position hrest.position hbranches)).mono (fun _ hk => hk.1)
    fun depths hk he => ?_
  obtain ⟨-, hkm, hky, hkn, hkno⟩ := hk
  exact ⟨⟨hkm, he.2⟩, ⟨hkno, hky⟩, ⟨hkn, he.2⟩, he.1, he⟩

/-- **A loop that is entered.** The positions where an iteration starts, where it goes on after a
`continue` and where the loop ends all have the depth at the start of the loop, so one more turn and
the way out are the same for the depth. -/
theorem LoopAt.flows {p q r : Prop} {d' : Nat} {init test post : Point → Point → Prop}
    {body : (onBreak onContinue : Nat) → Point → Point → Prop}
    (hinit : Placed surroundings.builtins a b init fun m n =>
      FlowsIf exact surroundings code constants exit base p m n D D)
    (htest : Placed surroundings.builtins a b test fun m n =>
      Flows exact surroundings code constants exit base m n D (D + 1))
    (hbody : ∀ onBreak onContinue, Placed surroundings.builtins a b
      (fun m n => n.position ≤ onBreak ∧ n.position ≤ onContinue ∧ body onBreak onContinue m n)
      fun m n => FlowsIf exact surroundings code constants (some ⟨d', onBreak, onContinue⟩) D q m n
        D D)
    (hpost : Placed surroundings.builtins a b post fun m n =>
      FlowsIf exact surroundings code constants exit base r m n D D)
    (h : LoopAt code init test post body a b) :
    Flows exact surroundings code constants exit base a b D (D + 1) := by
  obtain ⟨m₁, m₂, m₃, m₄, h₁, h₂, hleave, h₃, h₄, hback, hstart, hend, hnull⟩ := h
  obtain ⟨hr₁, hinit⟩ := hinit a m₁ h₁
  obtain ⟨hr₂, htest⟩ := htest m₁ m₂ h₂
  obtain ⟨hr₄, hpost⟩ := hpost m₃ m₄ h₄
  obtain ⟨hr₃, hbody⟩ := hbody _ _ _ m₃
    ⟨Nat.le_add_right_of_le hr₄.position, Nat.le_refl _, h₃⟩
  have hrl := (hleave.reaches surroundings.builtins).1
  have hrb := (hback.reaches surroundings.builtins).1
  have hrn := (hnull.reaches surroundings.builtins).1
  -- what lies between each point and the end of the loop, and between its start and each point
  have hb₄ := hrb.trans hrn
  have hb₃ := hr₄.trans hb₄
  have hbl := hr₃.trans hb₃
  have hb₂ := hrl.trans hbl
  have hb₁ := hr₂.trans hb₂
  have hal := (hr₁.trans hr₂).trans hrl
  have ha₃ := hal.trans hr₃
  have hleaves := hleave.typed exact surroundings constants (fun depths =>
      Leads exact depths (m₄.position + Op.jump.size) D
        ∧ Leads exact depths (m₂.position + Op.jumpNotTruthy.size) D) (D + 1)
    fun depths he => ⟨hend, Nat.le_add_left 1 D, he.1, he.2⟩
  have hbacks := hback.typed exact surroundings constants
    (fun depths => Leads exact depths m₁.position D
      ∧ Leads exact depths (m₄.position + Op.jump.size) D) D
    fun depths he => ⟨hstart, he.1, fun _ => he.2⟩
  have hnulls := hnull.typed exact surroundings constants
    (fun depths => Leads exact depths b.position (D + 1)) D
    fun depths he => by rwa [hnull.2] at he
  have hinit := hinit (.refl _ a) hb₁
  have hbody := hbody hal hb₃
  have hpost := hpost ha₃ hb₄
  have htail := hpost.typed.seq hr₄.position hb₄.position
    (hbacks.seq hrb.position hrn.position hnulls)
  have hwhole := hinit.typed.seq hr₁.position hb₁.position
    (Typed.seq hr₂.position hb₂.position (htest hr₁ hb₂)
      (hleaves.seq hrl.position hbl.position
        (hbody.typed.seq hr₃.position hb₃.position htail)))
  -- every jump of the loop leads to a position that is known to have the depth of its start
  refine hwhole.mono (fun depths hk => ?_) fun depths hk he => ?_
  all_goals obtain ⟨hk₁, hk₂, hkl, hk₃, hk₄, hkb, hkn⟩ := hk
  · exact hinit.leads hk₁ hk₂
  · -- parts without code are passed over
    have hnext := hpost.leads hk₄ hkb
    have hfirst := hbody.leads hk₃ hnext
    exact ⟨⟨hk₂, he.2⟩, ⟨hkl, he.2⟩, ⟨hkn, hfirst⟩, ⟨hnext, exitsLead_some hkn hnext⟩,
      ⟨hkb, he.2⟩, ⟨hk₂, hkn⟩, he.1⟩

/-- A function is made. Its code has depths of its own, and here it is only one operand more. -/
theorem FunctionAt.flows {params : List String} {body : List Stmt}
    (haligned : exact → Stmt.alignedAll false false body = true)
    (hsite : Site surroundings exit base a b d D pending slack)
    (h : FunctionAt code constants params (fun code => BodyAt code (Stmt.closingList body)
      fun ending a b => StmtsAt code constants none ending 0 body a b) a b) :
    Flows exact surroundings code constants exit base a b D (D + 1) := by
  obtain ⟨i, id, fn, inner, hi, hconst, hcode, hslots, hlocals, -, hcaptures, hcount, after, hleave,
    hop⟩ := h
  have hbody := BodyAt.reaches surroundings.builtins
    (fun _ _ h => StmtsAt.reaches _ body h) hcode
  have hlength : fn.captures.length = inner.captured.length := by rw [hcaptures, List.length_map]
  have hwithin : ∀ capture ∈ fn.captures, capture.Within surroundings := by
    rw [hcaptures]
    exact captures_within
      ((Symbols.defineAll_evolves surroundings.builtins _ params).trans hbody.symbols) hleave
      hsite.bounded ((hop.reaches surroundings.builtins).1.bound hsite.bound)
  have hcompiled : fn.IsCompiled exact surroundings.builtins constants :=
    ⟨params, body, a.symbols, inner, hsite.bounded, ⟨a.constants, i, hcode⟩,
      Symbols.leaveFunction_nested hleave, hslots, hlength.symm, hlocals, hcount, haligned⟩
  refine OpAt.flows (a := ⟨a.position, after, i + 1⟩) hop fun depths hlead =>
    ⟨?_, hcount, ⟨id, fn, hconst, rfl, hcompiled, hwithin⟩, hlead⟩
  unfold Compilation.maxConstants at hi
  unfold Compilation.maxWord
  omega

end Parts

end Scriptlet
