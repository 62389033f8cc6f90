import Scriptlet.Proofs.Agreement.Setting

/-!
# Expressions in both backends

One lemma for each kind of expression: if the machine follows the evaluation of its parts, it
follows the evaluation of the whole. The evaluation is that of the mirrored expression, so for `<`
the parts come in the order of the code.

All lemmas have the same form. The layout of the expression is opened into the layouts of its parts,
the setting is moved from one part to the next, and the evaluation is taken apart with
`Simulates.bind`. What differs is how many operands lie below a part, and what happens to the values
at the end.
-/

namespace Scriptlet

open Evaluation
open Machine (TopLevel)

section

variable (exe : Executable) (table : BuiltinTable) (final : Symbols)

/-! ## What it is to follow

The statements that are proved of each other, one for each function of the evaluator that has no
loop in it. They quantify over all settings and points, since a part is followed in other
surroundings than the whole. A list of expressions is evaluated with an accumulator, so its
statement speaks of what has been read so far. -/

/-- **The machine follows the evaluation of an expression**: wherever its code stands in a plain
program, with the operands counted right, the machine arrives behind it with the value on the stack,
or it does what the signal asks for. -/
def ExprFollows (fuel : Nat) (e : Expr) : Prop :=
  ∀ (setting : Setting) (a b : Point) (d : Nat) (pending slack : Bool) (ops : List Value)
    (world : World) (m : Machine),
    e.plain table setting.root setting.later → e.aligned pending slack →
    setting.At table final d pending slack ops a → Symbols.Grows table b.symbols final →
    ExprAt exe.code exe.constants setting.exit d e a b →
    Stands exe table final a.position setting.levels a.blocks ops world m →
    Simulates exe table final setting.target m (expr table fuel setting.env e.mirrored world)
      fun value => Stands exe table final b.position setting.levels a.blocks (value :: ops)

/-- The machine follows the evaluation of expressions in turn. -/
def ExprsFollow (fuel : Nat) (es : List Expr) : Prop :=
  ∀ (setting : Setting) (a b : Point) (d : Nat) (pending slack : Bool) (ops : List Value)
    (read : List Value) (world : World) (m : Machine),
    Expr.plainAll table setting.root setting.later es → Expr.alignedAll pending slack es →
    setting.At table final d pending slack ops a → Symbols.Grows table b.symbols final →
    ExprsAt exe.code exe.constants setting.exit d es a b →
    Stands exe table final a.position setting.levels a.blocks ops world m →
    Simulates exe table final setting.target m
      (exprs table fuel setting.env read (Expr.mirroredAll es) world)
      fun values world' m' => ∃ new, values = read.reverse ++ new ∧ new.length = es.length
        ∧ Stands exe table final b.position setting.levels a.blocks (new.reverse ++ ops) world' m'

/-- The machine follows the evaluation of the pairs of a hash. Their keys and values are on its
stack in the end, and make the entries that the evaluation has made. -/
def PairsFollow (fuel : Nat) (pairs : List (Expr × Expr)) : Prop :=
  ∀ (setting : Setting) (a b : Point) (d : Nat) (pending slack : Bool) (ops : List Value)
    (entries : List (Entry Value)) (world : World) (m : Machine),
    Expr.plainPairs table setting.root setting.later pairs →
    Expr.alignedPairs pending slack pairs →
    setting.At table final d pending slack ops a → Symbols.Grows table b.symbols final →
    PairsAt exe.code exe.constants setting.exit d pairs a b →
    Stands exe table final a.position setting.levels a.blocks ops world m →
    Simulates exe table final setting.target m
      (pairsFrom table fuel setting.env entries (Expr.mirroredPairs pairs) world)
      fun entries' world' m' => ∃ values, values.length = 2 * pairs.length
        ∧ (∀ m, Machine.insertPairs entries values m = .ok entries' m)
        ∧ Stands exe table final b.position setting.levels a.blocks (values.reverse ++ ops)
          world' m'

/-- **What is left on the stack by statements of the given closing, whose value is `value`.** A
value that has been dropped is still in its slot, right above the top of the stack, which is where
the result of a program is taken from. -/
def Ended (ending : Ending) (closing : Closing) (last value : Value) (p : Nat)
    (levels : List Level) (blocks : List Block) (ops : List Value) (world : World) (m : Machine) :
    Prop :=
  match closing, ending with
  | .value, .keep => Stands exe table final p levels blocks (value :: ops) world m
  | .value, _ =>
    Stands exe table final p levels blocks ops world m ∧ m.stack.read ops.length = value
  | .nothing, _ => value = last ∧ Stands exe table final p levels blocks ops world m
  | _, _ => value = .null ∧ Stands exe table final p levels blocks ops world m

/-- The machine follows the evaluation of a statement, which is no `let` in a loop. -/
def StmtFollows (fuel : Nat) (s : Stmt) : Prop :=
  ∀ (setting : Setting) (direct : Bool) (a b : Point) (ending : Ending) (d : Nat)
    (pending slack : Bool) (ops : List Value) (world : World) (m : Machine),
    s.plain table setting.root direct setting.later → (setting.root = true ∨ s.binds = []) →
    s.aligned pending slack → ending ≠ .give →
    setting.At table final d pending slack ops a → Symbols.Grows table b.symbols final →
    StmtAt exe.code exe.constants setting.exit ending d s a b →
    Stands exe table final a.position setting.levels a.blocks ops world m →
    Simulates exe table final setting.target m (stmt table fuel setting.env s.mirrored world)
      fun value => Ended exe table final ending s.closing .null value b.position setting.levels
        a.blocks ops

/-- The machine follows the evaluation of the statements of a branch, or of those outside of all
loops. `last` is the value that the evaluation has so far, which is the result if there are no
further statements. -/
def StmtsFollow (fuel : Nat) (body : List Stmt) : Prop :=
  ∀ (setting : Setting) (a b : Point) (ending : Ending) (d : Nat) (pending slack : Bool)
    (ops : List Value) (last : Value) (world : World) (m : Machine),
    Stmt.plainAll table setting.root setting.later body → Stmt.alignedAll pending slack body →
    ending ≠ .give →
    setting.At table final d pending slack ops a → Symbols.Grows table b.symbols final →
    StmtsAt exe.code exe.constants setting.exit ending d body a b →
    Stands exe table final a.position setting.levels a.blocks ops world m →
    Simulates exe table final setting.target m
      (stmts table fuel setting.env last (Stmt.mirroredAll body) world)
      fun value => Ended exe table final ending (Stmt.closingList body) last value b.position
        setting.levels a.blocks ops

end

section

variable {exe : Executable} {table : BuiltinTable} {final : Symbols} {fuel : Nat}

/-- A value that is there at once. -/
theorem Simulates.value {α : Type} {target : Option Target} {m : Machine} {value : α}
    {world : World} {goal : α → World → Machine → Prop} (h : m.Arrives (goal value world)) :
    Simulates exe table final target m (.ok value world) goal :=
  h

/-! ## Constants, names and operators

The expressions without statements or effects. -/

theorem ExprFollows.int (i : Int64) : ExprFollows exe table final (fuel + 1) (.int i) :=
  fun _ _ _ _ _ _ _ _ _ _ _ _ _ h hm => ConstAt.follows h hm

theorem ExprFollows.float (x : Float) : ExprFollows exe table final (fuel + 1) (.float x) :=
  fun _ _ _ _ _ _ _ _ _ _ _ _ _ h hm => ConstAt.follows h hm

theorem ExprFollows.str (s : String) : ExprFollows exe table final (fuel + 1) (.str s) :=
  fun _ _ _ _ _ _ _ _ _ _ _ _ _ h hm => ConstAt.follows h hm

theorem ExprFollows.bool (v : Bool) : ExprFollows exe table final (fuel + 1) (.bool v) := by
  intro setting a b d pending slack ops world m _ _ _ _ h hm
  cases v with
  | true => exact OpAt.follows_literal h (.bool true) rfl rfl hm
  | false => exact OpAt.follows_literal h (.bool false) rfl rfl hm

/-- A name is the one expression that needs the symbols: `LoadAt.follows`. -/
theorem ExprFollows.ident (hglobals : exe.globals = final.globals) (hfew : table.length ≤ 256)
    (name : String) : ExprFollows exe table final (fuel + 1) (.ident name) := by
  intro setting a b d pending slack ops world m hplain _ hat hgrows h hm
  have hname : setting.later.contains name = false := by simpa [Expr.plain] using hplain
  exact LoadAt.follows hglobals hfew hat.flat (hat.not_later hname) hgrows h hm

/-- The instruction for an operator performs that operator. -/
theorem infix_operation {op : Token} {o : Op} (h : Compilation.infixOp? op = some o) :
    Machine.operatorToken o = op ∧ o.widths = [] ∧ Machine.perform o [] = Machine.binary o := by
  cases op <;> simp only [Compilation.infixOp?, Option.some.injEq, reduceCtorEq] at h
  all_goals
    subst h
    exact ⟨rfl, rfl, rfl⟩

theorem prefix_operation {op : Token} {o : Op} (h : Compilation.prefixOp? op = some o) :
    o.widths = [] ∧ Machine.perform o [] = Machine.unary op := by
  cases op <;> simp only [Compilation.prefixOp?, Option.some.injEq, reduceCtorEq] at h
  all_goals
    subst h
    exact ⟨rfl, rfl⟩

/-- Two operands and an operation on them. -/
theorem OpAt.follows_binary {target : Option Target} {o : Op} {op : Token} {left right : Value}
    {a b : Point} {levels : List Level} {blocks : List Block} {ops : List Value} {world : World}
    {m : Machine}
    (hop : Machine.operatorToken o = op ∧ o.widths = []
      ∧ Machine.perform o [] = Machine.binary o)
    (h : OpAt exe.code o [] a b)
    (hm : Stands exe table final a.position levels blocks (right :: left :: ops) world m) :
    Simulates exe table final target m (Evaluation.ofExcept (left.infixOp op right) world)
      fun value => Stands exe table final b.position levels blocks (value :: ops) := by
  obtain ⟨hinstr, rfl⟩ := h
  obtain ⟨globals, htop, hagrees⟩ := hm
  obtain ⟨rfl, hwidths, hperform⟩ := hop
  exact .results hagrees (htop.binary hinstr hwidths hperform)

/-- **Two expressions in turn, with what is done with their values.** The second one is followed
with one operand more below it. It is stated once with an arbitrary continuation, for operators,
subscripts and the two ways to read a comparison. -/
theorem ExprFollows.both {α : Type} {first second : Expr}
    (hfirst : ExprFollows exe table final fuel first)
    (hsecond : ExprFollows exe table final fuel second) {setting : Setting} {a b c : Point}
    {d : Nat} {pending slack : Bool} {ops : List Value} {world : World} {m : Machine}
    {next : Value → Value → Eval α} {goal : α → World → Machine → Prop}
    (hplain : first.plain table setting.root setting.later
      ∧ second.plain table setting.root setting.later)
    (haligned : first.aligned pending slack ∧ second.aligned true slack)
    (hat : setting.At table final d pending slack ops a)
    (hgrows : Symbols.Grows table b.symbols final)
    (hc : ExprAt exe.code exe.constants setting.exit d first a c)
    (hb : ExprAt exe.code exe.constants setting.exit (d + 1) second c b)
    (hm : Stands exe table final a.position setting.levels a.blocks ops world m)
    (hnext : ∀ v v' world' m', Stands exe table final b.position setting.levels a.blocks
      (v' :: v :: ops) world' m' →
      Simulates exe table final setting.target m' (next v v' world') goal) :
    Simulates exe table final setting.target m
      ((expr table fuel setting.env first.mirrored >>= fun v =>
        expr table fuel setting.env second.mirrored >>= next v) world) goal := by
  have hw := ExprAt.widens first hplain.1 hat.root hat.flat hc
  have hw' := ExprAt.widens second hplain.2 (fun h => hw.blocks.trans (hat.root h)) hw.grows.flat
    hb
  have hblocks : c.blocks = a.blocks := hw.blocks
  refine (hfirst setting a c d pending slack ops world m hplain.1 haligned.1 hat
    (hw'.grows.trans hgrows) hc hm).bind fun v world₁ m₁ _ hm₁ => ?_
  -- the blocks are the same behind the first one, which is where the second one starts
  rw [← hblocks] at hm₁
  refine (hsecond setting c b (d + 1) true slack (v :: ops) world₁ m₁ hplain.2 haligned.2
    (hat.operand hw v) hgrows hb hm₁).bind fun v' world₂ m₂ _ hm₂ => ?_
  rw [hblocks] at hm₂
  exact hnext v v' world₂ m₂ hm₂

/-- For `<` the mirrored expression has the operands in the order of the code, so both cases are an
application of `ExprFollows.both`. -/
theorem ExprFollows.infixOp {left right : Expr} {op : Token}
    (hleft : ExprFollows exe table final fuel left)
    (hright : ExprFollows exe table final fuel right) :
    ExprFollows exe table final (fuel + 1) (.infixOp left op right) := by
  intro setting a b d pending slack ops world m hplain haligned hat hgrows h hm
  simp only [Expr.plain, Bool.and_eq_true] at hplain
  rw [ExprAt] at h
  rw [Expr.aligned] at haligned
  rw [Expr.mirrored]
  by_cases hlt : op = .lt
  · -- the operands are evaluated in the order of the mirrored expression
    rw [if_pos hlt] at h haligned ⊢
    simp only [Bool.and_eq_true] at haligned
    obtain ⟨c, n, hc, hn, hop⟩ := h
    have hgrowsn : Symbols.Grows table n.symbols final := by rwa [← hop.symbols_eq]
    rw [expr]
    exact hright.both hleft hplain.symm haligned hat hgrowsn hc hn hm
      fun v v' world' m' hm' => hop.follows_binary ⟨rfl, rfl, rfl⟩ hm'
  · rw [if_neg hlt] at h haligned ⊢
    simp only [Bool.and_eq_true] at haligned
    obtain ⟨o, c, n, ho, hc, hn, hop⟩ := h
    have hgrowsn : Symbols.Grows table n.symbols final := by rwa [← hop.symbols_eq]
    rw [expr]
    exact hleft.both hright hplain haligned hat hgrowsn hc hn hm
      fun v v' world' m' hm' => hop.follows_binary (infix_operation ho) hm'

theorem ExprFollows.prefixOp {operand : Expr} {op : Token}
    (hoperand : ExprFollows exe table final fuel operand) :
    ExprFollows exe table final (fuel + 1) (.prefixOp op operand) := by
  intro setting a b d pending slack ops world m hplain haligned hat hgrows h hm
  obtain ⟨o, c, ho, hc, hop⟩ := h
  have hgrowsc : Symbols.Grows table c.symbols final := by rwa [← hop.symbols_eq]
  rw [Expr.mirrored, expr]
  refine (hoperand setting a c d pending slack ops world m hplain haligned hat hgrowsc hc
    hm).bind fun v world₁ m₁ _ hm₁ => ?_
  obtain ⟨hinstr, rfl⟩ := hop
  obtain ⟨globals, htop, hagrees⟩ := hm₁
  obtain ⟨hwidths, hperform⟩ := prefix_operation ho
  exact .results hagrees (htop.unary hinstr hwidths hperform)

/-- A subscript may be refused, by both in the same way. -/
theorem ExprFollows.index {left subscript : Expr}
    (hleft : ExprFollows exe table final fuel left)
    (hsubscript : ExprFollows exe table final fuel subscript) :
    ExprFollows exe table final (fuel + 1) (.index left subscript) := by
  intro setting a b d pending slack ops world m hplain haligned hat hgrows h hm
  simp only [Expr.plain, Bool.and_eq_true] at hplain
  simp only [Expr.aligned, Bool.and_eq_true] at haligned
  obtain ⟨c, n, hc, hn, hop⟩ := h
  have hgrowsn : Symbols.Grows table n.symbols final := by rwa [← hop.symbols_eq]
  rw [Expr.mirrored, expr]
  refine hleft.both hsubscript hplain haligned hat hgrowsn hc hn hm fun v v' world' m' hm' => ?_
  obtain ⟨hinstr, rfl⟩ := hop
  obtain ⟨globals, htop, hagrees⟩ := hm'
  exact .results hagrees (htop.index hinstr)

/-! ## Containers and calls

Lists of expressions and of pairs leave their values on the stack, in order, until one instruction
takes them all. -/

theorem ExprsFollow.nil : ExprsFollow exe table final (fuel + 1) [] := by
  intro setting a b d pending slack ops read world m _ _ _ _ h hm
  obtain rfl : b = a := h
  rw [Expr.mirroredAll, exprs]
  exact .value (.here ⟨[], by simp, rfl, hm⟩)

/-- The value of the first expression lies below those of the rest, so it is the last one when the
operands are listed from the top. -/
theorem ExprsFollow.cons {e : Expr} {rest : List Expr}
    (he : ExprFollows exe table final fuel e) (hrest : ExprsFollow exe table final fuel rest) :
    ExprsFollow exe table final (fuel + 1) (e :: rest) := by
  intro setting a b d pending slack ops read world m hplain haligned hat hgrows h hm
  simp only [Expr.plainAll, Bool.and_eq_true] at hplain
  simp only [Expr.alignedAll, Bool.and_eq_true] at haligned
  obtain ⟨c, hc, hb⟩ := h
  have hw := ExprAt.widens e hplain.1 hat.root hat.flat hc
  have hw' := ExprsAt.widens rest hplain.2 (fun h => hw.blocks.trans (hat.root h)) hw.grows.flat
    hb
  have hblocks : c.blocks = a.blocks := hw.blocks
  rw [Expr.mirroredAll, exprs]
  refine (he setting a c d pending slack ops world m hplain.1 haligned.1 hat
    (hw'.grows.trans hgrows) hc hm).bind fun v world₁ m₁ _ hm₁ => ?_
  rw [← hblocks] at hm₁
  refine (hrest setting c b (d + 1) true slack (v :: ops) (v :: read) world₁ m₁ hplain.2
    haligned.2 (hat.operand hw v) hgrows hb hm₁).mono fun values world₂ m₂ _ hm₂ => ?_
  obtain ⟨new, rfl, hlength, hm₂⟩ := hm₂
  rw [hblocks] at hm₂
  refine ⟨v :: new, by simp, by simp [hlength], ?_⟩
  rwa [List.reverse_cons, List.append_assoc]

theorem PairsFollow.nil : PairsFollow exe table final (fuel + 1) [] := by
  intro setting a b d pending slack ops entries world m _ _ _ _ h hm
  obtain rfl : b = a := h
  rw [Expr.mirroredPairs, pairsFrom]
  exact .value (.here ⟨[], rfl, fun _ => rfl, hm⟩)

/-- **A pair and the pairs behind it.** The evaluation checks a key as soon as it has its value. If
the key is refused, then nothing is claimed of the machine, which goes on with the value and the
other pairs. -/
theorem PairsFollow.cons {key value : Expr} {rest : List (Expr × Expr)}
    (hkey : ExprFollows exe table final fuel key) (hvalue : ExprFollows exe table final fuel value)
    (hrest : PairsFollow exe table final fuel rest) :
    PairsFollow exe table final (fuel + 1) ((key, value) :: rest) := by
  intro setting a b d pending slack ops entries world m hplain haligned hat hgrows h hm
  simp only [Expr.plainPairs, Bool.and_eq_true] at hplain
  simp only [Expr.alignedPairs, Bool.and_eq_true] at haligned
  obtain ⟨c, n, hc, hn, hb⟩ := h
  have hw := ExprAt.widens key hplain.1.1 hat.root hat.flat hc
  have hw' := ExprAt.widens value hplain.1.2 (fun h => hw.blocks.trans (hat.root h))
    hw.grows.flat hn
  have hw₂ := hw.trans hw'
  have hw'' := PairsAt.widens rest hplain.2 (fun h => hw₂.blocks.trans (hat.root h))
    hw'.grows.flat hb
  have hblocks : c.blocks = a.blocks := hw.blocks
  have hblocks' : n.blocks = a.blocks := hw₂.blocks
  have hgrowsn := hw''.grows.trans hgrows
  rw [Expr.mirroredPairs, pairsFrom]
  refine (hkey setting a c d pending slack ops world m hplain.1.1 haligned.1.1 hat
    (hw'.grows.trans hgrowsn) hc hm).bind fun shown world₁ m₁ _ hm₁ => ?_
  cases hshown : shown.key? with
  | none =>
    -- the machine looks at the key only when all pairs are on its stack
    show Fails exe table final setting.target (.halted (.fault (.unusableKey shown.kind))) world₁
      m₁
    exact .inl ⟨shown.kind, rfl⟩
  | some k =>
    rw [← hblocks] at hm₁
    refine (hvalue setting c n (d + 1) true slack (shown :: ops) world₁ m₁ hplain.1.2
      haligned.1.2 (hat.operand hw shown) hgrowsn hn hm₁).bind fun v world₂ m₂ _ hm₂ => ?_
    rw [hblocks, ← hblocks'] at hm₂
    refine (hrest setting n b (d + 1 + 1) true slack (v :: shown :: ops)
      (Entry.insert ⟨k, shown, v⟩ entries) world₂ m₂ hplain.2 haligned.2
      ((hat.operand hw shown).operand hw' v) hgrows hb hm₂).mono fun entries' world₃ m₃ _ hm₃ => ?_
    obtain ⟨values, hlength, hinsert, hm₃⟩ := hm₃
    rw [hblocks'] at hm₃
    refine ⟨shown :: v :: values, by simp [hlength, Nat.mul_succ], fun m => ?_, ?_⟩
    · have hpair : Value.insertPair entries shown v
          = .ok (Entry.insert ⟨k, shown, v⟩ entries) := by
        rw [Value.insertPair, hshown]
      rw [Machine.insertPairs, Machine.bind_ok (Machine.ofExcept_ok hpair)]
      exact hinsert m
    · simpa using hm₃

theorem ExprFollows.array {elements : List Expr}
    (helements : ExprsFollow exe table final fuel elements) :
    ExprFollows exe table final (fuel + 1) (.array elements) := by
  intro setting a b d pending slack ops world m hplain haligned hat hgrows h hm
  obtain ⟨c, hc, hlength, hop⟩ := h
  have hgrowsc : Symbols.Grows table c.symbols final := by rwa [← hop.symbols_eq]
  rw [Expr.mirrored, expr]
  refine (helements setting a c d pending slack ops [] world m hplain haligned hat hgrowsc hc
    hm).bind fun values world₁ m₁ _ hm₁ => ?_
  obtain ⟨new, rfl, hnew, hm₁⟩ := hm₁
  obtain ⟨hinstr, rfl⟩ := hop
  obtain ⟨globals, htop, hagrees⟩ := hm₁
  rw [← hnew] at hinstr hlength
  exact .makes hagrees (htop.array hinstr hlength)

theorem ExprFollows.hash {pairs : List (Expr × Expr)}
    (hpairs : PairsFollow exe table final fuel pairs) :
    ExprFollows exe table final (fuel + 1) (.hash pairs) := by
  intro setting a b d pending slack ops world m hplain haligned hat hgrows h hm
  obtain ⟨c, hc, hlength, hop⟩ := h
  have hgrowsc : Symbols.Grows table c.symbols final := by rwa [← hop.symbols_eq]
  rw [Expr.mirrored, expr]
  refine (hpairs setting a c d pending slack ops [] world m hplain haligned hat hgrowsc hc
    hm).bind fun entries world₁ m₁ _ hm₁ => ?_
  obtain ⟨values, hvalues, hinsert, hm₁⟩ := hm₁
  obtain ⟨hinstr, rfl⟩ := hop
  obtain ⟨globals, htop, hagrees⟩ := hm₁
  rw [← hvalues] at hinstr hlength
  exact .makes hagrees (htop.hash hinstr hlength (by omega) hinsert)

/-- The name of a built-in function means that function: no scope binds it, because plain programs
leave these names alone. -/
theorem identifier_builtin {levels : List Level} {a : Point} {world : World}
    {globals : Machine.Memory (Option Value)} {name : String} {builtin : Builtin}
    (hflat : a.symbols.Flat table) (hgrows : Symbols.Grows table a.symbols final)
    (hname : ∀ level ∈ levels, name ∉ level.later) (hfind : table.find? name = some builtin)
    (hagrees : Agrees final.table.level world.scopes globals levels a.blocks) :
    identifier table (Level.env levels) name world = .ok (.builtin builtin) world := by
  obtain ⟨symbol, hsymbol⟩ := Option.isSome_iff_exists.mp (hflat.builtins name builtin hfind)
  have hlookup : a.symbols.table.lookup? name = some symbol := by
    rw [FunctionTable.lookup?, Option.or_eq_some_iff]
    refine .inr ⟨List.findSome?_eq_none_iff.mpr fun block hblock => ?_, hsymbol⟩
    cases hself : block[name]? with
    | none => rfl
    | some other =>
      have huser := (hflat.blocks block hblock name other hself).user
      rw [hfind] at huser
      exact absurd huser (by simp)
  obtain ⟨hfound, hnames | ⟨-, -, hkind, -⟩⟩ := hgrows.found hflat hlookup
  · rw [hnames.user] at hfind
    exact absurd hfind (by simp)
  · have hvalue : symbol.value? globals = none := if_neg (by rw [hkind]; decide)
    have hmeans := hagrees.lookup?_eq hname
    rw [hfound] at hmeans
    simp only [identifier_eq, hmeans, Option.bind_some, hvalue, hfind]

/-- A call by name, unless it is a quote. -/
theorem Evaluation.expr_call_ident {env : Env} {name : String} {args : List Expr}
    (h : name ≠ "quote") :
    expr table (fuel + 1) env (.call (.ident name) args)
      = (expr table fuel env (.ident name) >>= fun callee => exprs table fuel env [] args >>=
        fun args => apply table fuel callee args) := by
  have hquote : isQuote env (.ident name) = pure false := by
    unfold isQuote
    split
    · rename_i heq
      exact absurd (Expr.ident.inj heq) h
    · rfl
  rw [expr, hquote]
  rfl

/-- **A call of a built-in function.** The name is read like any other, the arguments are pushed
above it, and the function is applied to them by the host in both backends. -/
theorem ExprFollows.call {name : String} {args : List Expr}
    (hglobals : exe.globals = final.globals) (hfew : table.length ≤ 256)
    (hargs : ExprsFollow exe table final fuel args) :
    ExprFollows exe table final (fuel + 1) (.call (.ident name) args) := by
  intro setting a b d pending slack ops world m hplain haligned hat hgrows h hm
  simp only [Expr.plain, Bool.and_eq_true, Bool.not_eq_true'] at hplain
  obtain ⟨⟨hbuiltin, hlater⟩, hplainArgs⟩ := hplain
  simp only [Expr.aligned, Bool.true_and] at haligned
  rw [ExprAt, Symbols.quotes_builtin a.symbols hbuiltin] at h
  obtain ⟨c, n, hc, hn, hlength, hop⟩ := h
  obtain ⟨builtin, hfind⟩ := Option.isSome_iff_exists.mp hbuiltin
  have hname := hat.not_later hlater
  have hwide : Expr.plain table setting.root setting.later (.ident name) := by
    rw [Expr.plain, hlater]
    rfl
  have hw := ExprAt.widens (.ident name) hwide hat.root hat.flat hc
  have hw' := ExprsAt.widens args hplainArgs (fun h => hw.blocks.trans (hat.root h)) hw.grows.flat
    hn
  have hblocks : c.blocks = a.blocks := hw.blocks
  have hgrowsn : Symbols.Grows table n.symbols final := by rwa [← hop.symbols_eq]
  have hgrowsc := hw'.grows.trans hgrowsn
  rw [Expr.mirrored, Expr.mirrored, expr_call_ident (BuiltinTable.name_ne_quote hbuiltin)]
  -- the name and the call each take one of the fuel
  cases fuel with
  | zero => trivial
  | succ fuel =>
    refine Simulates.bind (LoadAt.follows hglobals hfew hat.flat hname hgrowsc hc hm)
      fun callee world₁ m₁ hcallee hm₁ => ?_
    obtain ⟨globals, htop, hagrees⟩ := hm
    have hvalue := identifier_builtin hat.flat (hw.grows.trans hgrowsc) hname hfind hagrees
    have hcallee : identifier table (Level.env setting.levels) name world = .ok callee world₁ :=
      hcallee
    rw [hvalue] at hcallee
    cases hcallee
    rw [← hblocks] at hm₁
    refine (hargs setting c n (d + 1) true slack (.builtin builtin :: ops) [] world m₁ hplainArgs
      haligned (hat.operand hw _) hgrowsn hn hm₁).bind fun values world₂ m₂ _ hm₂ => ?_
    obtain ⟨new, rfl, hnew, hm₂⟩ := hm₂
    obtain ⟨hinstr, rfl⟩ := hop
    obtain ⟨globals', htop', hagrees'⟩ := hm₂
    rw [← hnew] at hinstr hlength
    rw [hblocks] at hagrees'
    exact .makes hagrees' (htop'.call hinstr hlength)

end

end Scriptlet
