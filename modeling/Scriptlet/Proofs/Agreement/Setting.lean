import Scriptlet.Proofs.Agreement.Relation
import Scriptlet.Proofs.Evaluation.Effects

/-!
# Code in its surroundings

A part of a program is followed in a `Setting`: the loops around it with the names that they bind
further down, and where a jump out of the innermost one leads. `Setting.At` is what holds of a
setting at a point of the code: the count of operands is right, and what agrees at the point still
agrees behind the jump.

The setting is what changes on the way into a part, and `At` is what has to be shown again when it
does. So the lemmas on how `At` moves are few: to a later point (`At.move`), over an operand
(`At.operand`), and behind a statement (`At.behind`).

The lemmas about constants, names and jumps are the leaves of the simulation.
-/

namespace Scriptlet

open Evaluation
open Machine (TopLevel)

/-- The blocks that are open at a point. -/
abbrev Point.blocks (a : Point) : List Block :=
  a.symbols.table.blocks

/-! ## Settings

What the code around a part means for it, seen from both sides: the compiler's exit with its targets
and its depth, and the evaluation's environment of scopes. A setting has one level for each loop
around. -/

/-- What surrounds some code. -/
structure Setting where
  /-- Whether the code stands outside of all loops. -/
  root : Bool
  /-- Names that are not mentioned, since a loop binds them further down. -/
  later : List String
  target : Option Target
  levels : List Level

namespace Setting

/-- The innermost loop, as the compiler sees it. -/
def exit (setting : Setting) : Option Exit :=
  setting.target.map Target.exit

/-- The number of operands at the start of the innermost loop. -/
def base (setting : Setting) : Nat :=
  (setting.target.map fun t => t.ops.length).getD 0

/-- The environment of the evaluation. -/
def env (setting : Setting) : Env :=
  Level.env setting.levels

/-- **Whether code can stand at a point in a setting**, with the given operands on the stack.
`counted` is the invariant of the depth (see `Proofs/Alignment.lean`), `suffix` says that a loop
still has its operands at the bottom, and `leaves` that its scopes may be given up when a jump
leaves it. -/
structure At (table : BuiltinTable) (final : Symbols) (setting : Setting) (d : Nat)
    (pending slack : Bool) (ops : List Value) (a : Point) : Prop where
  flat : a.symbols.Flat table
  root : setting.root = true → a.blocks = []
  covers : ∀ level ∈ setting.levels, ∀ name ∈ level.later, name ∈ setting.later
  counted : Counted setting.exit setting.base d ops.length pending slack
  suffix : ∀ t, setting.target = some t → t.ops <:+ ops
  leaves : ∀ t, setting.target = some t → ∀ scopes globals,
    Agrees final.table.level scopes globals setting.levels a.blocks →
    Agrees final.table.level scopes globals t.levels t.blocks
  nested : setting.target ≠ none → setting.levels ≠ []

section At

variable {table : BuiltinTable} {final : Symbols} {setting : Setting} {d : Nat}
  {pending slack : Bool} {ops : List Value} {a b : Point}

/-- A point further on at which the same blocks are open. What the names outside have come to mean
in between does not matter. -/
theorem At.move (h : setting.At table final d pending slack ops a) (hw : a.Widens table b) :
    setting.At table final d pending slack ops b where
  flat := hw.grows.flat
  root hroot := hw.blocks.trans (h.root hroot)
  covers := h.covers
  counted := h.counted
  suffix := h.suffix
  leaves t ht scopes globals hagrees := by
    refine h.leaves t ht scopes globals ?_
    have hblocks : b.blocks = a.blocks := hw.blocks
    rwa [hblocks] at hagrees
  nested := h.nested

/-- An operand more is on the stack. -/
theorem At.operand (h : setting.At table final d pending slack ops a) (hw : a.Widens table b)
    (value : Value) : setting.At table final (d + 1) true slack (value :: ops) b :=
  { h.move hw with
    counted := h.counted.push 1
    suffix := fun t ht => (h.suffix t ht).trans (List.suffix_cons value ops) }

/-- The count behind a statement may be another one. -/
theorem At.behind (h : setting.At table final d pending slack ops a) (hw : a.Widens table b)
    (s : Stmt) :
    setting.At table final (s.depthAfter setting.exit d) pending (s.slackAfter pending slack) ops
      b :=
  { h.move hw with counted := h.counted.after s }

/-- A name that is not among those bound later is not one of them in any loop around. -/
theorem At.not_later (h : setting.At table final d pending slack ops a) {name : String}
    (hname : setting.later.contains name = false) :
    ∀ level ∈ setting.levels, name ∉ level.later := by
  intro level hlevel hmem
  have hlater := h.covers level hlevel name hmem
  rw [List.contains_eq_mem, decide_eq_false_iff_not] at hname
  exact hname hlater

/-- **The operands that a jump out of the loop drops are those above the ones at its start.** Their
number is what the compiler has counted; that this is so where a jump may stand is the invariant. -/
theorem At.ops_eq (h : setting.At table final d pending false ops a) {t : Target}
    (ht : setting.target = some t) :
    ∃ above, ops = above ++ t.ops ∧ above.length = d - t.exit.depth := by
  obtain ⟨above, habove⟩ := h.suffix t ht
  -- without slack the count of the compiler is that of the operands
  have hexit : setting.exit = some t.exit := by rw [exit, ht, Option.map_some]
  have hbase : setting.base = t.ops.length := by rw [base, ht, Option.map_some, Option.getD_some]
  have hright := h.counted.right t.exit hexit rfl
  have hle := h.counted.le t.exit hexit
  rw [hbase, ← habove, List.length_append] at hright
  exact ⟨above, habove.symm, by omega⟩

end At

end Setting

/-! ## Constants and names

The leaves: each is one instruction, whose step is known from `Proofs/Agreement/Steps.lean`, and its
effect on the slots is compared with that on the scopes. -/

section Leaves

variable {exe : Executable} {table : BuiltinTable} {final : Symbols} {target : Option Target}
  {levels : List Level} {blocks : List Block} {ops : List Value} {world : World} {m : Machine}
  {a b : Point} {value : Value} {name : String}

/-- A constant is put on the stack, and nothing else changes. -/
theorem ConstAt.follows (h : ConstAt exe.code exe.constants value a b)
    (hm : Stands exe table final a.position levels blocks ops world m) :
    m.Arrives (Stands exe table final b.position levels blocks (value :: ops) world) := by
  obtain ⟨hindex, hvalue, hinstr, rfl⟩ := h
  obtain ⟨globals, htop, hagrees⟩ := hm
  exact (htop.constant hinstr hindex hvalue).mono fun m' hm' => ⟨globals, hm', hagrees⟩

/-- An operation without operands that only puts a value on the stack. -/
theorem OpAt.follows_literal {op : Op} (h : OpAt exe.code op [] a b) (value : Value)
    (hop : op.widths = [])
    (hperform : Machine.perform op [] = Machine.push value)
    (hm : Stands exe table final a.position levels blocks ops world m) :
    m.Arrives (Stands exe table final b.position levels blocks (value :: ops) world) := by
  obtain ⟨hinstr, rfl⟩ := h
  obtain ⟨globals, htop, hagrees⟩ := hm
  exact (htop.literal hinstr hop hperform).mono fun m' hm' => ⟨globals, hm', hagrees⟩

theorem OpAt.follows_pop (h : OpAt exe.code .pop [] a b)
    (hm : Stands exe table final a.position levels blocks (value :: ops) world m) :
    m.Arrives fun m' => Stands exe table final b.position levels blocks ops world m'
      ∧ m'.stack.read ops.length = value := by
  obtain ⟨hinstr, rfl⟩ := h
  obtain ⟨globals, htop, hagrees⟩ := hm
  exact (htop.pop hinstr).mono fun m' hm' => ⟨⟨globals, hm'.1, hagrees⟩, hm'.2⟩

/-- So many operands are dropped, by induction on the ones that are there. -/
theorem PopsAt.follows {above : List Value} (h : PopsAt exe.code above.length a b)
    (hm : Stands exe table final a.position levels blocks (above ++ ops) world m) :
    m.Arrives (Stands exe table final b.position levels blocks ops world) := by
  induction above generalizing a m with
  | nil =>
    obtain rfl : b = a := h
    exact .here hm
  | cons value above ih =>
    obtain ⟨c, hop, hrest⟩ := h
    exact (hop.follows_pop hm).bind fun m' hm' => ih hrest hm'.1

/-- A jump that fits its two bytes leads where it says. -/
theorem OpAt.follows_jump {target : Nat} (h : OpAt exe.code .jump [target] a b)
    (htarget : target ≤ Compilation.maxWord)
    (hm : Stands exe table final a.position levels blocks ops world m) :
    m.Arrives (Stands exe table final target levels blocks ops world) := by
  obtain ⟨hinstr, rfl⟩ := h
  obtain ⟨globals, htop, hagrees⟩ := hm
  exact (htop.jump hinstr htarget).mono fun m' hm' => ⟨globals, hm', hagrees⟩

/-- The machine goes on behind the jump or at its target, as the value on top of the stack is
truthy. -/
theorem OpAt.follows_branch {target : Nat} (h : OpAt exe.code .jumpNotTruthy [target] a b)
    (htarget : target ≤ Compilation.maxWord)
    (hm : Stands exe table final a.position levels blocks (value :: ops) world m) :
    m.Arrives (Stands exe table final (if value.truthy then b.position else target) levels blocks
      ops world) := by
  obtain ⟨hinstr, rfl⟩ := h
  obtain ⟨globals, htop, hagrees⟩ := hm
  exact (htop.jumpNotTruthy hinstr htarget).mono fun m' hm' => ⟨globals, hm', hagrees⟩

/-- What a symbol that is found stands for: a variable with its slot, or a built-in function. A name
found in a block is found there at the end too, and one of the top level keeps its symbol. -/
theorem Symbols.Grows.found {symbols : Symbols} (hflat : symbols.Flat table)
    (hgrows : Symbols.Grows table symbols final) {symbol : Symbol}
    (hfound : symbols.table.lookup? name = some symbol) :
    found? final.table.level symbols.table.blocks name = some symbol
      ∧ (symbol.Names table final.globals name
        ∨ ∃ builtin, table.find? name = some builtin ∧ symbol.kind = .builtin
          ∧ table[symbol.index]? = some builtin) := by
  have hnames : ∀ {symbol : Symbol}, symbol.Names table symbols.globals name →
      symbol.Names table final.globals name := fun h =>
    ⟨h.kind, hgrows.globals _ _ h.slot, h.user⟩
  rw [FunctionTable.lookup?, Option.or_eq_some_iff] at hfound
  rcases hfound with hfound | ⟨hnone, hfound⟩
  · obtain ⟨block, hblock, hself⟩ := List.exists_of_findSome?_eq_some hfound
    refine ⟨?_, .inl (hnames (hflat.blocks block hblock name symbol hself))⟩
    rw [found?, hfound]
    rfl
  · refine ⟨?_, (hflat.level name symbol hfound).imp hnames id⟩
    rw [found?, hnone]
    exact hgrows.kept name symbol hfound

variable (hglobals : exe.globals = final.globals) (hfew : table.length ≤ 256)

include hglobals hfew in
/-- **A name is read**, and means the same to both. The scopes may have a binding that the slot does
not hold, but only for names that are bound later in the body of a loop, and those are not mentioned
here. A variable that is not set is reported by both, under the same name. -/
theorem LoadAt.follows (hflat : a.symbols.Flat table)
    (hname : ∀ level ∈ levels, name ∉ level.later)
    (hgrows : Symbols.Grows table b.symbols final)
    (h : LoadAt exe.code (a.symbols.require name).1 (a.withSymbols (a.symbols.require name).2) b)
    (hm : Stands exe table final a.position levels a.blocks ops world m) :
    Simulates exe table final target m (identifier table (Level.env levels) name world)
      fun value => Stands exe table final b.position levels a.blocks (value :: ops) := by
  obtain ⟨hgrows', hblocks, hlookup⟩ := Symbols.require_grows hflat name
  have hsymbols : b.symbols = (a.symbols.require name).2 := h.symbols_eq
  rw [hsymbols] at hgrows
  obtain ⟨hfound, hsymbol⟩ := hgrows.found hgrows'.flat hlookup
  -- what the scopes hold for the name is what the slot of its symbol holds
  obtain ⟨globals, htop, hagrees⟩ := hm
  have hmeans := hagrees.lookup?_eq hname
  rw [hblocks] at hfound
  rw [hfound, Option.bind_some] at hmeans
  rw [identifier_eq, hmeans]
  unfold LoadAt at h
  generalize (a.symbols.require name).1 = symbol at h hsymbol
  rcases hsymbol with hnames | ⟨builtin, hfind, hkind, hbuiltin⟩
  -- a variable, whose slot may be empty: both then report the name
  · rw [hnames.kind] at h
    obtain ⟨hindex, hinstr, rfl⟩ := h
    rw [Symbol.value?_global hnames.kind]
    cases hread : globals.read symbol.index with
    | some value =>
      exact (htop.getGlobal hinstr hindex hread).mono fun m' hm' => ⟨globals, hm', hagrees⟩
    | none =>
      rw [hnames.user]
      show Fails exe table final target (.halted (.fault (.unbound name))) world m
      have hslot : exe.globals[symbol.index]? = some name := by
        rw [hglobals]
        exact hnames.slot
      exact .halted (htop.getGlobal_unbound hinstr hindex hread hslot)
  · rw [hkind] at h
    obtain ⟨hinstr, rfl⟩ := h
    have hvalue : symbol.value? globals = none := if_neg (by rw [hkind]; decide)
    rw [hvalue, hfind]
    have hlt : symbol.index < 256 :=
      Nat.lt_of_lt_of_le (List.getElem?_eq_some_iff.mp hbuiltin).1 hfew
    exact (htop.getBuiltin hinstr hlt hbuiltin).mono fun m' hm' => ⟨globals, hm', hagrees⟩

/-- **A variable is assigned**: in the innermost scope that has it, and in the slot of the symbol
that the compiler finds, which is the slot of that scope. -/
theorem StoreAt.follows (hflat : a.symbols.Flat table) (huser : table.find? name = none)
    (hname : ∀ level ∈ levels, name ∉ level.later)
    (hgrows : Symbols.Grows table b.symbols final)
    (h : StoreAt exe.code (a.symbols.require name).1 (a.withSymbols (a.symbols.require name).2) b)
    (hm : Stands exe table final a.position levels a.blocks (value :: ops) world m) :
    m.Arrives (Stands exe table final b.position levels a.blocks ops
      { world with scopes := world.scopes.assign name value (Level.env levels) }) := by
  obtain ⟨hgrows', hblocks, hlookup⟩ := Symbols.require_grows hflat name
  have hkind := Symbols.kind_of_found hgrows'.flat huser hlookup
  have hsymbols : b.symbols = (a.symbols.require name).2 := h.symbols_eq hkind
  rw [hsymbols] at hgrows
  obtain ⟨hfound, -⟩ := hgrows.found hgrows'.flat hlookup
  have hsep := hgrows.separate hgrows'.flat
  rw [hblocks] at hfound hsep
  obtain ⟨globals, htop, hagrees⟩ := hm
  unfold StoreAt at h
  rw [hkind] at h
  obtain ⟨hindex, hinstr, rfl⟩ := h
  exact (htop.setGlobal hinstr hindex).mono fun m' hm' =>
    ⟨_, hm', hagrees.assign hsep hname hfound hkind⟩

/-- A variable is bound outside of all loops. There the compiler defines a name as it uses it, and
the root scope is bound by a definition and by an assignment alike. -/
theorem StoreAt.follows_root (hflat : a.symbols.Flat table) (huser : table.find? name = none)
    (hblocks : a.blocks = []) (hgrows : Symbols.Grows table b.symbols final)
    (h : StoreAt exe.code (a.symbols.define name).1 (a.withSymbols (a.symbols.define name).2) b)
    (hm : Stands exe table final a.position levels a.blocks (value :: ops) world m) :
    m.Arrives (Stands exe table final b.position levels a.blocks ops
      { world with scopes := world.scopes.define (Level.env levels) name value }) := by
  have hlevels : levels = [] := by
    obtain ⟨globals, -, hagrees⟩ := hm
    rw [hblocks] at hagrees
    cases hagrees
    rfl
  subst hlevels
  rw [Symbols.define_root hflat hblocks huser] at h
  exact h.follows hflat huser (fun _ h => absurd h (by simp)) hgrows hm

/-- **A variable is bound in the innermost loop.** From here on the name counts as bound, so it
leaves the names that the relation does not speak of. -/
theorem StoreAt.follows_block (hflat : a.symbols.Flat table) (huser : table.find? name = none)
    {level : Level} {later : List String} (hgrows : Symbols.Grows table b.symbols final)
    (hlater : ∀ other, other ∉ later → other = name ∨ other ∉ level.later)
    (h : StoreAt exe.code (a.symbols.define name).1 (a.withSymbols (a.symbols.define name).2) b)
    (hm : Stands exe table final a.position (level :: levels) a.blocks (value :: ops) world m) :
    m.Arrives (Stands exe table final b.position (⟨level.scope, later⟩ :: levels) b.blocks ops
      { world with
        scopes := world.scopes.define (Level.env (level :: levels)) name value }) := by
  obtain ⟨globals, htop, hagrees⟩ := hm
  generalize hblocks : a.blocks = blocks at hagrees
  cases blocks with
  | nil => cases hagrees
  | cons block blocks =>
    obtain ⟨hgrows', block', hblocks', hself, hadds⟩ := Symbols.define_block hflat hblocks huser
    have hkind := (hgrows'.flat.blocks block' (by rw [hblocks']; simp) name _ hself).kind
    have hsymbols : b.symbols = (a.symbols.define name).2 := h.symbols_eq hkind
    have hafter : b.blocks = block' :: blocks := (congrArg (·.table.blocks) hsymbols).trans hblocks'
    rw [hsymbols] at hgrows
    have hsep := hgrows.separate hgrows'.flat
    rw [hblocks'] at hsep
    unfold StoreAt at h
    rw [hkind] at h
    obtain ⟨hindex, hinstr, rfl⟩ := h
    rw [hafter]
    exact (htop.setGlobal hinstr hindex).mono fun m' hm' => ⟨_, hm', hagrees.bind hsep hself
      (fun other hne => hadds.other other (by simpa using hne)) hlater⟩

end Leaves

end Scriptlet
