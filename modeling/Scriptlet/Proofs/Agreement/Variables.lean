import Scriptlet.Machine.Memory
import Scriptlet.Proofs.Agreement.Names
import Scriptlet.Proofs.Scopes

/-!
# Scopes and slots

`Agrees` relates the scopes of an evaluation to the global slots of the machine: a scope holds for a
name what the slot holds that the compiler has for the name in the block of that scope. The root
scope belongs to the top level as it is known at the end of the program, since a loop may come back
to code that was compiled before a global was known.

In the body of a loop the relation leaves out the names that are bound further down (`Level.later`):
the scope may have them from the iteration before. All other names of the block are bound.
-/

namespace Scriptlet

/-- What the slot of a global symbol holds. -/
def Symbol.value? (globals : Machine.Memory (Option Value)) (symbol : Symbol) : Option Value :=
  if symbol.kind = .global then globals.read symbol.index else none

theorem Symbol.value?_global {globals : Machine.Memory (Option Value)} {symbol : Symbol}
    (h : symbol.kind = .global) : symbol.value? globals = globals.read symbol.index :=
  if_pos h

/-- What the slot of a name holds. -/
def Block.value? (globals : Machine.Memory (Option Value)) (block : Block) (name : String) :
    Option Value :=
  (block[name]?).bind (Symbol.value? globals)

/-- The scope of a loop, with the names that its body binds further down. -/
structure Level where
  scope : ScopeId
  later : List String

/-- The environment inside of some loops. -/
def Level.env : List Level → Env
  | [] => .root
  | level :: levels => level.scope :: Level.env levels

theorem Level.env_ne_nil (levels : List Level) : Level.env levels ≠ [] := by
  cases levels <;> exact fun h => absurd h (by simp [Level.env, Env.root])

/-! ## Assignments

What an assignment changes in the scopes: the binding of one name in one scope of the environment.
All other bindings and the kinds of the scopes are as before. -/

namespace Scopes

variable {scopes : Scopes} {name : String} {value : Value}

@[simp] theorem size_assign (env : Env) :
    (scopes.assign name value env).size = scopes.size := by
  induction env with
  | nil => rfl
  | cons id env ih =>
    cases env with
    | nil => exact size_bind ..
    | cons next env =>
      rw [assign]
      · split
        · exact size_bind ..
        · exact ih
      · exact fun h => absurd h (by simp)

/-- An assignment changes one name in the scopes of the environment. -/
theorem bound?_assign {env : Env} {id : ScopeId} {other : String}
    (h : id ∉ env ∨ other ≠ name) :
    (scopes.assign name value env).bound? id other = scopes.bound? id other := by
  have hbind : ∀ target, target ∈ env →
      (scopes.bind target name value).bound? id other = scopes.bound? id other := by
    intro target htarget
    rcases h with h | h
    · exact bound?_bind_other fun heq => h (heq ▸ htarget)
    · exact bound?_bind_name h
  induction env with
  | nil => rfl
  | cons head env ih =>
    cases env with
    | nil => exact hbind head (List.mem_cons_self ..)
    | cons next env =>
      rw [assign]
      · split
        · exact hbind head (List.mem_cons_self ..)
        · refine ih (h.imp (fun h hmem => h (List.mem_cons_of_mem _ hmem)) (fun h => h)) ?_
          exact fun target ht => hbind target (List.mem_cons_of_mem _ ht)
      · exact fun h => absurd h (by simp)

theorem ofLoop_assign {env : Env} {id : ScopeId} :
    (scopes.assign name value env).ofLoop id = scopes.ofLoop id := by
  induction env with
  | nil => rfl
  | cons head env ih =>
    cases env with
    | nil => exact ofLoop_bind
    | cons next env =>
      rw [assign]
      · split
        · exact ofLoop_bind
        · exact ih
      · exact fun h => absurd h (by simp)

end Scopes

/-! ## Slots of different variables

Writing a slot must not change what another name means. `Separate` is the part of `Symbols.Flat`
that guarantees this for the blocks around a point together with the top level. -/

/-- The blocks around a point and the top level at the end of the program use each slot for one
variable only. -/
structure Separate (globals : Array String) (top : Block) (blocks : List Block) : Prop where
  names : ∀ block ∈ blocks ++ [top], ∀ (name : String) (symbol : Symbol),
    block[name]? = some symbol → symbol.kind = .global → globals[symbol.index]? = some name
  kinds : ∀ block ∈ blocks, ∀ (name : String) (symbol : Symbol),
    block[name]? = some symbol → symbol.kind = .global
  apart : (blocks ++ [top]).Pairwise Block.Apart

namespace Separate

variable {globals : Array String} {top block : Block} {blocks : List Block}

theorem tail (h : Separate globals top (block :: blocks)) : Separate globals top blocks :=
  ⟨fun inner hinner => h.names inner (List.mem_cons_of_mem _ hinner),
    fun inner hinner => h.kinds inner (List.mem_cons_of_mem _ hinner),
    (List.pairwise_cons.mp h.apart).2⟩

/-- Two names do not share a slot: the table of names has one name for each slot. -/
theorem index_ne (h : Separate globals top blocks) {inner outer : Block}
    (hinner : inner ∈ blocks ++ [top]) (houter : outer ∈ blocks ++ [top]) {name other : String}
    (hne : name ≠ other) {x y : Symbol} (hx : inner[name]? = some x) (hy : outer[other]? = some y)
    (hxkind : x.kind = .global) (hykind : y.kind = .global) : y.index ≠ x.index := by
  intro heq
  have hname := h.names inner hinner name x hx hxkind
  have hother := h.names outer houter other y hy hykind
  rw [heq, hname] at hother
  exact hne (Option.some.inj hother)

end Separate

/-- The blocks around a point are separate from the top level at the end of the program, too: a name
that came to the top level later has a slot that was not in use at the point. -/
theorem Symbols.Grows.separate {table : BuiltinTable} {symbols final : Symbols}
    (hflat : symbols.Flat table) (h : Symbols.Grows table symbols final) :
    Separate final.globals final.table.level symbols.table.blocks := by
  refine ⟨fun block hblock name symbol hs hkind => ?_, fun block hblock name symbol hs =>
    (hflat.blocks block hblock name symbol hs).kind, ?_⟩
  · rcases List.mem_append.mp hblock with hblock | hblock
    · exact h.globals _ _ (hflat.blocks block hblock name symbol hs).slot
    · obtain rfl := List.mem_singleton.mp hblock
      rcases h.flat.level name symbol hs with hnames | ⟨-, -, hbuiltin, -⟩
      · exact hnames.slot
      · rw [hkind] at hbuiltin
        exact absurd hbuiltin (by decide)
  · obtain ⟨hblocks, -, hcross⟩ := List.pairwise_append.mp hflat.apart
    refine List.pairwise_append.mpr ⟨hblocks, List.pairwise_singleton _ _, ?_⟩
    intro block hblock other hother name x y hx hy
    obtain rfl := List.mem_singleton.mp hother
    rcases h.new name y hy with hy | hy
    · exact hcross block hblock _ (List.mem_singleton.mpr rfl) name x y hx hy
    · have hlt := (hflat.blocks block hblock name x hx).index_lt
      rw [hflat.size] at hlt
      omega

/-! ## The relation

`Agrees` goes along the loops around a point, from the innermost one out to the root scope. Each
loop has a scope on the side of the evaluation and a block on the side of the compiler. -/

/-- **The scope of a loop and its block hold the same**, apart from the names that are bound later.
The field `bound` says that a name of the block that is not bound later is bound already; so a
lookup in the scopes stops where the compiler found the symbol. -/
structure Level.Agrees (scopes : Scopes) (globals : Machine.Memory (Option Value)) (level : Level)
    (block : Block) : Prop where
  values : ∀ name, name ∉ level.later →
    scopes.bound? level.scope name = block.value? globals name
  bound : ∀ name, name ∉ level.later → (block[name]?).isSome →
    (scopes.bound? level.scope name).isSome
  loop : scopes.ofLoop level.scope = true
  there : level.scope < scopes.size

/-- **The scopes of an environment hold the same as the blocks around a point and the top level.** A
scope occurs once in the environment, so binding in one leaves the others alone. -/
inductive Agrees (top : Block) (scopes : Scopes) (globals : Machine.Memory (Option Value)) :
    List Level → List Block → Prop
  | root : 0 < scopes.size → (∀ name, scopes.bound? 0 name = top.value? globals name) →
    Agrees top scopes globals [] []
  | loop {level : Level} {block : Block} {levels : List Level} {blocks : List Block} :
    level.Agrees scopes globals block → level.scope ∉ Level.env levels →
    Agrees top scopes globals levels blocks →
    Agrees top scopes globals (level :: levels) (block :: blocks)

section Agrees

variable {top : Block} {scopes scopes' : Scopes} {globals globals' : Machine.Memory (Option Value)}
  {level : Level} {levels : List Level} {block block' : Block} {blocks : List Block}
  {name : String} {value : Value}

theorem Agrees.there (h : Agrees top scopes globals levels blocks) :
    ∀ id ∈ Level.env levels, id < scopes.size := by
  induction h with
  | root hsize _ =>
    intro id hid
    obtain rfl := List.mem_singleton.mp hid
    exact hsize
  | loop hlevel _ _ ih =>
    intro id hid
    rcases List.mem_cons.mp hid with rfl | hid
    · exact hlevel.there
    · exact ih id hid

/-- The root scope and the top level hold the same, wherever the program stands. -/
theorem Agrees.atRoot (h : Agrees top scopes globals levels blocks) :
    Agrees top scopes globals [] [] := by
  induction h with
  | root hsize hroot => exact .root hsize hroot
  | loop _ _ _ ih => exact ih

theorem Agrees.bound_root (h : Agrees top scopes globals levels blocks) (name : String) :
    scopes.bound? 0 name = top.value? globals name := by
  cases h.atRoot with
  | root _ hroot => exact hroot name

/-- Inside of a loop there is the scope of a loop. -/
theorem Agrees.inLoop (h : Agrees top scopes globals levels blocks) (hlevels : levels ≠ []) :
    scopes.inLoop (Level.env levels) = true := by
  cases h with
  | root _ _ => exact absurd rfl hlevels
  | loop hlevel _ _ => exact Scopes.inLoop_cons_of_ofLoop hlevel.loop _

/-- A loop is left. -/
theorem Agrees.leave (h : Agrees top scopes globals (level :: levels) (block :: blocks)) :
    Agrees top scopes globals levels blocks := by
  cases h with
  | loop _ _ hrest => exact hrest

theorem Level.Agrees.frame (h : level.Agrees scopes globals block)
    (hscopes : ∀ name, scopes'.bound? level.scope name = scopes.bound? level.scope name)
    (hloop : scopes'.ofLoop level.scope = scopes.ofLoop level.scope)
    (hsize : scopes.size ≤ scopes'.size)
    (hglobals : ∀ name, block.value? globals' name = block.value? globals name) :
    level.Agrees scopes' globals' block where
  values name hname := by rw [hscopes, h.values name hname, hglobals]
  bound name hname hblock := by
    rw [hscopes]
    exact h.bound name hname hblock
  loop := hloop.trans h.loop
  there := Nat.lt_of_lt_of_le h.there hsize

/-- **Other scopes and other slots may change.** This is what remains to be shown of a step that
does not concern the variables of the environment. -/
theorem Agrees.frame (h : Agrees top scopes globals levels blocks)
    (hscopes : ∀ id ∈ Level.env levels, ∀ name, scopes'.bound? id name = scopes.bound? id name)
    (hloop : ∀ id ∈ Level.env levels, scopes'.ofLoop id = scopes.ofLoop id)
    (hsize : scopes.size ≤ scopes'.size)
    (hglobals : ∀ block ∈ blocks ++ [top], ∀ name,
      block.value? globals' name = block.value? globals name) :
    Agrees top scopes' globals' levels blocks := by
  induction h with
  | root hpos hroot =>
    refine .root (Nat.lt_of_lt_of_le hpos hsize) fun name => ?_
    rw [hscopes 0 (List.mem_singleton.mpr rfl), hroot, hglobals top (by simp)]
  | @loop level block levels blocks hlevel hfresh _ ih =>
    refine .loop (hlevel.frame (hscopes _ (List.mem_cons_self ..)) (hloop _ (List.mem_cons_self ..))
      hsize (hglobals block (by simp))) hfresh (ih (fun id hid => hscopes id ?_)
        (fun id hid => hloop id ?_) fun inner hinner => hglobals inner ?_)
    · exact List.mem_cons_of_mem _ hid
    · exact List.mem_cons_of_mem _ hid
    · exact List.mem_cons_of_mem _ hinner

/-- More names may be left out, and the block may be any that has the same symbols for the rest.
With this the relation is carried from the end of a body back to its start. -/
theorem Agrees.weaken (h : Agrees top scopes globals (level :: levels) (block :: blocks))
    {later : List String}
    (hlater : ∀ name, name ∉ later → name ∉ level.later ∧ block'[name]? = block[name]?) :
    Agrees top scopes globals (⟨level.scope, later⟩ :: levels) (block' :: blocks) := by
  cases h with
  | loop hlevel hfresh hrest =>
    refine .loop ⟨fun name hname => ?_, fun name hname hblock => ?_, hlevel.loop, hlevel.there⟩
      hfresh hrest
    · obtain ⟨hout, heq⟩ := hlater name hname
      rw [Block.value?, heq]
      exact hlevel.values name hout
    · obtain ⟨hout, heq⟩ := hlater name hname
      rw [heq] at hblock
      exact hlevel.bound name hout hblock

/-- A loop is entered: its scope is new and binds nothing, and neither does its block. -/
theorem Agrees.enter (h : Agrees top scopes globals levels blocks) (later : List String) :
    Agrees top (scopes.add true) globals (⟨scopes.next, later⟩ :: levels) (∅ :: blocks) := by
  refine .loop ⟨fun name _ => ?_, fun name _ hblock => ?_, Scopes.ofLoop_add_next true, ?_⟩ ?_ ?_
  · rw [Scopes.bound?_add_next]
    simp [Block.value?]
  · exact absurd hblock (by simp)
  · show scopes.size < _
    rw [Scopes.size_add]
    exact Nat.lt_succ_self _
  · exact fun hmem => Nat.lt_irrefl _ (h.there _ hmem)
  · refine h.frame (fun id hid name => Scopes.bound?_add true (h.there id hid))
      (fun id hid => Scopes.ofLoop_add true (h.there id hid)) ?_ fun _ _ _ => rfl
    rw [Scopes.size_add]
    exact Nat.le_succ _

/-! ## Reading and writing variables

The three uses of a variable. Reading one compares a lookup along the scopes with the search through
the blocks; both go from the inside out. -/

/-- The symbol that stands for a name in some blocks or at the top level. -/
def found? (top : Block) (blocks : List Block) (name : String) : Option Symbol :=
  (blocks.findSome? fun block => block[name]?).or top[name]?

theorem found?_cons_some {symbol : Symbol} (h : block[name]? = some symbol) :
    found? top (block :: blocks) name = some symbol := by
  simp [found?, h]

theorem found?_cons_none (h : block[name]? = none) :
    found? top (block :: blocks) name = found? top blocks name := by
  simp [found?, h]

/-- **A name means what its slot holds.** Induction along the loops: if the block of the innermost
loop has the name, then its scope has bound it; if not, both go on outwards. -/
theorem Agrees.lookup?_eq (h : Agrees top scopes globals levels blocks)
    (hname : ∀ level ∈ levels, name ∉ level.later) :
    scopes.lookup? name (Level.env levels)
      = (found? top blocks name).bind (Symbol.value? globals) := by
  induction h with
  | root _ hroot =>
    show scopes.lookup? name [0] = _
    rw [Scopes.lookup?_root, hroot]
    simp [found?, Block.value?]
  | @loop level block levels blocks hlevel _ _ ih =>
    have hout := hname level (List.mem_cons_self ..)
    have hvalue := hlevel.values name hout
    cases hblock : block[name]? with
    | none =>
      -- neither the block nor the scope has the name
      have houter := ih fun level hlevel => hname level (List.mem_cons_of_mem _ hlevel)
      rw [found?_cons_none hblock, ← houter]
      refine Scopes.lookup?_cons_of_unbound ?_
      rw [hvalue, Block.value?, hblock]
      rfl
    | some symbol =>
      have hset := hlevel.bound name hout (by rw [hblock]; rfl)
      obtain ⟨value, hbound⟩ := Option.isSome_iff_exists.mp hset
      rw [found?_cons_some hblock]
      show scopes.lookup? name (level.scope :: Level.env levels) = _
      rw [Scopes.lookup?_cons_of_bound hbound, ← hbound, hvalue, Block.value?, hblock]

theorem Block.value?_write_self {symbol : Symbol} (hblock : block[name]? = some symbol)
    (hkind : symbol.kind = .global) :
    block.value? (globals.write symbol.index (some value)) name = some value := by
  rw [Block.value?, hblock]
  show symbol.value? _ = _
  rw [Symbol.value?_global hkind, Machine.Memory.read_write, if_pos rfl]

theorem Block.value?_write_other {index : Nat}
    (h : ∀ symbol : Symbol, block[name]? = some symbol → symbol.kind = .global →
      symbol.index ≠ index) :
    block.value? (globals.write index (some value)) name = block.value? globals name := by
  rw [Block.value?, Block.value?]
  cases hblock : block[name]? with
  | none => rfl
  | some symbol =>
    show symbol.value? _ = symbol.value? _
    by_cases hkind : symbol.kind = .global
    · rw [Symbol.value?_global hkind, Symbol.value?_global hkind, Machine.Memory.read_write,
        if_neg (h symbol hblock hkind)]
    · rw [Symbol.value?, if_neg hkind, Symbol.value?, if_neg hkind]

/-- **A variable of the innermost loop is bound.** Its scope gets the name, and the slot of its
symbol gets the value. The blocks around have other slots, so for them nothing has changed. -/
theorem Agrees.bind {names : Array String} {symbol : Symbol} {later : List String}
    (hsep : Separate names top (block' :: blocks))
    (h : Agrees top scopes globals (level :: levels) (block :: blocks))
    (hself : block'[name]? = some symbol)
    (hother : ∀ other, other ≠ name → block'[other]? = block[other]?)
    (hlater : ∀ other, other ∉ later → other = name ∨ other ∉ level.later) :
    Agrees top (scopes.bind level.scope name value) (globals.write symbol.index (some value))
      (⟨level.scope, later⟩ :: levels) (block' :: blocks) := by
  have hkind := hsep.kinds block' (List.mem_cons_self ..) name symbol hself
  cases h with
  | loop hlevel hfresh hrest =>
    refine .loop ⟨fun other hout => ?_, fun other hout hblock => ?_, ?_, ?_⟩ hfresh ?_
    · by_cases heq : other = name
      · subst heq
        rw [Scopes.bound?_bind_self hlevel.there, Block.value?_write_self hself hkind]
      · have hout' := (hlater other hout).resolve_left heq
        have hslot : block'.value? (globals.write symbol.index (some value)) other
            = block'.value? globals other :=
          Block.value?_write_other fun y hy hykind => hsep.index_ne (List.mem_cons_self ..)
            (List.mem_cons_self ..) (Ne.symm heq) hself hy hkind hykind
        rw [Scopes.bound?_bind_name heq, hlevel.values other hout', hslot, Block.value?,
          Block.value?, hother other heq]
    · by_cases heq : other = name
      · subst heq
        rw [Scopes.bound?_bind_self hlevel.there]
        rfl
      · rw [Scopes.bound?_bind_name heq]
        rw [hother other heq] at hblock
        exact hlevel.bound other ((hlater other hout).resolve_left heq) hblock
    · exact Scopes.ofLoop_bind.trans hlevel.loop
    · exact Nat.lt_of_lt_of_eq hlevel.there (Scopes.size_bind ..).symm
    -- the blocks around have other slots
    · refine hrest.frame (fun id hid other => Scopes.bound?_bind_other ?_)
        (fun id _ => Scopes.ofLoop_bind) (Nat.le_of_eq (Scopes.size_bind ..).symm) ?_
      · rintro rfl
        exact hfresh hid
      · intro outer houter other
        refine Block.value?_write_other fun y hy hykind => ?_
        by_cases heq : other = name
        · subst heq
          exact Ne.symm ((List.pairwise_cons.mp hsep.apart).1 outer houter other symbol y hself hy)
        · exact hsep.index_ne (List.mem_cons_self ..) (List.mem_cons_of_mem _ houter)
            (Ne.symm heq) hself hy hkind hykind

/-- **A variable that is known is assigned.** Induction along the loops, as for reading: the
assignment goes to the scope that has the name, and the compiler has found its symbol in the block
of that scope. -/
theorem Agrees.assign {names : Array String} {symbol : Symbol}
    (hsep : Separate names top blocks) (h : Agrees top scopes globals levels blocks)
    (hname : ∀ level ∈ levels, name ∉ level.later)
    (hfound : found? top blocks name = some symbol) (hkind : symbol.kind = .global) :
    Agrees top (scopes.assign name value (Level.env levels))
      (globals.write symbol.index (some value)) levels blocks := by
  induction h with
  | root hsize hroot =>
    have hself : top[name]? = some symbol := hfound
    refine .root (by rwa [Scopes.size_assign]) fun other => ?_
    show (scopes.bind 0 name value).bound? 0 other = _
    by_cases heq : other = name
    · subst heq
      rw [Scopes.bound?_bind_self hsize, Block.value?_write_self hself hkind]
    · rw [Scopes.bound?_bind_name heq, hroot]
      refine (Block.value?_write_other fun y hy hykind => ?_).symm
      exact hsep.index_ne (by simp) (by simp) (Ne.symm heq) hself hy hkind hykind
  | @loop level block levels blocks hlevel hfresh hrest ih =>
    have hout := hname level (List.mem_cons_self ..)
    cases hblock : block[name]? with
    -- this loop has the name
    | some found =>
      obtain rfl : found = symbol := by
        rw [found?_cons_some hblock] at hfound
        exact Option.some.inj hfound
      have hset := hlevel.bound name hout (by rw [hblock]; rfl)
      show Agrees top (scopes.assign name value (level.scope :: Level.env levels)) _ _ _
      rw [Scopes.assign_cons_of_bound (Level.env_ne_nil levels) hset]
      exact Agrees.bind hsep (.loop hlevel hfresh hrest) hblock (fun _ _ => rfl)
        fun other hother => .inr hother
    -- a loop around it or the top level has it, in a slot that is none of this block
    | none =>
      rw [found?_cons_none hblock] at hfound
      have hunbound : scopes.bound? level.scope name = none := by
        rw [hlevel.values name hout, Block.value?, hblock]
        rfl
      show Agrees top (scopes.assign name value (level.scope :: Level.env levels)) _ _ _
      rw [Scopes.assign_cons_of_unbound (Level.env_ne_nil levels) hunbound]
      refine .loop (hlevel.frame (fun other => Scopes.bound?_assign (.inl hfresh))
        Scopes.ofLoop_assign (Nat.le_of_eq (Scopes.size_assign _).symm) fun other => ?_) hfresh
        (ih hsep.tail (fun level hlevel => hname level (List.mem_cons_of_mem _ hlevel)) hfound)
      refine Block.value?_write_other fun y hy hykind => ?_
      obtain ⟨outer, houter, hself⟩ : ∃ outer ∈ blocks ++ [top], outer[name]? = some symbol := by
        rw [found?, Option.or_eq_some_iff] at hfound
        rcases hfound with hfound | ⟨-, hfound⟩
        · obtain ⟨outer, houter, hself⟩ := List.exists_of_findSome?_eq_some hfound
          exact ⟨outer, List.mem_append_left _ houter, hself⟩
        · exact ⟨top, by simp, hfound⟩
      have hne : name ≠ other := by
        rintro rfl
        rw [hblock] at hy
        exact absurd hy (by simp)
      exact hsep.index_ne (List.mem_cons_of_mem _ houter) (List.mem_cons_self ..) hne hself hy
        hkind hykind

end Agrees

end Scriptlet
