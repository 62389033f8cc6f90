import Scriptlet.Proofs.Jumps.Stray
import Scriptlet.Proofs.Layout.Emission
import Scriptlet.Proofs.Symbols.Globals
import Scriptlet.Proofs.Values.Identity

/-!
# What a step of a compilation keeps

A session goes on with the state in which a program has left the compiler, also when the program has
been refused half-way through a function. So what an earlier program has left must survive failures
as well. `Kept n s t` says what a compilation that went from state `s` to state `t` has left alone:
the code below position `n`, the constants and global names made before, and the nesting of
functions, blocks and loops. A constant that is new has an identity that no other one has, if it has
any. `Grows` says more, but only of steps that succeed; here a step may have failed anywhere inside.

`Steps m x quoted strays` says that the step `x` keeps all this up to any position `n ≤ m`, whatever
its outcome. It also relates the outcome to the jumps out of loops in what is compiled: a step that
complains about a jump has one that strays, and a step that succeeds has none, unless a part of it
may have been quoted.

The lemmas below are the calculus of `Steps`: how it composes along a bind, and that every
elementary step of the compiler meets it. The combinators and the syntax follow in
`Proofs/Sessions/Compiled.lean`.
-/

namespace Scriptlet

/-! ## Nesting of blocks

The nesting is all that must be the same behind a program as before it. What a table has learned
meanwhile — symbols, free variables, slots — may stay, and does. -/

namespace Symbols

/-- How many blocks are open in each function, innermost function first. -/
def nesting (symbols : Symbols) : List Nat :=
  symbols.tables.map fun table => table.blocks.length

theorem nesting_mk (table : FunctionTable) (outer : List FunctionTable) (globals : Array String) :
    nesting ⟨table, outer, globals⟩
      = table.blocks.length :: outer.map fun table => table.blocks.length := rfl

theorem length_blocks_insert (table : FunctionTable) (symbol : Symbol) :
    (table.insert symbol).blocks.length = table.blocks.length := by
  obtain ⟨blocks, level, slots, captured⟩ := table
  cases blocks <;> rfl

@[simp] theorem nesting_define (symbols : Symbols) (name : String) :
    (symbols.define name).2.nesting = symbols.nesting := by
  obtain ⟨table, outer, globals⟩ := symbols
  unfold define
  simp only
  split
  · rfl
  · simp only [nesting_mk, length_blocks_insert]
    rfl

theorem nesting_defineLast (name : String) (table : FunctionTable) (outer : List FunctionTable) :
    ((defineLast name table outer).2.1 :: (defineLast name table outer).2.2).map
        (fun table => table.blocks.length)
      = (table :: outer).map fun table => table.blocks.length := by
  induction outer generalizing table with
  | nil => rfl
  | cons next outer ih =>
    rw [defineLast, List.map_cons, List.map_cons]
    exact congrArg _ (ih next)

@[simp] theorem nesting_defineGlobal (symbols : Symbols) (name : String) :
    (symbols.defineGlobal name).2.nesting = symbols.nesting := by
  obtain ⟨table, outer, globals⟩ := symbols
  exact nesting_defineLast name table outer

theorem nesting_resolveIn {name : String} {table table' : FunctionTable}
    {outer outer' : List FunctionTable} {symbol : Symbol}
    (h : resolveIn name table outer = some (symbol, table', outer')) :
    (table' :: outer').map (fun table => table.blocks.length)
      = (table :: outer).map fun table => table.blocks.length := by
  induction outer generalizing table table' outer' symbol with
  | nil =>
    rw [resolveIn] at h
    split at h
    · cases h
      rfl
    · cases h
  | cons next outer ih =>
    rw [resolveIn] at h
    split at h
    · cases h
      rfl
    · simp only at h
      split at h
      · cases h
      · rename_i around next' outer'' hnext
        have hnesting := ih hnext
        -- a name that is captured goes to the level of the function, not to one of its blocks
        split at h
        all_goals
          cases h
          rw [List.map_cons, hnesting]
          rfl

@[simp] theorem nesting_resolve (symbols : Symbols) (name : String) :
    (symbols.resolve name).2.nesting = symbols.nesting := by
  obtain ⟨table, outer, globals⟩ := symbols
  unfold resolve
  simp only
  split
  · rfl
  · rename_i h
    exact nesting_resolveIn h

end Symbols

namespace Compilation

/-! ## States -/

/-- Whether the current position is in the body of a loop. -/
def State.inLoop (s : State) : Bool :=
  !s.segment.loops.isEmpty

/-- **The identities of constants have been issued in turn.** They are below the next one, and no
two constants have the same. The last field is what makes two literals different values: their
constants are. -/
structure Issued (constants : Array Value) (fresh : Nat) : Prop where
  plain : ∀ v ∈ constants, v.IsConstant
  below : ∀ v ∈ constants, ∀ id, v.identity? = some id → id < fresh
  apart : constants.toList.Pairwise fun v w =>
    ∀ id, v.identity? = some id → w.identity? ≠ some id

section Issued

variable {constants : Array Value} {fresh : Nat} {value : Value}

theorem Issued.mono (h : Issued constants fresh) {fresh' : Nat} (hle : fresh ≤ fresh') :
    Issued constants fresh' :=
  ⟨h.plain, fun v hv id hid => Nat.lt_of_lt_of_le (h.below v hv id hid) hle, h.apart⟩

/-- A constant has no identity, or one that has not been issued before. -/
theorem Issued.push (h : Issued constants fresh) {fresh' : Nat} (hle : fresh ≤ fresh')
    (hvalue : value.IsConstant)
    (hid : ∀ id, value.identity? = some id → fresh ≤ id ∧ id < fresh') :
    Issued (constants.push value) fresh' where
  plain v hv := by
    rcases Array.mem_push.mp hv with hv | rfl
    · exact h.plain v hv
    · exact hvalue
  below v hv id hv' := by
    rcases Array.mem_push.mp hv with hv | rfl
    · exact Nat.lt_of_lt_of_le (h.below v hv id hv') hle
    · exact (hid id hv').2
  apart := by
    rw [Array.toList_push]
    refine List.pairwise_append.mpr ⟨h.apart, List.pairwise_singleton _ _,
      fun v hv w hw id hv' => ?_⟩
    obtain rfl := List.mem_singleton.mp hw
    intro hw'
    exact absurd (h.below v (Array.mem_toList_iff.mp hv) id hv')
      (Nat.not_lt.mpr (hid id hw').1)

/-- An identity belongs to one constant. -/
theorem Issued.index_eq (h : Issued constants fresh) {i j : Nat} {v w : Value}
    (hi : constants[i]? = some v) (hj : constants[j]? = some w) (hid : v.identity? ≠ none)
    (heq : v.identity? = w.identity?) : i = j := by
  obtain ⟨id, hid⟩ := Option.ne_none_iff_exists'.mp hid
  have hapart : ∀ {i j : Nat} {v w : Value}, constants[i]? = some v → constants[j]? = some w →
      v.identity? = some id → w.identity? = some id → ¬ i < j := by
    intro i j v w hi hj hv hw hlt
    obtain ⟨hi', rfl⟩ := Array.getElem?_eq_some_iff.mp hi
    obtain ⟨hj', rfl⟩ := Array.getElem?_eq_some_iff.mp hj
    exact List.pairwise_iff_getElem.mp h.apart i j hi' hj' hlt id hv hw
  exact Nat.le_antisymm (Nat.le_of_not_lt (hapart hj hi (heq ▸ hid) hid))
    (Nat.le_of_not_lt (hapart hi hj hid (heq ▸ hid)))

end Issued

/-- **What a compilation from `s` to `t` has left alone**: the code below position `n`, all
constants and global names, and the nesting of functions, blocks and loops.

The globals are named as before if they were. Jumps that have been left open stand at `n` or behind;
they are added to the loop that is open, and no other part of the loops changes. -/
structure Kept (n : Nat) (s t : State) : Prop where
  enclosing : t.enclosing = s.enclosing
  nesting : t.symbols.nesting = s.symbols.nesting
  constants : s.constants.toList <+: t.constants.toList
  issued : Issued s.constants s.fresh → Issued t.constants t.fresh
  globals : s.symbols.globals.toList <+: t.symbols.globals.toList
  named : s.symbols.GlobalsNamed → t.symbols.GlobalsNamed
  size : n ≤ t.segment.code.size
  code : ∀ i < n, t.segment.code[i]? = s.segment.code[i]?
  loops : ∃ jumps : List OpenJump, (∀ j ∈ jumps, n ≤ j.position)
    ∧ t.segment.loops = addJumps jumps s.segment.loops

section Kept

variable {n : Nat} {s t u : State}

theorem Kept.refl (hn : n ≤ s.segment.code.size) : Kept n s s where
  enclosing := rfl
  nesting := rfl
  constants := List.prefix_refl _
  issued := id
  globals := List.prefix_refl _
  named := id
  size := hn
  code _ _ := rfl
  loops := ⟨[], by simp, (addJumps_nil _).symm⟩

theorem Kept.trans (h : Kept n s t) (h' : Kept n t u) : Kept n s u where
  enclosing := h'.enclosing.trans h.enclosing
  nesting := h'.nesting.trans h.nesting
  constants := h.constants.trans h'.constants
  issued hs := h'.issued (h.issued hs)
  globals := h.globals.trans h'.globals
  named hs := h'.named (h.named hs)
  size := h'.size
  code i hi := (h'.code i hi).trans (h.code i hi)
  loops := by
    obtain ⟨jumps, hjumps, hloops⟩ := h.loops
    obtain ⟨more, hmore, hloops'⟩ := h'.loops
    refine ⟨more ++ jumps, fun j hj => ?_, by rw [hloops', hloops, addJumps_append]⟩
    rcases List.mem_append.mp hj with hj | hj
    · exact hmore j hj
    · exact hjumps j hj

/-- Jumps are only ever added to a loop, so whether one is open is not changed by what is kept. -/
theorem Kept.inLoop (h : Kept n s t) : t.inLoop = s.inLoop := by
  obtain ⟨jumps, -, hloops⟩ := h.loops
  rw [State.inLoop, State.inLoop, hloops]
  cases s.segment.loops <;> rfl

/-- A change of the segment alone, which leaves the loops and the code below `n` as they are. -/
theorem kept_segment {change : Segment → Segment} (hn : n ≤ (change s.segment).code.size)
    (hcode : ∀ i < n, (change s.segment).code[i]? = s.segment.code[i]?)
    (hloops : (change s.segment).loops = s.segment.loops) : Kept n s (s.mapSegment change) where
  enclosing := rfl
  nesting := rfl
  constants := List.prefix_refl _
  issued := id
  globals := List.prefix_refl _
  named := id
  size := hn
  code := hcode
  loops := ⟨[], by simp, hloops.trans (addJumps_nil _).symm⟩

theorem kept_emit (hn : n ≤ s.segment.code.size) (op : Op) (operands : List Nat) :
    Kept n s (s.emit op operands) := by
  have hgrows := grows_emit s op operands
  exact kept_segment (Nat.le_trans hn hgrows.size)
    (fun i hi => hgrows.code i (Nat.lt_of_lt_of_le hi hn)) rfl

/-- A jump is sent to its target. -/
theorem kept_patch {jump target : Nat} (hn : n ≤ s.segment.code.size) (hjump : n ≤ jump) :
    Kept n s (s.mapSegment (Segment.patch jump target)) := by
  obtain ⟨constants, symbols, ⟨code, last, previous, loops, depth⟩, enclosing, fresh⟩ := s
  apply kept_segment
  all_goals
    unfold Segment.patch
    simp only
    split
  · rw [Code.size_overwrite]
    exact hn
  · exact hn
  · intro i hi
    rw [Code.getElem?_overwrite, if_neg (by omega)]
  · exact fun _ _ => rfl
  all_goals rfl

/-- **The last instruction of a branch may be taken back**, because it stands behind the start of
the branch, and so behind everything that is to be kept. This is the only step of the compiler that
makes the code shorter. -/
theorem kept_removeLastPop {op : Op} {start : Nat} (hn : n ≤ s.segment.code.size)
    (hstart : n ≤ start) (hlast : s.segment.lastIs op start = true) :
    Kept n s (s.mapSegment Segment.removeLastPop) := by
  obtain ⟨constants, symbols, ⟨code, last, previous, loops, depth⟩, enclosing, fresh⟩ := s
  cases last with
  | none => exact Kept.refl hn
  | some last =>
    have hposition : start ≤ last.position := by
      simp only [Segment.lastIs, Bool.and_eq_true, decide_eq_true_eq] at hlast
      exact hlast.2
    apply kept_segment
    · show n ≤ (code.truncate last.position).size
      rw [Code.size_truncate]
      exact Nat.le_min.mpr ⟨Nat.le_trans hstart hposition, hn⟩
    · intro i hi
      show (code.truncate last.position)[i]? = code[i]?
      rw [Code.truncate, ← Array.getElem?_toList, Array.toList_shrink, List.getElem?_take_of_lt
        (by omega), Array.getElem?_toList]
    · rfl

/-- A change of the symbols alone. -/
theorem kept_symbols {symbols : Symbols} (hn : n ≤ s.segment.code.size)
    (hnesting : symbols.nesting = s.symbols.nesting)
    (hglobals : s.symbols.globals.toList <+: symbols.globals.toList)
    (hnamed : s.symbols.GlobalsNamed → symbols.GlobalsNamed) :
    Kept n s (s.withSymbols symbols) :=
  { Kept.refl hn with nesting := hnesting, globals := hglobals, named := hnamed }

/-- A jump out of the innermost loop is left open. -/
theorem kept_openJump (hn : n ≤ s.segment.code.size) {j : OpenJump} (hj : n ≤ j.position) :
    Kept n s (s.mapSegment (Segment.onLoop (LoopContext.add [j]))) := by
  obtain ⟨constants, symbols, ⟨code, last, previous, loops, depth⟩, enclosing, fresh⟩ := s
  have hsegment := Segment.onLoop_eq ⟨code, last, previous, loops, depth⟩ (LoopContext.add [j])
  refine ⟨rfl, rfl, List.prefix_refl _, id, List.prefix_refl _, id, ?_, ?_, [j],
    by simpa using hj, ?_⟩
  · rw [State.mapSegment, hsegment]
    exact hn
  · rw [State.mapSegment, hsegment]
    exact fun _ _ => rfl
  · cases loops <;> rfl

end Kept

/-! ## Outcomes -/

/-- **How a step from `s` ends.** It has kept what `Kept` says, it fails on a jump only if one
strays, and it succeeds where one strays only if a part has been quoted: the argument of `quote` is
not compiled at all. -/
def Compiles {α : Type} (n : Nat) (s : State) (quoted : Bool) (strays : LoopJump → Bool) :
    EStateM.Result CompileError State α → Prop
  | .ok _ t => Kept n s t ∧ ∀ jump, strays jump = true → quoted = true
  | .error error t => Kept n s t ∧ ∀ jump, error = LoopJump.error jump → strays jump = true

/-- **A step compiles as it should from every state**, up to any position that is at most `m`. Which
jumps stray may depend on whether the step starts in the body of a loop.

The bound is there for steps that write behind a position they have been given, such as `patch`.
They keep what stands before that position only; all others keep the code up to its end, and meet
this for every `m`. -/
def Steps {α : Type} (m : Nat) (x : Compile α) (quoted : Bool) (strays : LoopJump → Bool → Bool) :
    Prop :=
  ∀ n s, n ≤ m → n ≤ s.segment.code.size →
    Compiles n s quoted (fun jump => strays jump s.inLoop) (x s)

/-- A step that compiles no part of the program by itself. -/
abbrev Plain {α : Type} (m : Nat) (x : Compile α) : Prop :=
  Steps m x false fun _ _ => false

section Steps

variable {α β : Type} {n m m' : Nat} {s t : State} {quoted quoted' : Bool}
  {strays strays' : LoopJump → Bool → Bool} {x : Compile α} {f : α → Compile β}

/-- What a step that starts later keeps is kept from before. -/
theorem Compiles.behind {strays : LoopJump → Bool} {r : EStateM.Result CompileError State α}
    (ht : Kept n s t) (h : Compiles n t quoted strays r) : Compiles n s quoted strays r := by
  cases r with
  | ok a u => exact ⟨ht.trans h.1, h.2⟩
  | error error u => exact ⟨ht.trans h.1, h.2⟩

/-- **A step that goes on behind another one.** The second part may use that the first has succeeded
and what it has kept. A failure of the first part is the outcome of both, and its jump, if it is
one, strays in both. -/
theorem Compiles.bind {strays strays' : LoopJump → Bool} (h : Compiles n s quoted strays (x s))
    (hf : ∀ a t, x s = .ok a t → Kept n s t → Compiles n t quoted' strays' (f a t)) :
    Compiles n s (quoted || quoted') (fun jump => strays jump || strays' jump)
      ((x >>= f) s) := by
  have hbind : (x >>= f) s = EStateM.bind x f s := rfl
  rw [hbind, EStateM.bind]
  cases hx : x s with
  | error error t =>
    rw [hx] at h
    exact ⟨h.1, fun jump hjump => (Bool.or_eq_true _ _).mpr (.inl (h.2 jump hjump))⟩
  | ok a t =>
    rw [hx] at h
    have hrest := hf a t hx h.1
    dsimp only
    cases hy : f a t with
    | error error u =>
      rw [hy] at hrest
      exact ⟨h.1.trans hrest.1,
        fun jump hjump => (Bool.or_eq_true _ _).mpr (.inr (hrest.2 jump hjump))⟩
    | ok b u =>
      rw [hy] at hrest
      refine ⟨h.1.trans hrest.1, fun jump hjump => (Bool.or_eq_true _ _).mpr ?_⟩
      exact ((Bool.or_eq_true _ _).mp hjump).imp (h.2 jump) (hrest.2 jump)

/-- A step that goes on behind one that compiles nothing by itself. -/
theorem Compiles.after {strays : LoopJump → Bool} (h : Compiles n s false (fun _ => false) (x s))
    (hf : ∀ a t, x s = .ok a t → Kept n s t → Compiles n t quoted strays (f a t)) :
    Compiles n s quoted strays ((x >>= f) s) := by
  simpa only [Bool.false_or] using h.bind hf

theorem Steps.mono (h : Steps m x quoted strays) (hm : m' ≤ m) : Steps m' x quoted strays :=
  fun n s hn => h n s (Nat.le_trans hn hm)

/-- More jumps may stray where something has been quoted. -/
theorem Steps.imp (h : Steps m x quoted strays) (hquoted : quoted = true → quoted' = true)
    (hstrays : ∀ jump inLoop, strays jump inLoop = true → strays' jump inLoop = true)
    (hback : ∀ jump inLoop, strays' jump inLoop = true →
      strays jump inLoop = true ∨ quoted' = true) :
    Steps m x quoted' strays' := by
  intro n s hm hn
  have hx := h n s hm hn
  cases hr : x s with
  | ok a t =>
    rw [hr] at hx
    exact ⟨hx.1, fun jump hjump =>
      (hback jump s.inLoop hjump).elim (fun hjump => hquoted (hx.2 jump hjump)) id⟩
  | error error t =>
    rw [hr] at hx
    exact ⟨hx.1, fun jump hjump => hstrays jump s.inLoop (hx.2 jump hjump)⟩

/-- Less is said where more may have been quoted. -/
theorem Steps.weaken (h : Steps m x quoted strays) (hquoted : quoted = true → quoted' = true) :
    Steps m x quoted' strays :=
  h.imp hquoted (fun _ _ => id) fun _ _ => .inl

/-- The same outcome, said in other words. -/
theorem Steps.cast (h : Steps m x quoted strays) (hquoted : quoted = quoted')
    (hstrays : ∀ jump inLoop, strays jump inLoop = strays' jump inLoop) :
    Steps m x quoted' strays' := by
  obtain rfl : strays = strays' := funext fun jump => funext fun inLoop => hstrays jump inLoop
  exact hquoted ▸ h

/-- **Two steps in a row.** The second starts in a loop just if the first does, by `Kept.inLoop`, so
the jumps that stray in either stray in both. -/
theorem Steps.bind (h : Steps m x quoted strays) (hf : ∀ a, Steps m (f a) quoted' strays') :
    Steps m (x >>= f) (quoted || quoted')
      fun jump inLoop => strays jump inLoop || strays' jump inLoop := by
  intro n s hm hn
  refine (h n s hm hn).bind fun a t _ ht => ?_
  rw [← ht.inLoop]
  exact hf a n t hm ht.size

/-- Behind a step that compiles nothing by itself. -/
theorem Steps.after (hf : ∀ a, Steps m (f a) quoted strays) (h : Plain m x) :
    Steps m (x >>= f) quoted strays :=
  (h.bind hf).cast (Bool.false_or _) fun _ _ => Bool.false_or _

/-- In front of steps that compile nothing by themselves. -/
theorem Steps.then (h : Steps m x quoted strays) (hf : ∀ a, Plain m (f a)) :
    Steps m (x >>= f) quoted strays :=
  (h.bind hf).cast (Bool.or_false _) fun _ _ => Bool.or_false _

/-! ### Elementary steps

None of these compiles a part of the program, so for all of them it is enough that they keep what
`Kept` says and do not complain about jumps. -/

theorem plain_pure (a : α) : Plain m (pure a : Compile α) :=
  fun _ _ _ hn => ⟨.refl hn, by simp⟩

theorem plain_throw {error : CompileError}
    (h : ∀ jump, error ≠ LoopJump.error jump := by rintro (_ | _) <;> exact nofun) :
    Plain m (throw error : Compile α) :=
  fun _ _ _ hn => ⟨.refl hn, fun jump hjump => absurd hjump (h jump)⟩

/-- Nothing is done behind an error. -/
theorem plain_throw_bind {error : CompileError} {f : α → Compile β}
    (h : ∀ jump, error ≠ LoopJump.error jump := by rintro (_ | _) <;> exact nofun) :
    Plain m (throw error >>= f) :=
  fun _ _ _ hn => ⟨.refl hn, fun jump hjump => absurd hjump (h jump)⟩

/-- A step that looks at the state first. -/
theorem steps_get {f : State → Compile β} (hf : ∀ s, Steps m (f s) quoted strays) :
    Steps m (get >>= f) quoted strays :=
  Steps.after hf fun _ _ _ hn => ⟨.refl hn, by simp⟩

theorem plain_position : Plain m position :=
  steps_get fun _ => plain_pure _

theorem plain_depth : Plain m depth :=
  steps_get fun _ => plain_pure _

theorem plain_emit (op : Op) (operands : List Nat) : Plain m (emit op operands) :=
  fun _ s _ hn => ⟨kept_emit hn op operands, by simp⟩

theorem plain_setDepth (depth : Nat) : Plain m (onSegment (Segment.setDepth depth)) :=
  fun _ _ _ hn => ⟨kept_segment hn (fun _ _ => rfl) rfl, by simp⟩

theorem plain_onSymbols {change : Symbols → α × Symbols}
    (hnesting : ∀ symbols, (change symbols).2.nesting = symbols.nesting)
    (hglobals : ∀ symbols, symbols.globals.toList <+: (change symbols).2.globals.toList)
    (hnamed : ∀ symbols, symbols.GlobalsNamed → (change symbols).2.GlobalsNamed) :
    Plain m (onSymbols change) :=
  fun _ s _ hn => ⟨kept_symbols hn (hnesting s.symbols) (hglobals s.symbols) (hnamed s.symbols),
    by simp⟩

theorem plain_define (name : String) : Plain m (onSymbols (Symbols.define name)) :=
  plain_onSymbols (Symbols.nesting_define · name) (Symbols.globals_define · name)
    fun _ h => h.define name

theorem plain_defineGlobal (name : String) : Plain m (onSymbols (Symbols.defineGlobal name)) :=
  plain_onSymbols (Symbols.nesting_defineGlobal · name) (Symbols.globals_defineGlobal · name)
    fun _ h => h.defineGlobal name

theorem plain_resolveOnly (name : String) : Plain m (onSymbols (Symbols.resolve name)) :=
  plain_onSymbols (Symbols.nesting_resolve · name) (Symbols.globals_resolve · name)
    fun _ h => h.resolve name

theorem plain_checkTarget (target : Nat) : Plain m (checkTarget target) := by
  unfold checkTarget
  split
  · exact plain_throw
  · exact plain_pure ()

theorem plain_checkCount (count : Nat) : Plain m (checkCount count) := by
  unfold checkCount
  split
  · exact plain_throw
  · exact plain_pure ()

/-- A constant without an identity. -/
theorem plain_addConstant {value : Value} (hvalue : value.IsConstant)
    (hid : value.identity? = none) : Plain m (addConstant value) := by
  intro n s _ hn
  obtain ⟨constants, symbols, segment, enclosing, fresh⟩ := s
  simp only [addConstant]
  split
  · exact ⟨.refl hn, fun jump hjump => by cases jump <;> cases hjump⟩
  · exact ⟨{ Kept.refl hn with
      constants := by simp
      issued := fun h => h.push (Nat.le_refl _) hvalue fun id hv => by
        rw [hid] at hv
        cases hv }, by simp⟩

/-- **A constant with the next identity.** Drawing the identity and adding the constant are two
steps of the compiler, and only both of them together keep `Issued`: between them the identity is
out, but not yet in the table. -/
theorem steps_issue (value : Identity → Value) (hvalue : ∀ id, (value id).IsConstant)
    (hid : ∀ id, (value id).identity? = some id) {f : Nat → Compile β}
    (hf : ∀ index, Steps m (f index) quoted strays) :
    Steps m (identity >>= fun id => addConstant (value id) >>= f) quoted strays := by
  have hissue : Plain m (identity >>= fun id => addConstant (value id)) := by
    intro n s _ hn
    obtain ⟨constants, symbols, segment, enclosing, fresh⟩ := s
    show Compiles n _ _ _ (addConstant (value fresh) ⟨constants, symbols, segment, enclosing, _⟩)
    simp only [addConstant]
    split
    · exact ⟨{ Kept.refl hn with issued := fun h => h.mono (Nat.le_succ _) },
        fun jump hjump => by cases jump <;> cases hjump⟩
    · exact ⟨{ Kept.refl hn with
        constants := by simp
        issued := fun h => h.push (Nat.le_succ _) (hvalue _) fun id hv => by
          cases (hid fresh).symm.trans hv
          exact ⟨Nat.le_refl _, Nat.lt_succ_self _⟩ }, by simp⟩
  rw [← bind_assoc]
  exact Steps.after hf hissue

theorem plain_emitConstant {value : Value} (hvalue : value.IsConstant)
    (hid : value.identity? = none) : Plain m (emitConstant value) :=
  Steps.after (fun _ => plain_emit _ _) (plain_addConstant hvalue hid)

theorem plain_resolve (name : String) : Plain m (resolve name) := by
  refine Steps.after (fun symbol => ?_) (plain_resolveOnly name)
  cases symbol with
  | some symbol => exact plain_pure symbol
  | none => exact plain_defineGlobal name

theorem plain_load (symbol : Symbol) : Plain m (load symbol) := by
  unfold load
  split
  · split
    · exact plain_throw
    · exact plain_emit _ _
  all_goals exact plain_emit _ _

theorem plain_storeGlobal (index : Nat) : Plain m (storeGlobal index) := by
  unfold storeGlobal
  split
  · exact plain_throw
  · exact plain_emit _ _

theorem plain_store (symbol : Symbol) : Plain m (store symbol) := by
  unfold store
  split
  · exact plain_storeGlobal _
  · split
    · exact plain_throw
    · exact plain_emit _ _
  · exact plain_emit _ _
  · exact Steps.after (fun _ => plain_storeGlobal _) (plain_defineGlobal _)

theorem plain_emitOperator (op : Token) (operation : Option Op) :
    Plain m (emitOperator op operation) := by
  cases operation with
  | none => exact plain_throw
  | some operation => exact plain_emit _ _

theorem plain_patch {jump : Nat} (target : Nat) (hjump : m ≤ jump) : Plain m (patch jump target) :=
  Steps.after (fun _ _ _ hm hn => ⟨kept_patch hn (Nat.le_trans hm hjump), by simp⟩)
    (plain_checkTarget target)

theorem plain_forM {as : List α} {step : α → Compile Unit} (h : ∀ a ∈ as, Plain m (step a)) :
    Plain m (as.forM step) := by
  induction as with
  | nil => exact plain_pure ()
  | cons a as ih =>
    exact Steps.after (fun _ => ih fun a' ha' => h a' (List.mem_cons_of_mem _ ha'))
      (h a List.mem_cons_self)

theorem plain_patchAll {jumps : List Nat} (target : Nat) (hjumps : ∀ jump ∈ jumps, m ≤ jump) :
    Plain m (patchAll jumps target) :=
  plain_forM fun jump hjump => plain_patch target (hjumps jump hjump)

/-- What comes next stands behind everything that has been compiled before it. -/
theorem steps_position {f : Nat → Compile β}
    (hf : ∀ start m', m' ≤ m → m' ≤ start → Steps m' (f start) quoted strays) :
    Steps m (position >>= f) quoted strays :=
  fun n s hm hn => hf s.segment.code.size n hm hn n s (Nat.le_refl n) hn

/-- A jump stands behind everything that has been compiled before it. -/
theorem steps_emitJump {f : Nat → Compile β} (op : Op)
    (hf : ∀ jump m', m' ≤ m → m' ≤ jump → Steps m' (f jump) quoted strays) :
    Steps m (emitJump op >>= f) quoted strays := by
  intro n s hm hn
  have hkept := kept_emit hn op [placeholder]
  exact .behind hkept (hf s.segment.code.size n hm hn n _ (Nat.le_refl n) hkept.size)

end Steps

end Compilation

end Scriptlet
