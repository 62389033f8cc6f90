import Scriptlet.Proofs.Layout.Bytes

/-!
# What a step of a compilation emits

`Emits s t P` says that a compilation which went from state `s` to state `t` has only appended code
and constants, and that `P` holds of the appended part in every finished program that contains it:
whatever is emitted or patched afterwards, as long as the jumps that are still open are sent to the
targets of the loop around them.

The obstacle is that the compiler emits jumps before it knows their targets and goes back to patch
them. So what holds of the code at `t` is in general not what holds at the end. `Emits` therefore
never speaks of the code of `t` itself. It quantifies over all finished code that agrees with the
code of `t` except in the operand bytes of open jumps (`Finished`), and this is stable under
everything that the compiler does later: two steps in a row compose (`Emits.seq`), without looking
at what either of them has emitted.

The lemmas of this module give `Emits` for each elementary step and for two steps in a row, so that
the layout of a whole program is put together along the recursion of the compiler. Patching, which
is the one step that changes bytes in the middle, is the next module.
-/

namespace Scriptlet.Compilation

/-! ## Steps that succeed

Each elementary step of the compiler, read backwards from its success. The lemmas are equivalences,
so that `simp only` with them turns the success of a `do` block into the list of its intermediate
states. A step that checks something delivers the check as a conjunct. -/

section Inversion

variable {α β : Type} {s t : State}

/-- **Two steps succeed if the first one does and the second one does from there.** Every proof
about the compiler starts by taking a `do` block apart with this lemma. -/
theorem bind_ok {x : Compile α} {f : α → Compile β} {b : β} :
    (x >>= f) s = .ok b t ↔ ∃ a u, x s = .ok a u ∧ f a u = .ok b t := by
  show EStateM.bind x f s = .ok b t ↔ _
  unfold EStateM.bind
  cases hx : x s with
  | ok a u =>
    constructor
    · exact fun h => ⟨a, u, rfl, h⟩
    · rintro ⟨a', u', h, h'⟩
      cases h
      exact h'
  | error e u =>
    constructor
    · exact fun h => absurd h (by simp)
    · rintro ⟨a', u', h, -⟩
      cases h

theorem pure_ok {a b : α} : (pure a : Compile α) s = .ok b t ↔ a = b ∧ s = t := by
  show EStateM.Result.ok a s = .ok b t ↔ _
  rw [EStateM.Result.ok.injEq]

theorem throw_ok {e : CompileError} {b : α} : ¬ (throw e : Compile α) s = .ok b t := by
  show ¬ EStateM.Result.error e s = .ok b t
  simp

theorem get_ok {b : State} : (get : Compile State) s = .ok b t ↔ s = b ∧ s = t := by
  show EStateM.Result.ok s s = .ok b t ↔ _
  rw [EStateM.Result.ok.injEq]

/-- What is done at the end in any case is done after a success, too. -/
theorem followedBy_ok {x : Compile α} {change : State → State} {a : α} :
    followedBy x change s = .ok a t ↔ ∃ u, x s = .ok a u ∧ t = change u := by
  unfold followedBy
  cases hx : x s with
  | ok a' u =>
    constructor
    · intro h
      cases h
      exact ⟨u, rfl, rfl⟩
    · rintro ⟨u', h, rfl⟩
      cases h
      rfl
  | error e u =>
    constructor
    · exact fun h => absurd h (by simp)
    · rintro ⟨u', h, -⟩
      cases h

/-- The state with another segment. -/
def State.mapSegment (s : State) (change : Segment → Segment) : State :=
  { s with segment := change s.segment }

/-- The current position with the symbols known and the number of constants made there. -/
def State.point (s : State) : Point :=
  ⟨s.segment.code.size, s.symbols, s.constants.size⟩

/-- The depth of the innermost loop. -/
def State.loopDepth (s : State) : Option Nat :=
  s.segment.loops.head?.map LoopContext.depth

/-- The state with other symbols. -/
def State.withSymbols (s : State) (symbols : Symbols) : State :=
  { s with symbols }

theorem onSegment_ok {change : Segment → Segment} {b : Unit} :
    onSegment change s = .ok b t ↔ t = s.mapSegment change := by
  show EStateM.Result.ok () (s.mapSegment change) = .ok b t ↔ _
  rw [EStateM.Result.ok.injEq]
  exact ⟨fun h => h.2.symm, fun h => ⟨rfl, h.symm⟩⟩

theorem onSymbols_ok {change : Symbols → α × Symbols} {a : α} :
    onSymbols change s = .ok a t
      ↔ a = (change s.symbols).1 ∧ t = s.withSymbols (change s.symbols).2 := by
  show EStateM.Result.ok (change s.symbols).1 (s.withSymbols (change s.symbols).2) = .ok a t ↔ _
  rw [EStateM.Result.ok.injEq]
  exact ⟨fun h => ⟨h.1.symm, h.2.symm⟩, fun h => ⟨h.1.symm, h.2.symm⟩⟩

theorem position_ok {n : Nat} : position s = .ok n t ↔ n = s.segment.code.size ∧ s = t := by
  unfold position
  simp only [bind_ok, get_ok, pure_ok]
  constructor
  · rintro ⟨_, _, ⟨rfl, rfl⟩, rfl, rfl⟩
    exact ⟨rfl, rfl⟩
  · rintro ⟨rfl, rfl⟩
    exact ⟨_, _, ⟨rfl, rfl⟩, rfl, rfl⟩

theorem depth_ok {n : Nat} : depth s = .ok n t ↔ n = s.segment.depth ∧ s = t := by
  unfold depth
  simp only [bind_ok, get_ok, pure_ok]
  constructor
  · rintro ⟨_, _, ⟨rfl, rfl⟩, rfl, rfl⟩
    exact ⟨rfl, rfl⟩
  · rintro ⟨rfl, rfl⟩
    exact ⟨_, _, ⟨rfl, rfl⟩, rfl, rfl⟩

/-- The state after an instruction has been appended. -/
def State.emit (s : State) (op : Op) (operands : List Nat) : State :=
  s.mapSegment (Segment.emit op operands)

theorem emit_ok {op : Op} {operands : List Nat} {b : Unit} :
    emit op operands s = .ok b t ↔ t = s.emit op operands :=
  onSegment_ok

theorem emitJump_ok {op : Op} {n : Nat} :
    emitJump op s = .ok n t ↔ n = s.segment.code.size ∧ t = s.emit op [placeholder] := by
  unfold emitJump
  simp only [bind_ok, position_ok, emit_ok, pure_ok]
  constructor
  · rintro ⟨a, u, ⟨rfl, rfl⟩, b, v, rfl, rfl, rfl⟩
    exact ⟨rfl, rfl⟩
  · rintro ⟨rfl, rfl⟩
    exact ⟨_, _, ⟨rfl, rfl⟩, (), _, rfl, rfl, rfl⟩

theorem checkTarget_ok {target : Nat} {b : Unit} :
    checkTarget target s = .ok b t ↔ target ≤ maxWord ∧ s = t := by
  unfold checkTarget
  split
  · rename_i h
    exact ⟨fun h' => absurd h' throw_ok, fun h' => by omega⟩
  · rename_i h
    rw [pure_ok]
    exact ⟨fun h' => ⟨by omega, h'.2⟩, fun h' => ⟨rfl, h'.2⟩⟩

theorem checkCount_ok {count : Nat} {b : Unit} :
    checkCount count s = .ok b t ↔ count ≤ maxWord ∧ s = t := by
  unfold checkCount
  split
  · rename_i h
    exact ⟨fun h' => absurd h' throw_ok, fun h' => by omega⟩
  · rename_i h
    rw [pure_ok]
    exact ⟨fun h' => ⟨by omega, h'.2⟩, fun h' => ⟨rfl, h'.2⟩⟩

theorem patch_ok {jump target : Nat} {b : Unit} :
    patch jump target s = .ok b t
      ↔ target ≤ maxWord ∧ t = s.mapSegment (Segment.patch jump target) := by
  unfold patch
  simp only [bind_ok, checkTarget_ok, onSegment_ok]
  constructor
  · rintro ⟨a, u, ⟨h, rfl⟩, rfl⟩
    exact ⟨h, rfl⟩
  · rintro ⟨h, rfl⟩
    exact ⟨(), s, ⟨h, rfl⟩, rfl⟩

/-- A constant gets the next number, if there is still one. -/
theorem addConstant_ok {value : Value} {i : Nat} :
    addConstant value s = .ok i t
      ↔ i = s.constants.size ∧ i < maxConstants
        ∧ t = { s with constants := s.constants.push value } := by
  obtain ⟨constants, symbols, segment, enclosing, fresh⟩ := s
  simp only [addConstant]
  split
  · rename_i h
    exact ⟨fun h' => absurd h' (by simp), fun h' => by omega⟩
  · rename_i h
    rw [EStateM.Result.ok.injEq]
    exact ⟨fun h' => ⟨h'.1.symm, by omega, h'.2.symm⟩, fun h' => ⟨h'.1.symm, h'.2.2.symm⟩⟩

/-- Identities are handed out in turn, and there is always one more. -/
theorem identity_ok {id : Identity} :
    identity s = .ok id t ↔ id = s.fresh ∧ t = { s with fresh := s.fresh + 1 } := by
  show EStateM.Result.ok s.fresh { s with fresh := s.fresh + 1 } = .ok id t ↔ _
  rw [EStateM.Result.ok.injEq]
  exact ⟨fun h => ⟨h.1.symm, h.2.symm⟩, fun h => ⟨h.1.symm, h.2.symm⟩⟩

theorem forM_nil_ok {f : α → Compile Unit} {r : Unit} :
    ([] : List α).forM f s = .ok r t ↔ s = t := by
  show (pure () : Compile Unit) s = .ok r t ↔ _
  rw [pure_ok]
  exact ⟨fun h => h.2, fun h => ⟨rfl, h⟩⟩

theorem forM_cons_ok {f : α → Compile Unit} {a : α} {as : List α} {r : Unit} :
    (a :: as).forM f s = .ok r t ↔ ∃ u, f a s = .ok () u ∧ as.forM f u = .ok r t := by
  show (f a >>= fun _ => as.forM f) s = .ok r t ↔ _
  rw [bind_ok]
  exact ⟨fun ⟨_, u, h, h'⟩ => ⟨u, h, h'⟩, fun ⟨u, h, h'⟩ => ⟨(), u, h, h'⟩⟩

end Inversion

/-! ## Segments

What emitting an instruction and opening or closing a loop do to the fields of a segment. They are
simp lemmas, so no later proof unfolds `Segment.emit`. -/

@[simp] theorem Segment.code_emit (segment : Segment) (op : Op) (operands : List Nat) :
    (segment.emit op operands).code = segment.code ++ op.encode operands := rfl

@[simp] theorem Segment.loops_emit (segment : Segment) (op : Op) (operands : List Nat) :
    (segment.emit op operands).loops = segment.loops := rfl

@[simp] theorem Segment.last_emit (segment : Segment) (op : Op) (operands : List Nat) :
    (segment.emit op operands).last = some ⟨op, segment.code.size⟩ := rfl

@[simp] theorem Segment.depth_emit (segment : Segment) (op : Op) (operands : List Nat) :
    (segment.emit op operands).depth
      = (Int.ofNat segment.depth + stackEffect op operands).toNat := rfl

@[simp] theorem Segment.size_emit (segment : Segment) (op : Op) (operands : List Nat) :
    (segment.emit op operands).code.size = segment.code.size + op.size := by
  simp

@[simp] theorem Segment.code_setDepth (segment : Segment) (depth : Nat) :
    (segment.setDepth depth).code = segment.code := rfl

@[simp] theorem Segment.code_openLoop (segment : Segment) :
    segment.openLoop.code = segment.code := rfl

@[simp] theorem Segment.code_closeLoop (segment : Segment) :
    segment.closeLoop.code = segment.code := rfl

/-- A change of the innermost loop is a change of the loops. The equation keeps `onLoop`, which does
nothing where no loop is open, from being unfolded in the lemmas about open jumps. -/
theorem Segment.onLoop_eq (segment : Segment) (change : LoopContext → LoopContext) :
    segment.onLoop change = { segment with loops := (segment.onLoop change).loops } := by
  obtain ⟨code, last, previous, loops, depth⟩ := segment
  cases loops <;> rfl

theorem State.point_emit (s : State) (op : Op) (operands : List Nat) :
    (s.emit op operands).point = s.point.skip op.size := by
  simp [State.point, State.emit, State.mapSegment, Point.skip]

theorem State.point_addConstant (s : State) (value : Value) :
    State.point { s with constants := s.constants.push value } = s.point.addConstant := by
  simp [State.point, Point.addConstant]

/-! ## Open jumps

A jump out of a loop stays open until the loop is closed. The lists of the loop hold its position;
here it is one record, so that breaks and continues can be treated alike. Only jumps out of loops
are open across steps: the jumps of a condition are patched before the condition is complete. -/

/-- A jump out of a loop that has no target yet. -/
structure OpenJump where
  position : Nat
  breaks : Bool

/-- Where an open jump will lead, for given targets of the loop. -/
def OpenJump.target (onBreak onContinue : Nat) (j : OpenJump) : Nat :=
  if j.breaks then onBreak else onContinue

/-- A loop with more open jumps, the last one first. -/
def LoopContext.add (jumps : List OpenJump) (loop : LoopContext) : LoopContext where
  depth := loop.depth
  breaks := (jumps.filter OpenJump.breaks).map OpenJump.position ++ loop.breaks
  continues := (jumps.filter fun j => !j.breaks).map OpenJump.position ++ loop.continues

/-- The loops around some code with more jumps out of the innermost one. Without a loop there is
nothing to add to, and the compiler refuses such jumps. -/
def addJumps (jumps : List OpenJump) : List LoopContext → List LoopContext
  | [] => []
  | loop :: loops => loop.add jumps :: loops

@[simp] theorem addJumps_nil (loops : List LoopContext) : addJumps [] loops = loops := by
  cases loops <;> rfl

theorem addJumps_append (jumps more : List OpenJump) (loops : List LoopContext) :
    addJumps (more ++ jumps) loops = addJumps more (addJumps jumps loops) := by
  cases loops <;> simp [addJumps, LoopContext.add]

/-- The innermost loop as the layout sees it, once its targets are known. -/
def exitOf (loops : List LoopContext) (onBreak onContinue : Nat) : Option Exit :=
  loops.head?.map fun loop => ⟨loop.depth, onBreak, onContinue⟩

@[simp] theorem exitOf_addJumps (jumps : List OpenJump) (loops : List LoopContext) (b c : Nat) :
    exitOf (addJumps jumps loops) b c = exitOf loops b c := by
  cases loops <;> rfl

/-- The layout knows the depth of the innermost loop. -/
theorem exitOf_depth (s : State) (b c : Nat) :
    (exitOf s.segment.loops b c).map Exit.depth = s.loopDepth := by
  rw [exitOf, State.loopDepth, Option.map_map]
  rfl

/-! ## Growing states

`Grows` is what the state at the end of a step has to do with the one at its start, `Finished` is
how much of the code at the end is final, and `Emits` puts the two together. Each has a lemma for
two steps in a row; `Finished` goes the other way, since what is finished as a whole is finished in
its parts. -/

/-- **From `s` to `t` a compilation has only appended**; `jumps` are the jumps that it has left
open, the last one first. Besides the fields that are kept, it says where the open jumps are: inside
of what was appended, at least one instruction apart, with the opcode of a jump at each. That is
what patching them later on relies on. -/
structure Grows (s t : State) (jumps : List OpenJump) : Prop where
  enclosing : t.enclosing = s.enclosing
  nested : t.symbols.outer.length = s.symbols.outer.length
  constants : s.constants.toList <+: t.constants.toList
  size : s.segment.code.size ≤ t.segment.code.size
  code : ∀ i < s.segment.code.size, t.segment.code[i]? = s.segment.code[i]?
  loops : t.segment.loops = addJumps jumps s.segment.loops
  closed : s.segment.loops = [] → jumps = []
  inside : ∀ j ∈ jumps, s.segment.code.size ≤ j.position
    ∧ j.position + Op.jump.size ≤ t.segment.code.size
  apart : jumps.Pairwise fun j k => k.position + Op.jump.size ≤ j.position
  head : ∀ j ∈ jumps, t.segment.code[j.position]? = some Op.jump.byte

/-- **Finished code and constants that contain what was appended from `s` to `t`**, with the open
jumps sent to the targets `b` and `c`. Bytes before `s` and behind `t` are not spoken of. -/
structure Finished (s t : State) (jumps : List OpenJump) (code : Code) (constants : Array Value)
    (b c : Nat) : Prop where
  bytes : ∀ i, s.segment.code.size ≤ i → i < t.segment.code.size →
    (∀ j ∈ jumps, ¬ IsOperand j.position i) → code[i]? = t.segment.code[i]?
  constants : t.constants.toList <+: constants.toList
  target : ∀ j ∈ jumps, InstrAt code j.position .jump [j.target b c]
  bound : ∀ j ∈ jumps, j.target b c ≤ maxWord

/-- **From `s` to `t` a compilation has only appended, and `P` holds of the appended part in every
finished program.** The third argument of `P` is the innermost loop with the targets that the
finished program gives to it. -/
def Emits (s t : State) (P : Code → Array Value → Option Exit → Prop) : Prop :=
  ∃ jumps, Grows s t jumps ∧ ∀ code constants b c, Finished s t jumps code constants b c →
    P code constants (exitOf s.segment.loops b c)

theorem Grows.refl (s : State) : Grows s s [] where
  enclosing := rfl
  nested := rfl
  constants := List.prefix_refl _
  size := Nat.le_refl _
  code _ _ := rfl
  loops := (addJumps_nil _).symm
  closed _ := rfl
  inside _ hj := absurd hj (by simp)
  apart := .nil
  head _ hj := absurd hj (by simp)

/-- Open jumps of both steps stay open. Those of the second step lie behind all of the first one, so
they are apart from its jumps; those of the first step are still where they were, because the second
step has left the code before it alone. -/
theorem Grows.trans {s u t : State} {jumps more : List OpenJump} (h : Grows s u jumps)
    (h' : Grows u t more) : Grows s t (more ++ jumps) where
  enclosing := h'.enclosing.trans h.enclosing
  nested := h'.nested.trans h.nested
  constants := h.constants.trans h'.constants
  size := Nat.le_trans h.size h'.size
  code i hi := by rw [h'.code i (Nat.lt_of_lt_of_le hi h.size), h.code i hi]
  loops := by rw [addJumps_append, ← h.loops, h'.loops]
  closed hloops := by
    have hjumps := h.closed hloops
    have hmore := h'.closed (by rw [h.loops, hloops, addJumps])
    rw [hjumps, hmore, List.nil_append]
  inside j hj := by
    have hsize := h.size
    have hsize' := h'.size
    rcases List.mem_append.mp hj with hj | hj
    · have := h'.inside j hj
      omega
    · have := h.inside j hj
      omega
  -- the jumps of the second step lie behind those of the first
  apart := by
    refine List.pairwise_append.mpr ⟨h'.apart, h.apart, fun j hj k hk => ?_⟩
    have := h'.inside j hj
    have := h.inside k hk
    omega
  head j hj := by
    rcases List.mem_append.mp hj with hj | hj
    · exact h'.head j hj
    · have := h.inside j hj
      have hpos := Op.jump.size_pos
      rw [h'.code j.position (by omega), h.head j hj]

/-- What is finished from `s` to `t` is finished in its first part: no open jump of the second part
has an operand there. -/
theorem Finished.left {s u t : State} {jumps more : List OpenJump} {code : Code}
    {constants : Array Value} {b c : Nat} (h' : Grows u t more)
    (hf : Finished s t (more ++ jumps) code constants b c) :
    Finished s u jumps code constants b c where
  bytes i hi hi' hj := by
    rw [hf.bytes i hi (Nat.lt_of_lt_of_le hi' h'.size) fun j hmem => ?_, h'.code i hi']
    rcases List.mem_append.mp hmem with hmem | hmem
    · have := h'.inside j hmem
      unfold IsOperand
      omega
    · exact hj j hmem
  constants := h'.constants.trans hf.constants
  target j hj := hf.target j (List.mem_append_right _ hj)
  bound j hj := hf.bound j (List.mem_append_right _ hj)

/-- And in its second part. -/
theorem Finished.right {s u t : State} {jumps more : List OpenJump} {code : Code}
    {constants : Array Value} {b c : Nat} (h : Grows s u jumps)
    (hf : Finished s t (more ++ jumps) code constants b c) :
    Finished u t more code constants b c where
  bytes i hi hi' hj := by
    refine hf.bytes i (Nat.le_trans h.size hi) hi' fun j hmem => ?_
    rcases List.mem_append.mp hmem with hmem | hmem
    · exact hj j hmem
    · have := h.inside j hmem
      have hsize : Op.jump.size = 3 := rfl
      unfold IsOperand
      omega
  constants := hf.constants
  target j hj := hf.target j (List.mem_append_left _ hj)
  bound j hj := hf.bound j (List.mem_append_left _ hj)

/-! ## Steps in a row -/

section Emits

variable {s u t : State} {P Q : Code → Array Value → Option Exit → Prop}

theorem Emits.mono (h : Emits s t P)
    (himp : ∀ code constants exit, exit.map Exit.depth = s.loopDepth →
      P code constants exit → Q code constants exit) : Emits s t Q := by
  obtain ⟨jumps, hgrows, hlays⟩ := h
  exact ⟨jumps, hgrows, fun code constants b c hf =>
    himp _ _ _ (exitOf_depth s b c) (hlays code constants b c hf)⟩

/-- Two steps in a row emit what both of them emit. -/
theorem Emits.seq (h : Emits s u P) (h' : Emits u t Q) :
    Emits s t fun code constants exit => P code constants exit ∧ Q code constants exit := by
  obtain ⟨jumps, hgrows, hlays⟩ := h
  obtain ⟨more, hgrows', hlays'⟩ := h'
  refine ⟨more ++ jumps, hgrows.trans hgrows', fun code constants b c hf => ⟨?_, ?_⟩⟩
  · exact hlays code constants b c (hf.left hgrows')
  · have := hlays' code constants b c (hf.right hgrows)
    rwa [hgrows.loops, exitOf_addJumps] at this

theorem Emits.refl (s : State) : Emits s s fun _ _ _ => True :=
  ⟨[], Grows.refl s, fun _ _ _ _ _ => trivial⟩

/-- A compilation never changes the depth of the loop that it is in. -/
theorem Emits.loopDepth (h : Emits s t P) : t.loopDepth = s.loopDepth := by
  obtain ⟨jumps, hgrows, -⟩ := h
  rw [← exitOf_depth t 0 0, ← exitOf_depth s 0 0, hgrows.loops, exitOf_addJumps]

theorem Emits.size (h : Emits s t P) : s.segment.code.size ≤ t.segment.code.size := by
  obtain ⟨jumps, hgrows, -⟩ := h
  exact hgrows.size

theorem Emits.code (h : Emits s t P) {i : Nat} (hi : i < s.segment.code.size) :
    t.segment.code[i]? = s.segment.code[i]? := by
  obtain ⟨jumps, hgrows, -⟩ := h
  exact hgrows.code i hi

theorem Emits.enclosing (h : Emits s t P) : t.enclosing = s.enclosing := by
  obtain ⟨jumps, hgrows, -⟩ := h
  exact hgrows.enclosing

theorem Emits.nested (h : Emits s t P) : t.symbols.outer.length = s.symbols.outer.length := by
  obtain ⟨jumps, hgrows, -⟩ := h
  exact hgrows.nested

end Emits

/-! ## Elementary steps -/

theorem grows_emit (s : State) (op : Op) (operands : List Nat) :
    Grows s (s.emit op operands) [] where
  enclosing := rfl
  nested := rfl
  constants := List.prefix_refl _
  size := by simp [State.emit, State.mapSegment]
  code i hi := by
    simp only [State.emit, State.mapSegment, Segment.code_emit]
    exact Code.getElem?_append_left hi
  loops := by simp [State.emit, State.mapSegment]
  closed _ := rfl
  inside _ hj := absurd hj (by simp)
  apart := .nil
  head _ hj := absurd hj (by simp)

/-- An appended instruction stands in every finished program. -/
theorem emits_emit (s : State) (op : Op) (operands : List Nat) :
    Emits s (s.emit op operands) fun code _ _ =>
      OpAt code op operands s.point (s.emit op operands).point := by
  refine ⟨[], grows_emit s op operands, fun code constants b c hf => ⟨?_, ?_⟩⟩
  · refine (instrAt_append s.segment.code op operands).congr fun i hi hi' => ?_
    refine hf.bytes i hi ?_ fun _ hj => absurd hj (by simp)
    simpa [State.emit, State.mapSegment] using hi'
  · exact State.point_emit s op operands

/-- A change of what only the compiler reads emits nothing. -/
theorem emits_same {s t : State} (hcode : t.segment.code = s.segment.code)
    (hloops : t.segment.loops = s.segment.loops) (henclosing : t.enclosing = s.enclosing)
    (hconstants : t.constants = s.constants)
    (hnested : t.symbols.outer.length = s.symbols.outer.length) :
    Emits s t fun _ _ _ => True := by
  refine ⟨[], ⟨henclosing, hnested, ?_, ?_, ?_, ?_, fun _ => rfl, fun _ hj => absurd hj (by simp),
    .nil, fun _ hj => absurd hj (by simp)⟩, fun _ _ _ _ _ => trivial⟩
  · exact hconstants ▸ List.prefix_refl _
  · exact hcode ▸ Nat.le_refl _
  · exact fun _ _ => hcode ▸ rfl
  · rw [hloops, addJumps_nil]

/-- A constant keeps its index. -/
theorem emits_addConstant (s : State) (value : Value) :
    Emits s { s with constants := s.constants.push value } fun _ constants _ =>
      constants[s.constants.size]? = some value := by
  refine ⟨[], { Grows.refl s with constants := ?_ }, fun code constants b c hf => ?_⟩
  · simp
  · obtain ⟨rest, hrest⟩ := hf.constants
    rw [← Array.getElem?_toList, ← hrest, Array.toList_push, List.append_assoc,
      List.getElem?_append_right (by simp), Array.length_toList, Nat.sub_self]
    rfl

/-- A jump out of the innermost loop is open until the loop is closed, and then leads to the target
that the loop has for it. -/
theorem emits_openJump {s : State} {loop : LoopContext} {loops : List LoopContext}
    (hloops : s.segment.loops = loop :: loops) (breaks : Bool) :
    Emits s ((s.emit .jump [placeholder]).mapSegment
        (Segment.onLoop (LoopContext.add [⟨s.segment.code.size, breaks⟩]))) fun code _ exit =>
      ∃ exit', exit = some exit'
        ∧ InstrAt code s.segment.code.size .jump
          [if breaks then exit'.onBreak else exit'.onContinue]
        ∧ (if breaks then exit'.onBreak else exit'.onContinue) ≤ maxWord := by
  have hgrows := grows_emit s .jump [placeholder]
  have hsegment : ((s.emit .jump [placeholder]).mapSegment
      (Segment.onLoop (LoopContext.add [⟨s.segment.code.size, breaks⟩]))).segment
      = { (s.emit .jump [placeholder]).segment with
          loops := loop.add [⟨s.segment.code.size, breaks⟩] :: loops } := by
    obtain ⟨constants, symbols, ⟨code, last, previous, loops', depth⟩, enclosing, fresh⟩ := s
    obtain rfl : loops' = loop :: loops := hloops
    rfl
  -- the jump is the only one that is left open; its operand is the placeholder until the loop is
  -- closed
  refine ⟨[⟨s.segment.code.size, breaks⟩], ⟨rfl, rfl, hgrows.constants, ?_, ?_, ?_, ?_, ?_,
    List.pairwise_singleton _ _, ?_⟩, fun code constants b c hf => ?_⟩
  · rw [hsegment]
    exact hgrows.size
  · rw [hsegment]
    exact hgrows.code
  · rw [hsegment, hloops]
    rfl
  · intro h
    rw [hloops] at h
    exact absurd h (by simp)
  · intro j hj
    obtain rfl := List.mem_singleton.mp hj
    rw [hsegment]
    exact ⟨Nat.le_refl _, Nat.le_of_eq (Segment.size_emit s.segment .jump [placeholder]).symm⟩
  · intro j hj
    obtain rfl := List.mem_singleton.mp hj
    rw [hsegment]
    exact (instrAt_append s.segment.code .jump [placeholder]).head
  · refine ⟨⟨loop.depth, b, c⟩, by rw [exitOf, hloops]; rfl, ?_, ?_⟩
    · exact hf.target ⟨s.segment.code.size, breaks⟩ (by simp)
    · exact hf.bound ⟨s.segment.code.size, breaks⟩ (by simp)

end Scriptlet.Compilation
