import Scriptlet.Proofs.Layout.Patching
import Scriptlet.Proofs.Symbols

/-!
# What the combinators of the compiler lay out

One lemma for each combinator of the compiler (`branch`, `loop`, `functionCode`, ...), which takes
what is known of the parts as a hypothesis. `Scriptlet.Proofs.Layout.Compiled` goes through the
recursion of the compiler with them.

Each lemma reads the combinator backwards from its success: the states between its steps are named,
what each step has emitted is known from `Scriptlet.Proofs.Layout.Emission` or from a hypothesis,
and `Emits.seq` puts it together. Two things are carried along besides the layout, because the
compiler reads them off its state:

* **the count of operands**, where it leaves loops (`Leaves.depth`, `Laid.depth`);
* **the last instruction**, where it decides whether a branch or a function ends with a value
  (`LastInside`, `Closes`).
-/

namespace Scriptlet.Compilation

/-! ## What is known before and after a step

The compiler reads two things off its state that the layout does not mention: how many operands it
has counted, and which instruction it emitted last. `Ready` is what has to hold of them before a
step, `Leaves` is the result of a step with the same two facts behind it, so that `Leaves.ready`
closes the circle: what one step leaves is what the next one asks for. -/

/-- The last instruction that the compiler knows of lies in the code. Where it does not (a `pop` has
been taken back, and the instruction before it is not known any more), `lastIs` must not find
anything behind the end of the code. -/
def LastInside (s : State) : Prop :=
  ∀ l, s.segment.last = some l → l.position < s.segment.code.size

/-- What the compiler relies on before it compiles anything: the last instruction is inside the
code, and there are at least as many operands as the innermost loop knows of, so that a jump out of
the loop never has to drop a negative number. -/
structure Ready (s : State) : Prop where
  last : LastInside s
  deep : ∀ d, s.loopDepth = some d → d ≤ s.segment.depth

/-- **From `s` to `t` code for `P` has been emitted that leaves `d` operands.** The depth is an
equation because the compiler overwrites it in places (`Segment.setDepth`) and does not always add
up what it has emitted. -/
structure Leaves (s t : State) (d : Nat) (P : Code → Array Value → Option Exit → Prop) : Prop where
  emits : Emits s t P
  depth : t.segment.depth = d
  last : LastInside t

section Leaves

variable {s u t : State} {d d' : Nat} {P Q : Code → Array Value → Option Exit → Prop}

/-- What is said of the code may be weakened, and it may be used that the layout knows the depth of
the loop around it. -/
theorem Leaves.mono (h : Leaves s t d P)
    (himp : ∀ code constants exit, exit.map Exit.depth = s.loopDepth →
      P code constants exit → Q code constants exit) : Leaves s t d Q :=
  ⟨h.emits.mono himp, h.depth, h.last⟩

/-- Two steps in a row; the depth and the last instruction are those of the second one. -/
theorem Leaves.seq (h : Leaves s u d P) (h' : Leaves u t d' Q) :
    Leaves s t d' fun code constants exit => P code constants exit ∧ Q code constants exit :=
  ⟨h.emits.seq h'.emits, h'.depth, h'.last⟩

/-- Behind a step that takes no operand away the compiler is ready again, since the loop around is
the same. -/
theorem Leaves.ready (h : Leaves s t d P) (hs : Ready s) (hd : s.segment.depth ≤ d) :
    Ready t where
  last := h.last
  deep e he := by
    have := hs.deep e (by rwa [h.emits.loopDepth] at he)
    have := h.depth
    omega

/-- An instruction that leaves `d` operands, by the effect on the stack that the compiler itself
reckons with. -/
theorem leaves_emit (s : State) (op : Op) (operands : List Nat)
    (hd : (Int.ofNat s.segment.depth + stackEffect op operands).toNat = d) :
    Leaves s (s.emit op operands) d fun code _ _ =>
      OpAt code op operands s.point (s.emit op operands).point where
  emits := emits_emit s op operands
  depth := hd
  last l hl := by
    obtain rfl : l = ⟨op, s.segment.code.size⟩ := by
      simpa [State.emit, State.mapSegment, eq_comm] using hl
    have := op.size_pos
    simp only [State.emit, State.mapSegment, Segment.size_emit]
    omega

theorem leaves_refl (hs : LastInside s) : Leaves s s s.segment.depth fun _ _ _ => True :=
  ⟨Emits.refl s, rfl, hs⟩

/-- Symbols may change between two steps without any code. That the nesting of functions stays the
same is all that `Emits` asks of them. -/
theorem leaves_symbols (hs : LastInside s) {symbols : Symbols}
    (hnested : symbols.outer.length = s.symbols.outer.length) :
    Leaves s (s.withSymbols symbols) s.segment.depth fun _ _ _ => True :=
  ⟨emits_same rfl rfl rfl rfl hnested, rfl, hs⟩

end Leaves

/-! ## Constants, names and single instructions

The steps that the recursion of the compiler does not look into. Each of them succeeds only after
its own check (a constant, a global or a slot that has a number small enough), and the check is part
of the layout that comes out. -/

section Steps

variable {s t : State}

/-- The constant gets the next free number, which is the one that the layout expects at this
point. -/
theorem emitConstant_leaves {value : Value} {r : Unit} (hs : LastInside s)
    (h : emitConstant value s = .ok r t) :
    Leaves s t (s.segment.depth + 1) fun code constants _ =>
      ConstAt code constants value s.point t.point := by
  unfold emitConstant at h
  simp only [bind_ok, addConstant_ok, emit_ok] at h
  obtain ⟨i, u, ⟨rfl, hi, rfl⟩, rfl⟩ := h
  have hconst : Leaves s { s with constants := s.constants.push value } s.segment.depth
      fun _ constants _ => constants[s.constants.size]? = some value :=
    ⟨emits_addConstant s value, rfl, hs⟩
  refine (hconst.seq (leaves_emit _ .constant [s.constants.size] rfl)).mono
    fun code constants exit _ h => ⟨hi, h.1, ?_⟩
  rw [← State.point_addConstant]
  exact h.2

/-- **Resolving a name is `Symbols.require`**, which the layout uses. The compiler asks twice, first
for a known symbol and then for a new global; the two outcomes are gone through here once. -/
theorem resolve_ok {name : String} {symbol : Symbol} :
    resolve name s = .ok symbol t
      ↔ symbol = (s.symbols.require name).1 ∧ t = s.withSymbols (s.symbols.require name).2 := by
  unfold resolve Symbols.require
  simp only [bind_ok, onSymbols_ok]
  rcases hres : s.symbols.resolve name with ⟨_ | symbol', symbols'⟩
  · constructor
    · rintro ⟨_, _, ⟨rfl, rfl⟩, h⟩
      rw [onSymbols_ok] at h
      exact h
    · rintro ⟨rfl, rfl⟩
      exact ⟨none, _, ⟨rfl, rfl⟩, by rw [onSymbols_ok]; exact ⟨rfl, rfl⟩⟩
  · constructor
    · rintro ⟨_, _, ⟨rfl, rfl⟩, h⟩
      rw [pure_ok] at h
      exact ⟨h.1.symm, h.2.symm⟩
    · rintro ⟨rfl, rfl⟩
      exact ⟨some _, _, ⟨rfl, rfl⟩, by rw [pure_ok]; exact ⟨rfl, rfl⟩⟩

/-- One instruction for each kind of symbol. Only a global can have a number that does not fit. -/
theorem load_leaves {symbol : Symbol} {r : Unit} (h : load symbol s = .ok r t) :
    Leaves s t (s.segment.depth + 1) fun code _ _ => LoadAt code symbol s.point t.point := by
  obtain ⟨name, kind, index⟩ := symbol
  cases kind with
  | global =>
    simp only [load] at h
    split at h
    · exact absurd h throw_ok
    · rename_i hi
      rw [emit_ok] at h
      subst h
      exact (leaves_emit s .getGlobal [index] rfl).mono
        fun code _ _ _ h => ⟨Nat.lt_of_not_le hi, h⟩
  | slot =>
    obtain rfl := emit_ok.mp h
    exact leaves_emit s .getLocal [index] rfl
  | builtin =>
    obtain rfl := emit_ok.mp h
    exact leaves_emit s .getBuiltin [index] rfl
  | free =>
    obtain rfl := emit_ok.mp h
    exact leaves_emit s .getFree [index] rfl

/-- An instruction that takes one operand. The depth is a natural number, so this is subtraction cut
off at zero, as in the compiler. -/
theorem leaves_take (s : State) (op : Op) (operands : List Nat)
    (heffect : stackEffect op operands = -1) :
    Leaves s (s.emit op operands) (s.segment.depth - 1)
      fun code _ _ => OpAt code op operands s.point (s.emit op operands).point := by
  apply leaves_emit
  simp only [heffect, Int.ofNat_eq_natCast]
  omega

/-- The state at the end is named because the caller also has to know which instruction was the last
one. -/
theorem storeGlobal_leaves (index : Nat) {r : Unit} (h : storeGlobal index s = .ok r t) :
    Leaves s t (s.segment.depth - 1) (fun code _ _ => index < maxGlobals
      ∧ OpAt code .setGlobal [index] s.point t.point) ∧ t = s.emit .setGlobal [index] := by
  unfold storeGlobal at h
  split at h
  · exact absurd h throw_ok
  · rename_i hi
    rw [emit_ok] at h
    subst h
    exact ⟨(leaves_take s _ _ rfl).mono
      fun code _ _ _ h => ⟨Nat.lt_of_not_le hi, h⟩, rfl⟩

/-- The last instruction is neither a `pop` nor a return, so a branch or a function that ends here
has no value to keep or to return. -/
def EndsOther (s : State) : Prop :=
  ∃ l, s.segment.last = some l ∧ l.op ≠ .pop ∧ l.op ≠ .returnValue

theorem endsOther_emit (s : State) {op : Op} (operands : List Nat) (hpop : op ≠ .pop)
    (hret : op ≠ .returnValue) : EndsOther (s.emit op operands) :=
  ⟨⟨op, s.segment.code.size⟩, rfl, hpop, hret⟩

/-- **Storing takes one operand and is no value**, whatever the kind of the symbol. A built-in
function cannot be stored to: a global of its name is defined in its place. -/
theorem store_leaves {symbol : Symbol} {r : Unit} (hs : LastInside s)
    (h : store symbol s = .ok r t) :
    Leaves s t (s.segment.depth - 1) (fun code _ _ => StoreAt code symbol s.point t.point)
      ∧ EndsOther t := by
  obtain ⟨name, kind, index⟩ := symbol
  cases kind with
  | global =>
    obtain ⟨hleaves, rfl⟩ := storeGlobal_leaves index h
    exact ⟨hleaves, endsOther_emit s _ (by decide) (by decide)⟩
  | slot =>
    simp only [store] at h
    split at h
    · exact absurd h throw_ok
    · rename_i hi
      rw [emit_ok] at h
      subst h
      exact ⟨(leaves_take s _ _ rfl).mono
        fun code _ _ _ h => ⟨Nat.lt_of_not_le hi, h⟩,
        endsOther_emit s _ (by decide) (by decide)⟩
  | free =>
    obtain rfl := emit_ok.mp h
    exact ⟨leaves_take s _ _ rfl,
      endsOther_emit s _ (by decide) (by decide)⟩
  | builtin =>
    simp only [store, bind_ok, onSymbols_ok] at h
    obtain ⟨cover, u, ⟨rfl, rfl⟩, h⟩ := h
    obtain ⟨hleaves, rfl⟩ := storeGlobal_leaves _ h
    refine ⟨((leaves_symbols hs ?_).seq hleaves).mono fun code _ _ _ h => h.2,
      endsOther_emit _ _ (by decide) (by decide)⟩
    -- the global is defined in the outermost table, which does not change how many there are
    exact Symbols.length_outer_defineGlobal s.symbols name

/-- Induction on the number of operands to drop. -/
theorem emitPops_leaves {count : Nat} {r : Unit} (hs : LastInside s)
    (h : emitPops count s = .ok r t) :
    Leaves s t (s.segment.depth - count) fun code _ _ => PopsAt code count s.point t.point := by
  induction count generalizing s with
  | zero =>
    obtain ⟨-, rfl⟩ := pure_ok.mp h
    exact (leaves_refl hs).mono fun _ _ _ _ _ => rfl
  | succ count ih =>
    simp only [emitPops, bind_ok, emit_ok] at h
    obtain ⟨_, u, rfl, h⟩ := h
    have hpop := leaves_take s .pop [] rfl
    have hrest := ih hpop.last h
    rw [hpop.depth, Nat.sub_sub, Nat.add_comm 1 count] at hrest
    exact (hpop.seq hrest).mono fun _ _ _ _ h => ⟨_, h.1, h.2⟩

end Steps

/-! ## Statements

How the code of a statement ends decides what a branch or a function makes of it. The compiler looks
at the last instruction; the layout looks at the syntax. `Closes` says that both see the same, and
`Laid` carries it along with a layout for every ending that may still be asked for. -/

/-- The state in which the last `pop` has become what an ending says: it is left alone, taken back,
or overwritten by a return. -/
def State.ended (t : State) : Ending → State
  | .drop => t
  | .keep => t.mapSegment Segment.removeLastPop
  | .give => t.mapSegment Segment.returnLastPop

/-- **What the compiler knows of the last instruction emitted from `s` to `t`**, for each way in
which statements can end. A value is described by the state `u` before its `pop`, because a branch
goes back to exactly that state. -/
def Closes (s t : State) : Closing → Prop
  | .value => ∃ u : State, LastInside u ∧ s.segment.code.size ≤ u.segment.code.size
      ∧ t.segment = (u.emit .pop []).segment
  | .returned => ∃ l, t.segment.last = some l ∧ l.op = .returnValue
      ∧ l.position < t.segment.code.size
  | .other => EndsOther t ∧ LastInside t
  | .nothing => t = s

/-- The part of a layout that a statement is responsible for, with what has become of its end. -/
abbrev Layout := Ending → Code → Array Value → Option Exit → (a b : Point) → Prop

/-- **From `s` to `t` a statement has been emitted as `layout` says.** The code is asked for at each
ending that makes sense of it: always for the `pop` that stays, and for the other two where the
statement ends with a value. The depth behind it is that of the loop around where the statement
jumps out of the loop, although nothing behind the jump is reached through it. -/
structure Laid (s t : State) (closing : Closing) (exits : Bool) (layout : Layout) : Prop where
  emits : ∀ ending, ending = .drop ∨ closing = .value →
    Emits s (t.ended ending) fun code constants exit =>
      layout ending code constants exit s.point (t.ended ending).point
  depth : t.segment.depth = if exits then s.loopDepth.getD s.segment.depth else s.segment.depth
  closes : Closes s t closing

/-- Each case of `Closes` says where the last instruction lies; only for statements without code it
is the one before them. -/
theorem Closes.last {s t : State} {closing : Closing} (hs : LastInside s)
    (h : Closes s t closing) : LastInside t := by
  cases closing with
  | value =>
    obtain ⟨u, -, -, ht⟩ := h
    unfold LastInside
    rw [ht]
    exact (leaves_take u .pop [] rfl).last
  | returned =>
    obtain ⟨l, hl, -, hinside⟩ := h
    intro l' hl'
    obtain rfl : l = l' := by simpa [hl] using hl'
    exact hinside
  | other => exact h.2
  | nothing =>
    obtain rfl : t = s := h
    exact hs

/-- A statement leaves the compiler ready for the next one. If it has jumped out of a loop, then the
depth is that of the loop, which is not less than itself. -/
theorem Laid.ready {s t : State} {closing : Closing} {exits : Bool} {layout : Layout}
    (hs : Ready s) (h : Laid s t closing exits layout) : Ready t where
  last := h.closes.last hs.last
  deep e he := by
    rw [State.loopDepth] at he
    have hloop : s.loopDepth = some e := by
      rw [← (h.emits .drop (.inl rfl)).loopDepth]
      exact he
    have hdeep := hs.deep e hloop
    rw [h.depth, hloop]
    split
    · exact Nat.le_refl e
    · exact hdeep

/-- **What becomes of a `pop` that has just been emitted.** Taking it back leaves the bytes before
it, and overwriting it by a return is the same as having emitted the return at once; so for each
ending the code is a sequence of two steps. -/
theorem Emits.ended {s u : State} {P : Code → Array Value → Option Exit → Prop}
    (h : Emits s u P) (ending : Ending) :
    Emits s ((u.emit .pop []).ended ending) fun code constants exit =>
      P code constants exit ∧ EndAt code ending u.point ((u.emit .pop []).ended ending).point := by
  cases ending with
  | drop => exact h.seq (emits_emit u .pop [])
  | keep =>
    have hcode : ((u.emit .pop []).ended .keep).segment.code = u.segment.code :=
      Code.truncate_append u.segment.code _
    refine (h.seq (emits_same hcode rfl rfl rfl rfl)).mono fun _ _ _ _ h => ⟨h.1, ?_⟩
    show State.point _ = State.point _
    rw [State.point, hcode]
    rfl
  | give =>
    have hcode : ((u.emit .pop []).ended .give).segment.code
        = (u.emit .returnValue []).segment.code :=
      Code.overwrite_end rfl
    refine (h.seq ((emits_emit u .returnValue []).seq (emits_same hcode rfl rfl rfl rfl))).mono
      fun _ _ _ _ h => ⟨h.1, ?_⟩
    have hpoint : ((u.emit .pop []).ended .give).point = (u.emit .returnValue []).point := by
      rw [State.point, hcode]
      rfl
    rw [hpoint]
    exact h.2.1

/-- **The compiler sees a value at the end of statements exactly where there is one.** The position
from which it looks is that of the state `s`: an instruction from before does not count, and this is
where statements without code need `LastInside`. -/
theorem Closes.lastIs_pop {s t : State} {closing : Closing} (hs : LastInside s)
    (h : Closes s t closing) :
    t.segment.lastIs .pop s.segment.code.size = true ↔ closing = .value := by
  cases closing with
  | value =>
    obtain ⟨u, -, hsize, ht⟩ := h
    rw [ht]
    simpa [Segment.lastIs, State.emit, State.mapSegment] using hsize
  | returned =>
    obtain ⟨l, hl, hop, -⟩ := h
    simp [Segment.lastIs, hl, hop]
  | other =>
    obtain ⟨⟨l, hl, hop, -⟩, -⟩ := h
    simp [Segment.lastIs, hl, hop]
  | nothing =>
    obtain rfl : t = s := h
    -- nothing was emitted, so the last instruction lies in front of the position asked for
    unfold Segment.lastIs
    split
    · rename_i l hl
      have := hs l hl
      simp
      omega
    · simp

/-- And a return at the end of a function that has no value to return. The segment of a function
starts without a last instruction, so position `0` is the right place to look from. -/
theorem Closes.lastIs_returnValue {s t : State} {closing : Closing}
    (hs : s.segment.last = none) (h : Closes s t closing) (hvalue : closing ≠ .value) :
    t.segment.lastIs .returnValue 0 = true ↔ closing = .returned := by
  cases closing with
  | value => exact absurd rfl hvalue
  | returned =>
    obtain ⟨l, hl, hop, -⟩ := h
    simp [Segment.lastIs, hl, hop]
  | other =>
    obtain ⟨⟨l, hl, -, hop⟩, -⟩ := h
    simp [Segment.lastIs, hl, hop]
  | nothing =>
    obtain rfl : t = s := h
    simp [Segment.lastIs, hs]

/-! ## Branches and functions

A branch and a function both decide by the last instruction of their statements what to do at the
end. Both lemmas go by the answer: with `Closes.lastIs_pop` it determines the closing, and the
layout for that closing is read off `Laid` at the ending it calls for. -/

/-- **A branch leaves the value of its last statement, or else `null`.** The depth at the end is
whatever the compiler counts there; the condition around it sets the depth anew. -/
theorem branch_leaves {s t : State} {r : Unit} {body : Compile Unit} {closing : Closing}
    {exits : Bool} {layout : Layout} (hs : Ready s)
    (hbody : ∀ u, body s = .ok () u → Laid s u closing exits layout)
    (h : branch body s = .ok r t) :
    Leaves s t t.segment.depth fun code constants exit =>
      BranchAt code closing (fun ending a b => layout ending code constants exit a b)
        s.point t.point := by
  unfold branch at h
  simp only [bind_ok, position_ok, get_ok] at h
  obtain ⟨_, _, ⟨rfl, rfl⟩, _, u, hu, _, _, ⟨rfl, rfl⟩, h⟩ := h
  have hlaid := hbody u hu
  have hlast := hlaid.closes.lastIs_pop hs.last
  split at h
  · rename_i hpop
    rw [hpop] at hlast
    have hclosing : closing = .value := hlast.mp rfl
    subst hclosing
    rw [onSegment_ok] at h
    subst h
    refine ⟨(hlaid.emits .keep (.inr rfl)).mono fun code constants exit _ h => ?_, rfl, ?_⟩
    · rw [BranchAt, if_pos rfl]
      exact h
    · -- the instruction before the `pop` is the last one again
      obtain ⟨v, hv, -, ht⟩ := hlaid.closes
      intro l hl
      simp only [State.mapSegment, ht] at hl ⊢
      have hcode : ((v.emit .pop []).segment.removeLastPop).code = v.segment.code :=
        Code.truncate_append v.segment.code _
      rw [hcode]
      exact hv l hl
  · rename_i hpop
    rw [emit_ok] at h
    subst h
    have hclosing : closing ≠ .value := fun hc => hpop (hlast.mpr hc)
    have hpush := leaves_emit (d := (u.emit .pushNull []).segment.depth) u .pushNull [] rfl
    refine ⟨((hlaid.emits .drop (.inl rfl)).seq hpush.emits).mono
      fun code constants exit _ h => ?_, rfl, hpush.last⟩
    -- no value at the end: the `pop`s inside stay, and `null` is pushed behind them
    rw [BranchAt, if_neg hclosing]
    exact ⟨_, h.1, h.2⟩

/-- The state at the start of the body of a function: a new segment without code or loops, the
symbols of a new table with the parameters, and the constants of the whole program. -/
def State.inFunction (s : State) (params : List String) : State :=
  { constants := s.constants
    symbols := s.symbols.enterFunction.defineAll params
    segment := .empty
    enclosing := s.segment :: s.enclosing
    fresh := s.fresh }

theorem ready_inFunction (s : State) (params : List String) : Ready (s.inFunction params) where
  last _ hl := absurd hl (by simp [State.inFunction, Segment.empty])
  deep _ hd := absurd hd (by simp [State.inFunction, Segment.empty, State.loopDepth])

/-- Entering a function is entering one without parameters; they are defined one after the other
afterwards. -/
theorem enterFunction_ok {s t : State} {r : Unit} :
    enterFunction s = .ok r t ↔ t = s.inFunction [] := by
  show EStateM.Result.ok () (s.inFunction []) = .ok r t ↔ _
  rw [EStateM.Result.ok.injEq]
  exact ⟨fun h => h.2.symm, fun h => ⟨rfl, h.symm⟩⟩

/-- Defining the parameters is `Symbols.defineAll`, by induction on their list. -/
theorem defineParams_ok {s t : State} {params : List String} {r : Unit} :
    (params.forM fun param => do let _ ← onSymbols (Symbols.define param)) s = .ok r t
      ↔ t = s.withSymbols (s.symbols.defineAll params) := by
  induction params generalizing s with
  | nil =>
    rw [forM_nil_ok]
    exact eq_comm
  | cons param params ih =>
    rw [forM_cons_ok]
    simp only [bind_ok, onSymbols_ok, pure_ok, ih]
    constructor
    · rintro ⟨_, ⟨_, _, ⟨rfl, rfl⟩, _, rfl⟩, rfl⟩
      rfl
    · rintro rfl
      exact ⟨_, ⟨_, _, ⟨rfl, rfl⟩, trivial, rfl⟩, rfl⟩

/-- **The code of a function, with the state at its end.** Three endings are possible: a value that
becomes the result, a return that stands there already, and anything else, behind which `returnNull`
is emitted. The compiler tests for them in this order, and the second test must not be fooled by the
return that the first one has just put there. -/
theorem functionCode_emits {s t : State} {params : List String} {body : Compile Unit}
    {closing : Closing} {exits : Bool} {layout : Layout} {result : Code × Nat × List Symbol}
    (hbody : ∀ u, body (s.inFunction params) = .ok () u →
      Laid (s.inFunction params) u closing exits layout)
    (h : functionCode params body s = .ok result t) :
    ∃ v : State, t = leaveFunction v
      ∧ result = (v.segment.code, v.symbols.slots, v.symbols.captured)
      ∧ Emits (s.inFunction params) v fun code constants exit =>
        BodyAt code closing (fun ending a b => layout ending code constants exit a b)
          (s.inFunction params).point v.point := by
  unfold functionCode at h
  simp only [bind_ok, enterFunction_ok, followedBy_ok, defineParams_ok, get_ok] at h
  obtain ⟨_, _, rfl, v, ⟨_, _, rfl, _, u, hu, _, _, ⟨rfl, rfl⟩, h⟩, rfl⟩ := h
  have hlaid := hbody u hu
  have hpop : u.segment.lastIs .pop 0 = true ↔ closing = .value :=
    hlaid.closes.lastIs_pop (ready_inFunction s params).last
  by_cases hclosing : closing = .value
  · -- the last `pop` becomes a return, behind which none is emitted
    subst hclosing
    have hret : (u.ended .give).segment.lastIs .returnValue 0 = true := by
      obtain ⟨w, -, -, hw⟩ := hlaid.closes
      simp [State.ended, State.mapSegment, hw, State.emit, Segment.emit, Segment.returnLastPop,
        Segment.lastIs]
    rw [if_pos (hpop.mpr rfl)] at h
    simp only [bind_ok, onSegment_ok, get_ok] at h
    obtain ⟨_, _, rfl, _, _, ⟨rfl, rfl⟩, h⟩ := h
    rw [show (u.mapSegment Segment.returnLastPop).segment.lastIs .returnValue 0 = true from hret,
      if_neg (by simp)] at h
    simp only [bind_ok, get_ok, pure_ok] at h
    obtain ⟨_, _, ⟨rfl, rfl⟩, rfl, rfl⟩ := h
    exact ⟨_, rfl, rfl, hlaid.emits .give (.inr rfl)⟩
  -- no value at the end: a return that is there already suffices
  · have hret := hlaid.closes.lastIs_returnValue rfl hclosing
    rw [if_neg (fun h => hclosing (hpop.mp h))] at h
    simp only [bind_ok, get_ok] at h
    obtain ⟨_, _, ⟨rfl, rfl⟩, h⟩ := h
    have hdrop := hlaid.emits .drop (.inl rfl)
    by_cases hreturned : closing = .returned
    · subst hreturned
      rw [hret.mpr rfl, if_neg (by simp)] at h
      simp only [bind_ok, get_ok, pure_ok] at h
      obtain ⟨_, _, ⟨rfl, rfl⟩, rfl, rfl⟩ := h
      exact ⟨_, rfl, rfl, hdrop⟩
    · rw [Bool.eq_false_iff.mpr (fun h => hreturned (hret.mp h)), if_pos (by simp)] at h
      simp only [bind_ok, get_ok, pure_ok, emit_ok] at h
      obtain ⟨_, _, rfl, _, _, ⟨rfl, rfl⟩, rfl, rfl⟩ := h
      refine ⟨_, rfl, rfl, (hdrop.seq (emits_emit u .returnNull [])).mono
        fun code constants exit _ h => ?_⟩
      have hbodyAt : ∃ m, layout .drop code constants exit (s.inFunction params).point m
          ∧ OpAt code .returnNull [] m (u.emit .returnNull []).point := ⟨_, h.1, h.2⟩
      cases closing with
      | value => exact absurd rfl hclosing
      | returned => exact absurd rfl hreturned
      | other => exact hbodyAt
      | nothing => exact hbodyAt

/-- Back in the function around, only the constants and the symbols have changed; the code of the
function is as it will be in the finished program, for no jump in it is open. -/
theorem emits_leaveFunction {s v : State} {params : List String}
    {P : Code → Array Value → Option Exit → Prop} (h : Emits (s.inFunction params) v P) :
    ∃ symbols, v.symbols.leaveFunction? = some symbols
      ∧ leaveFunction v = { s with constants := v.constants, symbols, fresh := v.fresh }
      ∧ Emits s (leaveFunction v) fun _ constants _ => P v.segment.code constants none := by
  obtain ⟨jumps, hgrows, hlays⟩ := h
  obtain rfl : jumps = [] := hgrows.closed rfl
  have hnested : v.symbols.outer.length = s.symbols.outer.length + 1 := by
    rw [hgrows.nested]
    simp [State.inFunction, Symbols.enterFunction]
  have hsegments : v.enclosing = s.segment :: s.enclosing := hgrows.enclosing
  obtain ⟨constants, ⟨table, outer, globals⟩, segment, enclosing, fresh⟩ := v
  cases outer with
  | nil => simp at hnested
  | cons around outer =>
    obtain rfl : enclosing = s.segment :: s.enclosing := hsegments
    refine ⟨⟨around, outer, globals⟩, rfl, rfl, [], { Grows.refl s with
      constants := hgrows.constants
      nested := Nat.succ.inj hnested }, fun code constants' b c hf => ?_⟩
    refine hlays segment.code constants' b c ⟨fun _ _ _ _ => rfl, hf.constants, ?_, ?_⟩
    · exact fun _ hj => absurd hj (by simp)
    · exact fun _ hj => absurd hj (by simp)

/-- **A function is made from its code.** Its code is a constant with a fresh identity; then one
instruction makes a closure of it, with as many captures as the table of the function has noted. The
two bounds on slots and captures that the compiler checks become part of the layout. -/
theorem function_leaves {s t : State} {params : List String} {body : Compile Unit}
    {closing : Closing} {exits : Bool} (layout : Layout) {r : Unit}
    (hbody : ∀ u, body (s.inFunction params) = .ok () u →
      Laid (s.inFunction params) u closing exits layout)
    (h : function params body s = .ok r t) :
    Leaves s t (s.segment.depth + 1) fun code constants _ =>
      FunctionAt code constants params
        (fun code => BodyAt code closing fun ending a b => layout ending code constants none a b)
        s.point t.point := by
  unfold function at h
  rw [bind_ok] at h
  obtain ⟨result, u, hcode, h⟩ := h
  obtain ⟨v, rfl, rfl, hemits⟩ := functionCode_emits hbody hcode
  obtain ⟨symbols, hleave, hstate, hemits⟩ := emits_leaveFunction hemits
  rw [hstate] at h hemits
  dsimp only at h
  split at h
  · rw [bind_ok] at h
    obtain ⟨_, _, h, -⟩ := h
    exact absurd h throw_ok
  split at h
  · rw [bind_ok] at h
    obtain ⟨_, _, h, -⟩ := h
    exact absurd h throw_ok
  rename_i hlocals hcaptures
  simp only [bind_ok, identity_ok, addConstant_ok, emit_ok] at h
  obtain ⟨id, u, ⟨rfl, rfl⟩, index, w, ⟨rfl, hindex, rfl⟩, rfl⟩ := h
  -- between the code and the constant only the supply of identities moves on
  have hdraw : Emits { s with constants := v.constants, symbols, fresh := v.fresh }
      { s with constants := v.constants, symbols, fresh := v.fresh + 1 } fun _ _ _ => True :=
    emits_same rfl rfl rfl rfl rfl
  have hconstant := emits_addConstant
    { s with constants := v.constants, symbols, fresh := v.fresh + 1 }
    (.compiled v.fresh ⟨v.segment.code, v.symbols.slots, params.length,
      v.symbols.captured.map captureOf⟩)
  have hclosure := leaves_emit (d := s.segment.depth + 1) { s with
    constants := v.constants.push (.compiled v.fresh ⟨v.segment.code, v.symbols.slots,
      params.length, v.symbols.captured.map captureOf⟩)
    symbols, fresh := v.fresh + 1 } .closure [v.constants.size, v.symbols.captured.length] rfl
  refine ⟨(hemits.seq (hdraw.seq (hconstant.seq hclosure.emits))).mono
    fun code constants exit _ h => ?_, hclosure.depth, hclosure.last⟩
  obtain ⟨hbodyAt, -, hconst, hop⟩ := h
  refine ⟨_, _, _, v.symbols, hindex, hconst, hbodyAt, rfl, Nat.le_of_not_lt hlocals, rfl, rfl,
    ?_, symbols, hleave, ?_⟩
  · simpa using Nat.lt_of_not_le hcaptures
  · rw [List.length_map]
    have hpoint : State.point { s with
        constants := v.constants.push (.compiled v.fresh ⟨v.segment.code, v.symbols.slots,
          params.length, v.symbols.captured.map captureOf⟩)
        symbols, fresh := v.fresh + 1 } = ⟨s.point.position, symbols, v.constants.size + 1⟩ := by
      simp [State.point]
    exact hpoint ▸ hop

/-! ## Loops

The body of a loop is compiled with a new loop around it, whose lists collect the jumps that leave
the body. Closing the loop takes the lists away and sends the jumps to their targets. So while the
body is laid out its jumps are open (`loopExit_laid`), and in `loop_leaves` they are sent by
`emits_loop`. -/

/-- A jump out of a loop, read backwards: first the operands that the loop does not know of are
dropped, then the jump is emitted with a placeholder. -/
theorem loopExit_ok {s t : State} {jump : Nat} (h : loopExit s = .ok (some jump) t) :
    ∃ loop loops u, s.segment.loops = loop :: loops
      ∧ emitPops (s.segment.depth - loop.depth) s = .ok () u ∧ jump = u.segment.code.size
      ∧ t = u.emit .jump [placeholder] := by
  unfold loopExit at h
  simp only [bind_ok, get_ok] at h
  obtain ⟨_, _, ⟨rfl, rfl⟩, h⟩ := h
  rcases hloops : s.segment.loops with _ | ⟨loop, loops⟩
  · simp only [hloops, pure_ok] at h
    exact absurd h.1 (by simp)
  · simp only [hloops, bind_ok, depth_ok, emitJump_ok, pure_ok] at h
    obtain ⟨_, _, ⟨rfl, rfl⟩, _, u, hpops, _, _, ⟨rfl, rfl⟩, hjump, rfl⟩ := h
    exact ⟨loop, loops, u, rfl, hpops, (Option.some.inj hjump).symm, rfl⟩

/-- **A jump out of the innermost loop is laid out while it is open.** `emits_openJump` promises the
target to every finished program that closes the loop; here the operands that are dropped before it
are added. Behind the jump the compiler counts as many operands as the loop does. -/
theorem loopExit_laid {s t : State} {jump : Nat} (breaks : Bool) (hs : Ready s)
    (h : loopExit s = .ok (some jump) t) :
    Laid s (t.mapSegment (Segment.onLoop (LoopContext.add [⟨jump, breaks⟩]))) .other true
      fun _ code _ exit a b =>
        ExitAt code (if breaks then Exit.onBreak else Exit.onContinue) exit s.segment.depth a
          b := by
  obtain ⟨loop, loops, u, hloops, hpops, rfl, rfl⟩ := loopExit_ok h
  have hleaves := emitPops_leaves hs.last hpops
  have hdepth : u.loopDepth = some loop.depth := by
    rw [hleaves.emits.loopDepth, State.loopDepth, hloops]
    rfl
  have hdeep := hs.deep loop.depth (by rw [State.loopDepth, hloops]; rfl)
  have hend := Segment.onLoop_eq (u.emit .jump [placeholder]).segment
    (LoopContext.add [⟨u.segment.code.size, breaks⟩])
  constructor
  · intro ending hending
    obtain rfl : ending = .drop := by simpa using hending
    -- dropping operands does not leave the loop
    rcases hu : u.segment.loops with _ | ⟨loop', loops'⟩
    · rw [State.loopDepth, hu] at hdepth
      exact absurd hdepth (by simp)
    refine (hleaves.emits.seq (emits_openJump hu breaks)).mono fun code constants exit hexit h => ?_
    obtain ⟨hpopsAt, exit', rfl, hjump, hbound⟩ := h
    have hexit' : exit'.depth = loop.depth := by
      rw [State.loopDepth, hloops] at hexit
      simpa using hexit
    refine ⟨exit', u.point, rfl, by rwa [hexit'], ⟨?_, ?_⟩, ?_⟩
    · cases breaks <;> exact hjump
    · rw [State.ended, State.point, State.mapSegment, hend]
      simp [State.point, State.emit, State.mapSegment, Point.skip]
    · cases breaks <;> exact hbound
  · rw [State.mapSegment, hend, if_pos rfl, State.loopDepth, hloops]
    have heq : s.segment.depth - (s.segment.depth - loop.depth) = loop.depth := by omega
    simp [State.emit, State.mapSegment, stackEffect, hleaves.depth, heq]
  · have hlast : LastInside (u.emit .jump [placeholder]) :=
      (leaves_emit u .jump [placeholder] rfl).last
    rw [Closes, EndsOther, LastInside, State.mapSegment, hend]
    exact ⟨⟨⟨.jump, u.segment.code.size⟩, rfl, by simp, by simp⟩, hlast⟩

/-- A block changes the symbols at its start and at its end, and nothing else. -/
theorem inBlock_ok {s t : State} {step : Compile Unit} {r : Unit} :
    inBlock step s = .ok r t ↔ ∃ u, step (s.withSymbols s.symbols.enterBlock) = .ok () u
      ∧ t = u.withSymbols u.symbols.leaveBlock := by
  unfold inBlock
  rw [bind_ok]
  constructor
  · rintro ⟨_, _, henter, h⟩
    obtain ⟨-, rfl⟩ := onSymbols_ok.mp henter
    exact followedBy_ok.mp h
  · exact fun h => ⟨(), _, onSymbols_ok.mpr ⟨rfl, rfl⟩, followedBy_ok.mpr h⟩

/-- **A condition, from its parts.** The two branches start with as many operands as there were
before the test: the jump takes the value of the test, and the compiler sets the depth back for the
second branch. The compilation is spelled out in the hypothesis because `expr` has it inline; the
two patches in it are dealt with by `emits_cond`. -/
theorem cond_leaves {s t : State} {test yes no : Compile Unit} {r : Unit} {closing : Closing}
    {exits : Bool} (yesAt : Nat → Layout)
    {testAt : Code → Array Value → Option Exit → Point → Point → Prop}
    (noAt : Nat → Code → Array Value → Option Exit → Point → Point → Prop) (hs : Ready s)
    (htest : ∀ u, test s = .ok () u → Leaves s u (s.segment.depth + 1)
      fun code constants exit => testAt code constants exit s.point u.point)
    (hyes : ∀ u v, Ready u → yes u = .ok () v → Laid u v closing exits (yesAt u.segment.depth))
    (hno : ∀ u v, Ready u → no u = .ok () v → Leaves u v v.segment.depth
      fun code constants exit => noAt u.segment.depth code constants exit u.point v.point)
    (h : (do
      test
      let toNo ← emitJump .jumpNotTruthy
      let depth ← depth
      branch yes
      let toEnd ← emitJump .jump
      patch toNo (← position)
      onSegment (Segment.setDepth depth)
      no
      patch toEnd (← position)
      onSegment (Segment.setDepth (depth + 1)) : Compile Unit) s = .ok r t) :
    Leaves s t (s.segment.depth + 1) fun code constants exit =>
      CondAt code (testAt code constants exit)
        (BranchAt code closing fun ending => yesAt s.segment.depth ending code constants exit)
        (noAt s.segment.depth code constants exit) s.point t.point := by
  simp only [bind_ok, emitJump_ok, depth_ok, position_ok, patch_ok, onSegment_ok] at h
  obtain ⟨_, u, hu, _, _, ⟨rfl, rfl⟩, _, _, ⟨rfl, rfl⟩, _, v, hv, _, _, ⟨rfl, rfl⟩, _, _,
    ⟨rfl, rfl⟩, _, _, ⟨hto, rfl⟩, _, _, rfl, _, w, hw, _, _, ⟨rfl, rfl⟩, _, _, ⟨hend, rfl⟩,
    rfl⟩ := h
  -- the parts in the order of the code: the test, the jump, the first branch, the second one
  have htested := htest u hu
  have hready := htested.ready hs (by omega)
  have htaken := leaves_take u .jumpNotTruthy [placeholder] rfl
  rw [htested.depth, Nat.add_sub_cancel] at htaken
  have hready' := (htested.seq htaken).ready hs (Nat.le_refl _)
  have hbranch := branch_leaves hready' (fun x hx => hyes _ x hready' hx) hv
  rw [htaken.depth] at hbranch hw ⊢
  -- the second branch starts where the first jump leads: patching and setting the depth back keep
  -- what `Ready` says
  have hstart : Ready (((v.emit .jump [placeholder]).mapSegment (Segment.patch u.segment.code.size
      (v.emit .jump [placeholder]).segment.code.size)).mapSegment
        (Segment.setDepth s.segment.depth)) := by
    have hjump := leaves_emit (d := v.segment.depth) v .jump [placeholder]
      (by simp [stackEffect])
    constructor
    · intro l hl
      simp only [State.mapSegment] at hl ⊢
      rw [Segment.patch_eq] at hl
      rw [Segment.code_setDepth, Segment.size_patch]
      exact hjump.last l hl
    · intro d hd
      refine hs.deep d (hd ▸ ?_)
      rw [← htested.emits.loopDepth]
      have hloop : v.loopDepth = u.loopDepth := hbranch.emits.loopDepth.trans htaken.emits.loopDepth
      rw [← hloop]
      simp only [State.loopDepth, State.mapSegment]
      rw [Segment.patch_eq]
      rfl
  have helse := hno _ w hstart hw
  have hall := htested.emits.seq (emits_cond _ (s.segment.depth + 1)
    hbranch.emits helse.emits rfl)
  -- the layout is there up to the names of points: patching moves none of them
  refine ⟨hall.mono fun code constants exit _ h => ?_, rfl, ?_⟩
  · obtain ⟨htest, ⟨hjump, hyes⟩, hjump', hno⟩ := h
    have hsize : (v.emit .jump [placeholder]).segment.code.size
        = v.segment.code.size + Op.jump.size := Segment.size_emit ..
    rw [hsize] at hto
    have hpoint : ((w.mapSegment (Segment.patch v.segment.code.size
        w.segment.code.size)).mapSegment (Segment.setDepth (s.segment.depth + 1))).point
          = w.point := State.point_patch w _ _
    rw [hpoint]
    refine ⟨u.point, v.point, htest, ⟨hjump, rfl⟩, ?_, ⟨hjump', rfl⟩, hto, hend, ?_⟩
    · rwa [State.point_emit] at hyes
    · have hpoint' := State.point_patch (v.emit .jump [placeholder]) u.segment.code.size
        (v.emit .jump [placeholder]).segment.code.size
      rw [State.point_emit] at hpoint'
      exact hpoint' ▸ hno
  · intro l hl
    simp only [State.mapSegment] at hl ⊢
    rw [Segment.patch_eq] at hl
    rw [Segment.code_setDepth, Segment.size_patch]
    exact helse.last l hl

/-- The body of a loop, with the jumps that it has left open. -/
theorem loopBody_ok {s t : State} {body : Compile Unit} {jumps : LoopContext}
    (h : loopBody body s = .ok jumps t) :
    ∃ v, body (s.mapSegment Segment.openLoop) = .ok () v
      ∧ jumps = v.segment.loops.headD ⟨0, [], []⟩ ∧ t = v.mapSegment Segment.closeLoop := by
  unfold loopBody at h
  simp only [bind_ok, onSegment_ok, followedBy_ok, get_ok, pure_ok] at h
  obtain ⟨_, _, rfl, _, ⟨_, v, hv, _, _, ⟨rfl, rfl⟩, rfl, rfl⟩, rfl⟩ := h
  exact ⟨v, hv, rfl, rfl⟩

/-- Inside of a loop the depth of the loop is that at its start, so a body starts ready whatever
loops are around. -/
theorem ready_openLoop {s : State} (hs : LastInside s) :
    Ready (s.mapSegment Segment.openLoop) where
  last := hs
  deep d hd := by
    obtain rfl : s.segment.depth = d := Option.some.inj hd
    exact Nat.le_refl _

/-- **Behind the body of a loop as many operands are counted as before it**, whether or not the body
jumps out: in both cases it is the depth at which the loop was opened. The loops around are the ones
from before. -/
theorem Laid.closeLoop {s t : State} {closing : Closing} {exits : Bool} {layout : Layout}
    (hs : Ready s) (h : Laid (s.mapSegment Segment.openLoop) t closing exits layout) :
    Ready (t.mapSegment Segment.closeLoop)
      ∧ (t.mapSegment Segment.closeLoop).segment.depth = s.segment.depth
      ∧ (t.mapSegment Segment.closeLoop).loopDepth = s.loopDepth := by
  have hdepth : t.segment.depth = s.segment.depth := by
    rw [h.depth]
    split <;> rfl
  obtain ⟨jumps, hgrows, -⟩ := h.emits .drop (.inl rfl)
  have hloops : t.segment.loops.tail = s.segment.loops := by
    have := hgrows.loops
    simp only [State.ended] at this
    rw [this]
    rfl
  have hloopDepth : (t.mapSegment Segment.closeLoop).loopDepth = s.loopDepth := by
    show (t.segment.loops.tail).head?.map _ = _
    rw [hloops]
    rfl
  have hlast : LastInside t := h.closes.last (ready_openLoop hs.last).last
  refine ⟨⟨hlast, fun d hd => ?_⟩, hdepth, hloopDepth⟩
  rw [hloopDepth] at hd
  exact hdepth ▸ hs.deep d hd

/-- A loop, read backwards from its success: what its parts have been compiled to, and the patches
at its end. The statement only names the intermediate states, so that the lemmas about the parts can
be applied one by one. -/
theorem loop_ok {s t : State} {init test post body : Compile Unit} {r : Unit}
    (h : loop init test post body s = .ok r t) :
    ∃ u₁ u₂ v w, init s = .ok () u₁ ∧ test u₁ = .ok () u₂ ∧ body u₂.openBody = .ok () v
      ∧ post (v.mapSegment Segment.closeLoop) = .ok () w ∧ u₁.segment.code.size ≤ maxWord
      ∧ ∃ t₁ t₂ t₃,
        patch u₂.segment.code.size (w.emit .jump [u₁.segment.code.size]).segment.code.size
            (w.emit .jump [u₁.segment.code.size]) = .ok () t₁
          ∧ patchAll (v.segment.loops.headD ⟨0, [], []⟩).breaks.reverse
            (w.emit .jump [u₁.segment.code.size]).segment.code.size t₁ = .ok () t₂
          ∧ patchAll (v.segment.loops.headD ⟨0, [], []⟩).continues.reverse v.segment.code.size t₂
            = .ok () t₃
          ∧ t = (t₃.emit .pushNull []).emit .pop [] := by
  unfold loop at h
  simp only [bind_ok, position_ok, emitJump_ok, checkTarget_ok, emit_ok] at h
  obtain ⟨_, u₁, h₁, _, _, ⟨rfl, rfl⟩, _, u₂, h₂, _, _, ⟨rfl, rfl⟩, jumps, v, h₃, _, _, ⟨rfl, rfl⟩,
    _, w, h₄, _, _, ⟨hstart, rfl⟩, _, _, rfl, _, _, ⟨rfl, rfl⟩, _, t₁, h₅, _, t₂, h₆, _, t₃, h₇,
    _, _, rfl, rfl⟩ := h
  obtain ⟨v, hv, rfl, rfl⟩ := loopBody_ok h₃
  exact ⟨u₁, u₂, v, w, h₁, h₂, hv, h₄, hstart, t₁, t₂, t₃, h₅, h₆, h₇, rfl⟩

/-- The test of a loop and the jump that leaves it: the jump takes the value of the test, so the
body starts with as many operands as the test did. -/
theorem ready_openBody {s u : State} {P : Code → Array Value → Option Exit → Prop} (hs : Ready s)
    (h : Leaves s u (s.segment.depth + 1) P) :
    Ready (u.emit .jumpNotTruthy [placeholder])
      ∧ (u.emit .jumpNotTruthy [placeholder]).segment.depth = s.segment.depth := by
  have htaken := leaves_take u .jumpNotTruthy [placeholder] rfl
  rw [h.depth, Nat.add_sub_cancel] at htaken
  exact ⟨(h.seq htaken).ready hs (Nat.le_refl _), htaken.depth⟩

/-- **A loop, from its parts.** All of them start with the operands that the first part has left;
the depth behind the loop is that behind its third part, for this is the part that was compiled
last. -/
theorem loop_leaves {s t : State} {init test post body : Compile Unit} {ci cb cp : Closing}
    {ei eb ep : Bool} {r : Unit} (initAt : Layout) (bodyAt postAt : Nat → Layout)
    (testAt : Nat → Code → Array Value → Option Exit → Point → Point → Prop) (hs : Ready s)
    (hinit : ∀ u, init s = .ok () u → Laid s u ci ei initAt)
    (htest : ∀ u v, Ready u → test u = .ok () v → Leaves u v (u.segment.depth + 1)
      fun code constants exit => testAt u.segment.depth code constants exit u.point v.point)
    (hbody : ∀ u v, Ready u → body u = .ok () v → Laid u v cb eb (bodyAt u.segment.depth))
    (hpost : ∀ u v, Ready u → post u = .ok () v → Laid u v cp ep (postAt u.segment.depth))
    (h : loop init test post body s = .ok r t) :
    ∃ u d, d = (if ei then s.loopDepth.getD s.segment.depth else s.segment.depth)
      ∧ s.segment.code.size ≤ u.segment.code.size ∧ t = u.emit .pop []
      ∧ Leaves s u ((if ep then s.loopDepth.getD d else d) + 1) fun code constants exit =>
        LoopAt code (initAt .drop code constants exit) (testAt d code constants exit)
          (postAt d .drop code constants exit)
          (fun onBreak onContinue =>
            bodyAt d .drop code constants (some ⟨d, onBreak, onContinue⟩))
          s.point u.point := by
  obtain ⟨u₁, u₂, v, w, h₁, h₂, h₃, h₄, hstart, t₁, t₂, t₃, h₅, h₆, h₇, rfl⟩ := loop_ok h
  have hlaid₁ := hinit u₁ h₁
  have hready₁ := hlaid₁.ready hs
  have htested := htest u₁ u₂ hready₁ h₂
  obtain ⟨hready₃, hdepth₃⟩ := ready_openBody hready₁ htested
  have hlaid₃ := hbody _ v (ready_openLoop hready₃.last) h₃
  obtain ⟨hready₄, hdepth₄, hloop₄⟩ := hlaid₃.closeLoop hready₃
  have hlaid₄ := hpost _ w hready₄ h₄
  have hemits₁ : Emits s u₁ fun code constants exit =>
      initAt .drop code constants exit s.point u₁.point := hlaid₁.emits .drop (.inl rfl)
  have hemits₃ : Emits u₂.openBody v fun code constants exit =>
      bodyAt u₂.openBody.segment.depth .drop code constants exit u₂.openBody.point v.point :=
    hlaid₃.emits .drop (.inl rfl)
  have hemits₄ : Emits (v.mapSegment Segment.closeLoop) w fun code constants exit =>
      postAt (v.mapSegment Segment.closeLoop).segment.depth .drop code constants exit v.point
        w.point := hlaid₄.emits .drop (.inl rfl)
  -- all parts start with what the first one has left
  have hdepth : u₂.openBody.segment.depth = u₁.segment.depth := hdepth₃
  rw [hdepth₃] at hdepth₄
  rw [hdepth] at hemits₃
  rw [hdepth₄] at hemits₄
  obtain ⟨hafter, code, rfl, hsize, hemits⟩ :=
    emits_loop hemits₃ (hemits₄.seq (emits_emit w .jump [u₁.segment.code.size])) h₅ h₆ h₇
  rw [hdepth] at hemits
  have hnull := leaves_emit (d := w.segment.depth + 1)
    ((w.emit .jump [u₁.segment.code.size]).withCode code) .pushNull [] (by
      simp [State.emit, State.mapSegment, State.withCode, stackEffect])
  have hall := ((hemits₁.seq htested.emits).seq hemits).seq hnull.emits
  have hend : (w.emit .jump [u₁.segment.code.size]).segment.code.size
      = w.segment.code.size + Op.jump.size := Segment.size_emit ..
  have hpoint : ((w.emit .jump [u₁.segment.code.size]).withCode code).point
      = w.point.skip Op.jump.size := by
    rw [State.point, State.withCode, Point.skip, State.point]
    simp only [hsize, hend]
    rfl
  rw [hend] at hafter
  refine ⟨_, u₁.segment.depth, hlaid₁.depth, hall.size, rfl,
    ⟨hall.mono fun final constants exit _ h => ?_, ?_, hnull.last⟩⟩
  · obtain ⟨⟨⟨hinit, htest⟩, hleave, hbody, hpost, hjump⟩, hnull⟩ := h
    rw [hend] at hleave hbody
    rw [hpoint] at hnull
    have hstarts : u₂.openBody.point = u₂.point.skip Op.jumpNotTruthy.size :=
      State.point_emit u₂ .jumpNotTruthy [placeholder]
    rw [hstarts] at hbody
    exact ⟨u₁.point, u₂.point, v.point, w.point, hinit, htest, ⟨hleave, rfl⟩, hbody, hpost,
      ⟨hjump.1, rfl⟩, hstart, hafter, hnull⟩
  · have hloop₃ : (u₂.emit .jumpNotTruthy [placeholder]).loopDepth = u₁.loopDepth :=
      htested.emits.loopDepth
    rw [hnull.depth, hlaid₄.depth, hdepth₄, hloop₄, hloop₃, hemits₁.loopDepth]

/-! ## Statements without code

`closingList` skips statements without code, so the layout asks for one of them with an ending that
is not `drop` only if nothing else has code. Behind the statement that has the ending, the others
are laid out with `drop`, and they fit anywhere. -/

mutual

/-- Statements without code are laid out anywhere. -/
theorem stmtAt_nothing {code : Code} {constants : Array Value} {exit : Option Exit} {d : Nat} :
    (s : Stmt) → s.closing = .nothing → (a : Point) → StmtAt code constants exit .drop d s a a
  | .block body, h, a =>
    ⟨a.withSymbols a.symbols.enterBlock, stmtsAt_nothing body h _, rfl⟩
  | .expr _, h, _ | .bind _ _, h, _ | .assign _ _, h, _ | .ret _, h, _ | .loop _ _ _ _, h, _
  | .breakLoop, h, _ | .continueLoop, h, _ => absurd h (by simp [Stmt.closing])

/-- The mutual companion for lists. -/
theorem stmtsAt_nothing {code : Code} {constants : Array Value} {exit : Option Exit} {d : Nat} :
    (body : List Stmt) → Stmt.closingList body = .nothing → (a : Point) →
      StmtsAt code constants exit .drop d body a a
  | [], _, _ => rfl
  | s :: rest, h, a => by
    rw [Stmt.closingList] at h
    split at h
    · rename_i hrest
      rw [StmtsAt]
      exact ⟨a, by rw [if_pos hrest]; exact ⟨stmtAt_nothing s h a, stmtsAt_nothing rest hrest a⟩⟩
    · rename_i hrest
      exact absurd h hrest

end

/-! ## Calls of `quote`, operators and stored values

What remains of the constructors: each lemma here is used by one or two cases of the recursion. -/

/-- Only the name `quote` is looked up; for every other callee the question has no effect on the
symbols. -/
theorem isQuote_eq {callee : Expr} (h : callee ≠ .ident "quote") :
    isQuote callee = pure false := by
  unfold isQuote
  split
  · exact absurd rfl h
  · rfl

/-- **Asking for `quote` is `Symbols.quotes`**, the pure function that the layout uses. -/
theorem isQuote_ok {callee : Expr} {s t : State} {b : Bool} :
    isQuote callee s = .ok b t
      ↔ b = (s.symbols.quotes callee).1 ∧ t = s.withSymbols (s.symbols.quotes callee).2 := by
  by_cases hquote : callee = .ident "quote"
  · subst hquote
    simp only [isQuote, Symbols.quotes, bind_ok, onSymbols_ok, pure_ok]
    constructor
    · rintro ⟨_, _, ⟨rfl, rfl⟩, rfl, rfl⟩
      exact ⟨rfl, rfl⟩
    · rintro ⟨rfl, rfl⟩
      exact ⟨_, _, ⟨rfl, rfl⟩, rfl, rfl⟩
  · have hsame : s.symbols.quotes callee = (false, s.symbols) := by
      unfold Symbols.quotes
      split
      · exact absurd rfl hquote
      · rfl
    rw [isQuote_eq hquote, hsame, pure_ok]
    exact ⟨fun h => ⟨h.1.symm, h.2.symm⟩, fun h => ⟨h.1.symm, h.2.symm⟩⟩

/-- A call of `quote` becomes a constant that holds the syntax of its only argument. Any other
number of arguments is an error of the compiler. -/
theorem quote_leaves {args : List Expr} {s t : State} {r : Unit} (hs : LastInside s)
    (h : quote args s = .ok r t) :
    Leaves s t (s.segment.depth + 1) fun code constants _ =>
      ∃ id e, args = [e] ∧ ConstAt code constants (.quote id e) s.point t.point := by
  unfold quote at h
  split at h
  · simp only [bind_ok, identity_ok] at h
    obtain ⟨_, u, ⟨rfl, rfl⟩, h⟩ := h
    have hfresh : Leaves s { s with fresh := s.fresh + 1 } s.segment.depth fun _ _ _ => True :=
      ⟨emits_same rfl rfl rfl rfl rfl, rfl, hs⟩
    exact (hfresh.seq (emitConstant_leaves hfresh.last h)).mono
      fun _ _ _ _ h => ⟨_, _, rfl, h.2⟩
  · exact absurd h throw_ok

/-- An operator on two operands takes both and leaves one. -/
theorem infixOp_effect {op : Token} {operation : Op} (h : infixOp? op = some operation) :
    stackEffect operation [] = -1 := by
  cases op <;> simp [infixOp?] at h <;> subst h <;> rfl

/-- An operator on one operand takes it and leaves another. -/
theorem prefixOp_effect {op : Token} {operation : Op} (h : prefixOp? op = some operation) :
    stackEffect operation [] = 0 := by
  cases op <;> simp [prefixOp?] at h <;> subst h <;> rfl

/-- An operator without an instruction is an error of the compiler. -/
theorem emitOperator_ok {op : Token} {operation : Option Op} {s t : State} {r : Unit} :
    emitOperator op operation s = .ok r t ↔ ∃ o, operation = some o ∧ t = s.emit o [] := by
  cases operation with
  | none => exact ⟨fun h => absurd h throw_ok, fun ⟨_, h, _⟩ => absurd h (by simp)⟩
  | some o =>
    show emit o [] s = .ok r t ↔ _
    rw [emit_ok]
    exact ⟨fun h => ⟨o, rfl, h⟩, fun ⟨_, ho, h⟩ => by cases ho; exact h⟩

/-- **Statements that end with neither a value nor a return have one ending only**, so a single
layout is all that `Laid` asks for. -/
theorem Leaves.laid {s t : State} {d : Nat} {layout : Layout}
    (h : Leaves s t d fun code constants exit =>
      layout .drop code constants exit s.point t.point) (hd : d = s.segment.depth)
    (hother : EndsOther t) : Laid s t .other false layout where
  emits ending hending := by
    obtain rfl : ending = .drop := by simpa using hending
    exact h.emits
  depth := by rw [h.depth, hd, if_neg (by decide)]
  closes := ⟨hother, h.last⟩

/-- A value is computed and stored as that of a symbol. The symbols in between may change, since a
`let` defines its name behind the value. -/
theorem store_laid {s u t : State} {symbol : Symbol} (symbols : Symbols) {r : Unit}
    {P : Code → Array Value → Option Exit → Prop}
    (hvalue : Leaves s u (s.segment.depth + 1) P)
    (hnested : symbols.outer.length = u.symbols.outer.length)
    (h : store symbol (u.withSymbols symbols) = .ok r t) :
    Leaves s t s.segment.depth (fun code constants exit =>
      P code constants exit ∧ StoreAt code symbol (u.point.withSymbols symbols) t.point)
      ∧ EndsOther t := by
  have hsymbols := leaves_symbols hvalue.last hnested
  obtain ⟨hstore, hother⟩ := store_leaves hsymbols.last h
  rw [hsymbols.depth, hvalue.depth, Nat.add_sub_cancel] at hstore
  exact ⟨((hvalue.seq hsymbols).seq hstore).mono fun _ _ _ _ h => ⟨h.1.1, h.2⟩, hother⟩

/-- Statements in a block of their own. The symbols change at both ends, which no ending and no
closing depends on. -/
theorem Laid.inBlock {s t : State} {closing : Closing} {exits : Bool} {layout : Layout}
    (hs : LastInside s)
    (h : Laid (s.withSymbols s.symbols.enterBlock) t closing exits layout) :
    Laid s (t.withSymbols t.symbols.leaveBlock) closing exits
      fun ending code constants exit a b =>
        ∃ m : Point, layout ending code constants exit (a.withSymbols a.symbols.enterBlock) m
          ∧ b = m.withSymbols m.symbols.leaveBlock where
  emits ending hending := by
    have henter := (leaves_symbols hs (Symbols.length_outer_enterBlock s.symbols)).emits
    have hleave : Emits (t.ended ending) ((t.withSymbols t.symbols.leaveBlock).ended ending)
        fun _ _ _ => True := by
      cases ending <;> exact emits_same rfl rfl rfl rfl rfl
    refine (henter.seq ((h.emits ending hending).seq hleave)).mono
      fun code constants exit _ h => ⟨_, h.2.1, ?_⟩
    cases ending <;> rfl
  depth := h.depth
  closes := by
    have hcloses := h.closes
    cases closing with
    | nothing =>
      obtain rfl : t = s.withSymbols s.symbols.enterBlock := hcloses
      rfl
    | _ => exact hcloses

/-- **A statement and those behind it.** If the rest has no code, then the first statement is the
last one that has some: it takes the ending, and the rest is laid out at its end with nothing.
Otherwise the first one drops its value, and the rest starts with the depth behind it. -/
theorem Laid.cons {s u t : State} {st : Stmt} {rest : List Stmt}
    (hfirst : Laid s u st.closing st.exits fun ending code constants exit a b =>
      StmtAt code constants exit ending s.segment.depth st a b)
    (hrest : Laid u t (Stmt.closingList rest) (Stmt.exitsAny rest)
      fun ending code constants exit a b =>
        StmtsAt code constants exit ending u.segment.depth rest a b) :
    Laid s t (Stmt.closingList (st :: rest)) (Stmt.exitsAny (st :: rest))
      fun ending code constants exit a b =>
        StmtsAt code constants exit ending s.segment.depth (st :: rest) a b where
  emits ending hending := by
    by_cases hnone : Stmt.closingList rest = .nothing
    -- statements without code are compiled to the same state
    · have htu : t = u := by
        have := hrest.closes
        rwa [hnone] at this
      subst htu
      rw [Stmt.closingList, if_pos hnone] at hending
      refine (hfirst.emits ending hending).mono fun code constants exit _ h => ?_
      rw [StmtsAt]
      exact ⟨_, by rw [if_pos hnone]; exact ⟨h, stmtsAt_nothing rest hnone _⟩⟩
    · rw [Stmt.closingList, if_neg hnone] at hending
      refine ((hfirst.emits .drop (.inl rfl)).seq (hrest.emits ending hending)).mono
        fun code constants exit hexit h => ?_
      have hdepth : st.depthAfter exit s.segment.depth = u.segment.depth := by
        rw [Stmt.depthAfter, hexit, hfirst.depth]
      rw [StmtsAt]
      refine ⟨u.point, ?_⟩
      rw [if_neg hnone, hdepth]
      exact h
  depth := by
    have hloop : u.loopDepth = s.loopDepth := (hfirst.emits .drop (.inl rfl)).loopDepth
    rw [hrest.depth, hloop, hfirst.depth, Stmt.exitsAny]
    -- whether either of them jumps out of a loop, and whether there is one
    cases st.exits <;> cases Stmt.exitsAny rest <;> cases s.loopDepth <;> rfl
  closes := by
    have hcloses := hrest.closes
    by_cases hnone : Stmt.closingList rest = .nothing
    · rw [hnone] at hcloses
      obtain rfl : t = u := hcloses
      rw [Stmt.closingList, if_pos hnone]
      exact hfirst.closes
    · rw [Stmt.closingList, if_neg hnone]
      cases hclosing : Stmt.closingList rest with
      | nothing => exact absurd hclosing hnone
      | value =>
        rw [hclosing] at hcloses
        obtain ⟨w, hlast, hsize, ht⟩ := hcloses
        exact ⟨w, hlast, Nat.le_trans (hfirst.emits .drop (.inl rfl)).size hsize, ht⟩
      | returned =>
        rw [hclosing] at hcloses
        exact hcloses
      | other =>
        rw [hclosing] at hcloses
        exact hcloses

end Scriptlet.Compilation
