import Scriptlet.Proofs.Alignment
import Scriptlet.Proofs.Layout.Reach

/-!
# Depths of compiled code

A depth map gives the positions of a code that are reached the number of operands that the machine
has on the stack there (`Depths`). `Fits` says what has to hold for an instruction to be executed on
so many operands: they suffice, the operand bytes denote something that is there, and every position
that the machine goes on at is mapped to as many operands as are left (`Leads`).

Such a map is put together from the maps of the parts of a layout. `Typed` is the interface between
parts: what a part promises about the positions in it, and what it expects of the positions that it
leads to. Neither mentions a particular map of the whole, which is only there once all parts are.

The proposition `exact` tells two readings apart. If it holds, the map gives the number of operands;
if not, it gives a lower bound, which is what is left when a jump drops too few of them. Safety
needs no more than the bound, and balance needs the number, so both are read off one induction.
-/

namespace Scriptlet

/-- The numbers of operands at the positions of a code. A position without one is never reached. -/
abbrev Depths := Nat → Option Nat

/-- **The machine may go on at `p` with `d` operands.** The map may expect fewer, unless it is
exact. -/
def Leads (exact : Prop) (depths : Depths) (p d : Nat) : Prop :=
  ∃ k, depths p = some k ∧ k ≤ d ∧ (exact → k = d)

theorem Leads.mono {exact : Prop} {depths : Depths} {p d d' : Nat}
    (h : Leads exact depths p d) (hle : d ≤ d') (hexact : exact → d = d') :
    Leads exact depths p d' := by
  obtain ⟨k, hk, hkd, heq⟩ := h
  exact ⟨k, hk, Nat.le_trans hkd hle, fun he => (heq he).trans (hexact he)⟩

/-- What the code of a function may refer to: so many built-in functions, locals and captured
variables. -/
structure Surroundings where
  builtins : Nat
  locals : Nat
  free : Nat

/-- A captured variable is there. -/
def Capture.Within (surroundings : Surroundings) : Capture → Prop
  | .slot index => index < surroundings.locals
  | .free index => index < surroundings.free

/-- The values that the compiler makes constants of and the machine puts on the stack. -/
def Value.IsLiteral : Value → Prop
  | .int _ | .float _ | .str _ | .quote _ _ => True
  | _ => False

/-- **A function whose code is the layout of some statements**, in the surroundings where it has
been compiled. The bounds are those that the compiler has checked. -/
structure CompiledFrom (exact : Prop) (builtins : Nat) (constants : Array Value)
    (fn : FunctionCode) (params : List String) (body : List Stmt) (around inner : Symbols) :
    Prop where
  bounded : Symbols.Bounded builtins around.tables
  laid : ∃ first last : Nat, BodyAt fn.code (Stmt.closingList body)
    (fun ending a b => StmtsAt fn.code constants none ending 0 body a b)
    ⟨0, around.enterFunction.defineAll params, first⟩ ⟨fn.code.size, inner, last⟩
  nested : inner.outer ≠ []
  slots : fn.locals = inner.slots
  captured : inner.captured.length = fn.captures.length
  locals_le : fn.locals ≤ Compilation.maxLocals
  captures_lt : fn.captures.length < Compilation.maxLocals
  aligned : exact → Stmt.alignedAll false false body = true

/-- A function that the compiler has made. -/
def FunctionCode.IsCompiled (exact : Prop) (builtins : Nat) (constants : Array Value)
    (fn : FunctionCode) : Prop :=
  ∃ params body around inner,
    CompiledFrom exact builtins constants fn params body around inner

/-- **The instruction at `p` can be executed on `d` operands**, and leads to mapped positions only.
One case for each operation: what has to be there for it, and where it goes on with what is left. -/
def Fits (exact : Prop) (surroundings : Surroundings) (constants : Array Value)
    (depths : Depths) (p d : Nat) (op : Op) (operands : List Nat) : Prop :=
  match op, operands with
  | .constant, [i] =>
    i ≤ Compilation.maxWord ∧ (∃ value, constants[i]? = some value ∧ value.IsLiteral)
      ∧ Leads exact depths (p + op.size) (d + 1)
  | .pushTrue, [] | .pushFalse, [] | .pushNull, [] => Leads exact depths (p + op.size) (d + 1)
  | .add, [] | .sub, [] | .mul, [] | .div, [] | .equal, [] | .notEqual, [] | .greaterThan, []
  | .index, [] => 2 ≤ d ∧ Leads exact depths (p + op.size) (d - 1)
  | .minus, [] | .bang, [] => 1 ≤ d ∧ Leads exact depths (p + op.size) d
  | .pop, [] => 1 ≤ d ∧ Leads exact depths (p + op.size) (d - 1)
  | .jump, [target] =>
    target ≤ Compilation.maxWord ∧ Leads exact depths target d
      -- a jump back closes a loop, and the loop is left right behind it
      ∧ (target ≤ p → Leads exact depths (p + op.size) d)
  | .jumpNotTruthy, [target] =>
    target ≤ Compilation.maxWord ∧ 1 ≤ d ∧ Leads exact depths target (d - 1)
      ∧ Leads exact depths (p + op.size) (d - 1)
  | .getGlobal, [i] => i < Compilation.maxGlobals ∧ Leads exact depths (p + op.size) (d + 1)
  | .setGlobal, [i] =>
    i < Compilation.maxGlobals ∧ 1 ≤ d ∧ Leads exact depths (p + op.size) (d - 1)
  | .getLocal, [i] =>
    i < Compilation.maxLocals ∧ i < surroundings.locals
      ∧ Leads exact depths (p + op.size) (d + 1)
  | .setLocal, [i] =>
    i < Compilation.maxLocals ∧ i < surroundings.locals ∧ 1 ≤ d
      ∧ Leads exact depths (p + op.size) (d - 1)
  | .getFree, [i] =>
    i < Compilation.maxLocals ∧ i < surroundings.free ∧ Leads exact depths (p + op.size) (d + 1)
  | .setFree, [i] =>
    i < Compilation.maxLocals ∧ i < surroundings.free ∧ 1 ≤ d
      ∧ Leads exact depths (p + op.size) (d - 1)
  | .getBuiltin, [i] => i < surroundings.builtins ∧ Leads exact depths (p + op.size) (d + 1)
  | .array, [count] =>
    count ≤ Compilation.maxWord ∧ count ≤ d ∧ Leads exact depths (p + op.size) (d - count + 1)
  | .hash, [count] =>
    count ≤ Compilation.maxWord ∧ count % 2 = 0 ∧ count ≤ d
      ∧ Leads exact depths (p + op.size) (d - count + 1)
  | .call, [count] =>
    count < Compilation.maxLocals ∧ count + 1 ≤ d ∧ Leads exact depths (p + op.size) (d - count)
  | .closure, [i, count] =>
    i ≤ Compilation.maxWord ∧ count < Compilation.maxLocals
      ∧ (∃ id fn, constants[i]? = some (.compiled id fn) ∧ fn.captures.length = count
        ∧ fn.IsCompiled exact surroundings.builtins constants
        ∧ ∀ capture ∈ fn.captures, capture.Within surroundings)
      ∧ Leads exact depths (p + op.size) (d + 1)
  | .returnValue, [] => 1 ≤ d
  | .returnNull, [] => True
  | _, _ => False

/-- An instruction that fits on some operands fits on more, where the count need not be exact. It
then leaves more behind as well, which `Leads` permits. -/
theorem Fits.mono {exact : Prop} {surroundings : Surroundings} {constants : Array Value}
    {depths : Depths} {p k d : Nat} {op : Op} {operands : List Nat} (hle : k ≤ d)
    (heq : exact → k = d) (h : Fits exact surroundings constants depths p k op operands) :
    Fits exact surroundings constants depths p d op operands := by
  -- with exact counts there is nothing to show
  by_cases he : exact
  · rwa [← heq he]
  have hlead : ∀ {q i j : Nat}, i ≤ j → Leads exact depths q i → Leads exact depths q j :=
    fun hij h => h.mono hij fun h => absurd h he
  have hsucc : k + 1 ≤ d + 1 := Nat.succ_le_succ hle
  have hpred : k - 1 ≤ d - 1 := Nat.sub_le_sub_right hle 1
  unfold Fits at h
  split at h
  case h_1 => exact ⟨h.1, h.2.1, hlead hsucc h.2.2⟩
  case h_2 | h_3 | h_4 => exact hlead hsucc h
  case h_5 | h_6 | h_7 | h_8 | h_9 | h_10 | h_11 | h_12 =>
    exact ⟨Nat.le_trans h.1 hle, hlead hpred h.2⟩
  case h_13 | h_14 => exact ⟨Nat.le_trans h.1 hle, hlead hle h.2⟩
  case h_15 => exact ⟨Nat.le_trans h.1 hle, hlead hpred h.2⟩
  case h_16 => exact ⟨h.1, hlead hle h.2.1, fun hback => hlead hle (h.2.2 hback)⟩
  case h_17 => exact ⟨h.1, Nat.le_trans h.2.1 hle, hlead hpred h.2.2.1, hlead hpred h.2.2.2⟩
  case h_18 => exact ⟨h.1, hlead hsucc h.2⟩
  case h_19 => exact ⟨h.1, Nat.le_trans h.2.1 hle, hlead hpred h.2.2⟩
  case h_20 | h_22 => exact ⟨h.1, h.2.1, hlead hsucc h.2.2⟩
  case h_21 | h_23 => exact ⟨h.1, h.2.1, Nat.le_trans h.2.2.1 hle, hlead hpred h.2.2.2⟩
  case h_24 => exact ⟨h.1, hlead hsucc h.2⟩
  case h_25 => exact ⟨h.1, Nat.le_trans h.2.1 hle, hlead (by omega) h.2.2⟩
  case h_26 => exact ⟨h.1, h.2.1, Nat.le_trans h.2.2.1 hle, hlead (by omega) h.2.2.2⟩
  case h_27 => exact ⟨h.1, Nat.le_trans h.2.1 hle, hlead (by omega) h.2.2⟩
  case h_28 => exact ⟨h.1, h.2.1, h.2.2.1, hlead hsucc h.2.2.2⟩
  case h_29 => exact Nat.le_trans h hle
  case h_30 => exact trivial
  case h_31 => exact absurd h id

/-- The instruction at a mapped position fits. -/
def FitsAt (exact : Prop) (surroundings : Surroundings) (code : Code) (constants : Array Value)
    (depths : Depths) (p d : Nat) : Prop :=
  ∃ op operands, InstrAt code p op operands
    ∧ Fits exact surroundings constants depths p d op operands

/-! ## Parts of a code

A map of the whole is found in two steps. The parts choose the depths of their own positions without
asking the others, and what they expect of each other is settled when they are put together. -/

/-- **The code from `lo` to `hi` has depths.** In any map that contains them `known` holds, and if
such a map meets `expects`, then every instruction of the part fits. -/
def Typed (exact : Prop) (surroundings : Surroundings) (code : Code) (constants : Array Value)
    (lo hi : Nat) (known expects : Depths → Prop) : Prop :=
  ∃ part : Depths, ∀ depths : Depths, (∀ p, lo ≤ p → p < hi → depths p = part p) →
    known depths ∧ (expects depths → ∀ p d, lo ≤ p → p < hi → depths p = some d →
      FitsAt exact surroundings code constants depths p d)

section Typed

variable {exact : Prop} {surroundings : Surroundings} {code : Code} {constants : Array Value}
  {lo mid hi : Nat} {known known' expects expects' : Depths → Prop}

/-- **Two parts in a row.** Their own maps are put side by side, and what they expect of others is
still open. -/
theorem Typed.seq (hlo : lo ≤ mid) (hhi : mid ≤ hi)
    (h : Typed exact surroundings code constants lo mid known expects)
    (h' : Typed exact surroundings code constants mid hi known' expects') :
    Typed exact surroundings code constants lo hi (fun depths => known depths ∧ known' depths)
      (fun depths => expects depths ∧ expects' depths) := by
  obtain ⟨part, hpart⟩ := h
  obtain ⟨part', hpart'⟩ := h'
  refine ⟨fun p => if p < mid then part p else part' p, fun depths hagree => ?_⟩
  obtain ⟨hknown, hfits⟩ := hpart depths fun p hp hp' =>
    (hagree p hp (by omega)).trans (if_pos hp')
  obtain ⟨hknown', hfits'⟩ := hpart' depths fun p hp hp' =>
    (hagree p (by omega) hp').trans (if_neg (by omega))
  refine ⟨⟨hknown, hknown'⟩, fun hexpects p d hp hp' hd => ?_⟩
  by_cases hmid : p < mid
  · exact hfits hexpects.1 p d hp hmid hd
  · exact hfits' hexpects.2 p d (by omega) hp' hd

/-- **What is known of a part may be used to meet what it expects.** This is the step that closes a
jump: once source and target are in one part, the target is known. -/
theorem Typed.mono (h : Typed exact surroundings code constants lo hi known expects)
    (hknown : ∀ depths, known depths → known' depths)
    (hexpects : ∀ depths, known depths → expects' depths → expects depths) :
    Typed exact surroundings code constants lo hi known' expects' := by
  obtain ⟨part, hpart⟩ := h
  refine ⟨part, fun depths hagree => ?_⟩
  obtain ⟨hk, hfits⟩ := hpart depths hagree
  exact ⟨hknown depths hk, fun he => hfits (hexpects depths hk he)⟩

/-- Code that is never reached. -/
theorem typed_unreached (lo hi : Nat) :
    Typed exact surroundings code constants lo hi (fun _ => True) (fun _ => True) := by
  refine ⟨fun _ => none, fun depths hagree => ⟨trivial, fun _ p d hp hp' hd => ?_⟩⟩
  rw [hagree p hp hp'] at hd
  exact absurd hd (by simp)

variable (exact surroundings constants expects) in
/-- A single instruction, which expects whatever makes it fit. -/
theorem OpAt.typed {op : Op} {operands : List Nat} {a b : Point} (d : Nat)
    (h : OpAt code op operands a b)
    (hfits : ∀ depths, expects depths →
      Fits exact surroundings constants depths a.position d op operands) :
    Typed exact surroundings code constants a.position b.position
      (fun depths => Leads exact depths a.position d) expects := by
  obtain ⟨hinstr, rfl⟩ := h
  refine ⟨fun p => if p = a.position then some d else none, fun depths hagree => ⟨?_, ?_⟩⟩
  · refine ⟨d, ?_, Nat.le_refl _, fun _ => rfl⟩
    exact (hagree a.position (Nat.le_refl _) (Nat.lt_add_of_pos_right op.size_pos)).trans
      (if_pos rfl)
  · intro hexpects p k hp hp' hk
    rw [hagree p hp hp'] at hk
    by_cases heq : p = a.position
    · subst heq
      obtain rfl : d = k := by simpa using hk
      exact ⟨op, operands, hinstr, hfits depths hexpects⟩
    · exact absurd hk (by simp [heq])

end Typed

end Scriptlet
