import Scriptlet.Proofs.Depth.Flow
import Scriptlet.Proofs.Layout.Compiled

/-!
# The depths of an executable

A whole code has a depth map (`Mapped`): it starts with no operands, and execution stays on mapped
positions. `DepthMaps` collects one for the top level of an executable and one for every function
that it makes closures of; every executable that the compiler makes has them (`exists_depthMaps`).

Here the parts are all there, and what is still expected of others is expected of the end of the
code. The top level is left by its end, so the end is mapped to no operands; a function is left by a
return, so its end is not mapped at all.
-/

namespace Scriptlet

/-- **A depth map of a whole code.** It starts without operands, has no positions outside of the
code, and the instruction at each of them fits. -/
structure Mapped (exact : Prop) (surroundings : Surroundings) (code : Code)
    (constants : Array Value) (depths : Depths) : Prop where
  start : depths 0 = some 0
  inside : ∀ p d, depths p = some d → p ≤ code.size
  fits : ∀ p d, p < code.size → depths p = some d →
    FitsAt exact surroundings code constants depths p d

/-- No operands are expected at the start of a code. -/
theorem Leads.eq_zero {exact : Prop} {depths : Depths} {p : Nat} (h : Leads exact depths p 0) :
    depths p = some 0 := by
  obtain ⟨k, hk, hle, -⟩ := h
  rw [hk, Nat.le_zero.mp hle]

/-- **The map of a part that is a whole code.** The positions in it are those of the part, and
`atEnd` is the depth of its end, if it has one. -/
theorem Typed.whole {exact : Prop} {surroundings : Surroundings} {code : Code}
    {constants : Array Value} {known expects : Depths → Prop} (atEnd : Option Nat)
    (h : Typed exact surroundings code constants 0 code.size known expects)
    (hstart : ∀ depths, depths code.size = atEnd → known depths → Leads exact depths 0 0)
    (hexpects : ∀ depths, depths code.size = atEnd → expects depths) :
    ∃ depths, Mapped exact surroundings code constants depths ∧ depths code.size = atEnd := by
  obtain ⟨part, hpart⟩ := h
  let depths : Depths := fun p =>
    if p < code.size then part p else if p = code.size then atEnd else none
  have hend : depths code.size = atEnd := by
    show (if code.size < code.size then _ else _) = _
    rw [if_neg (Nat.lt_irrefl _), if_pos rfl]
  obtain ⟨hknown, hfits⟩ := hpart depths fun p _ hp => if_pos hp
  refine ⟨depths, ⟨(hstart depths hend hknown).eq_zero, fun p d hd => ?_, fun p d hp hd =>
    hfits (hexpects depths hend) p d (Nat.zero_le p) hp hd⟩, hend⟩
  refine Nat.le_of_not_lt fun hlt => ?_
  have hnone : depths p = none := by
    show (if p < code.size then _ else _) = _
    rw [if_neg (by omega), if_neg (by omega)]
  rw [hnone] at hd
  cases hd

/-! ## Ends of codes

Whether the end of a code is reached is known from its last statement: one that returns diverts, so
that nothing has to be expected behind it. -/

mutual

/-- A statement whose code ends with a return diverts. -/
theorem Stmt.diverts_of_closing : (s : Stmt) → s.closing = .returned → s.diverts = true
  | .ret _, _ => rfl
  | .block body, h => Stmt.divertsAny_of_closing body h
  | .expr _, h | .bind _ _, h | .assign _ _, h | .loop _ _ _ _, h | .breakLoop, h
  | .continueLoop, h => by cases h

theorem Stmt.divertsAny_of_closing : (body : List Stmt) →
    Stmt.closingList body = .returned → Stmt.divertsAny body = true
  | [], h => by cases h
  | s :: rest, h => by
    rw [Stmt.closingList] at h
    rw [Stmt.divertsAny, Bool.or_eq_true]
    split at h
    · exact .inl (Stmt.diverts_of_closing s h)
    · exact .inr (Stmt.divertsAny_of_closing rest h)

end

section Whole

variable {exact : Prop} {surroundings : Surroundings} {code : Code} {constants : Array Value}

variable (surroundings) in
/-- Statements that end at the end of the code, with nothing behind them. -/
theorem StmtsAt.mapped {body : List Stmt} {symbols symbols' : Symbols} {first last : Nat}
    (haligned : exact → Stmt.alignedAll false false body = true)
    (hsite : Site surroundings none 0 ⟨0, symbols, first⟩ ⟨code.size, symbols', last⟩ 0 0 false
      false)
    (h : StmtsAt code constants none .drop 0 body ⟨0, symbols, first⟩ ⟨code.size, symbols', last⟩) :
    ∃ depths, Mapped exact surroundings code constants depths ∧ depths code.size = some 0 := by
  refine Typed.whole (some 0) (StmtsAt.typed body h (.inl rfl) hsite haligned)
    (fun depths hend hknown => ?_) fun depths hend => ⟨fun _ => ?_, fun e he => by cases he⟩
  · by_cases hclosing : Stmt.closingList body = .nothing
    · have hsize : code.size = 0 := StmtsAt.position_eq body hclosing h
      rw [hsize] at hend
      exact ⟨0, hend, Nat.le_refl 0, fun _ => rfl⟩
    · exact hknown hclosing
  · exact ⟨0, hend, Nat.le_refl 0, fun _ => rfl⟩

/-- **The code of a function, whose end is never reached.** By how its statements end: they return
by themselves, or their value is returned, or `null` is returned behind them. -/
theorem BodyAt.mapped {body : List Stmt} {symbols symbols' : Symbols} {first last : Nat}
    (haligned : exact → Stmt.alignedAll false false body = true)
    (hsite : Site surroundings none 0 ⟨0, symbols, first⟩ ⟨code.size, symbols', last⟩ 0 0 false
      false)
    (h : BodyAt code (Stmt.closingList body)
      (fun ending a b => StmtsAt code constants none ending 0 body a b)
      ⟨0, symbols, first⟩ ⟨code.size, symbols', last⟩) :
    ∃ depths, Mapped exact surroundings code constants depths ∧ depths code.size = none := by
  have hexits : ∀ depths, ExitsLead exact depths none 0 := fun _ e he => by cases he
  unfold BodyAt at h
  split at h
  · rename_i hclosing
    -- the value of the last statement is returned by the statement itself
    exact Typed.whole none (StmtsAt.typed body h (.inr hclosing) hsite haligned)
      (fun depths _ hknown => hknown (by rw [hclosing]; decide))
      fun depths _ => ⟨fun _ => trivial, hexits depths⟩
  · rename_i hclosing
    -- the last statement returns, so nothing comes out behind it
    have hdiverts := Stmt.divertsAny_of_closing body hclosing
    exact Typed.whole none (StmtsAt.typed body h (.inl rfl) hsite haligned)
      (fun depths _ hknown => hknown (by rw [hclosing]; decide))
      fun depths _ => ⟨fun hd => absurd (hdiverts.symm.trans hd) (by decide), hexits depths⟩
  -- `null` is returned behind the statements, if there are any
  · obtain ⟨m, hbody, hop⟩ := h
    have hreach := StmtsAt.reaches surroundings.builtins body hbody
    have hreturn := (hop.reaches surroundings.builtins).1
    have hnull := hop.typed exact surroundings constants (fun _ => True) 0 fun _ _ => trivial
    have htyped := StmtsAt.typed body hbody (.inl rfl)
      (hsite.part (.refl _ _) hreturn hsite.counted) haligned
    refine Typed.whole none ((htyped.seq hreach.position hreturn.position hnull).mono
      (fun _ hk => hk) fun depths hk (_ : True) => ⟨⟨fun _ => hk.2, hexits depths⟩, trivial⟩)
      (fun depths _ hknown => ?_) fun _ _ => trivial
    by_cases hclosing : Stmt.closingList body = .nothing
    · have hm : m.position = 0 := StmtsAt.position_eq body hclosing hbody
      have hlead := hknown.2
      rwa [hm] at hlead
    · exact hknown.1 hclosing

end Whole

/-! ## Executables

Functions are found among the constants, and each of them comes with its layout
(`FunctionCode.IsCompiled`), from which its map is made. The layout of the program gives that of the
top level. -/

/-- **The depths of the code that an executable runs.** The end of the top level is reached without
operands, the end of a function is not reached. -/
structure DepthMaps (exact : Prop) (builtins : Nat) (exe : Executable) where
  main : Depths
  inside : FunctionCode → Depths
  main_mapped : Mapped exact ⟨builtins, 0, 0⟩ exe.code exe.constants main
  main_end : main exe.code.size = some 0
  inside_mapped : ∀ fn : FunctionCode, fn.IsCompiled exact builtins exe.constants →
    Mapped exact ⟨builtins, fn.locals, fn.captures.length⟩ fn.code exe.constants (inside fn)
  inside_end : ∀ fn : FunctionCode, fn.IsCompiled exact builtins exe.constants →
    inside fn fn.code.size = none

/-- Every function has a depth map. -/
theorem FunctionCode.IsCompiled.mapped {exact : Prop} {builtins : Nat} {constants : Array Value}
    {fn : FunctionCode} (h : fn.IsCompiled exact builtins constants) :
    ∃ depths, Mapped exact ⟨builtins, fn.locals, fn.captures.length⟩ fn.code constants depths
      ∧ depths fn.code.size = none := by
  obtain ⟨params, body, around, inner, h⟩ := h
  obtain ⟨first, last, hlaid⟩ := h.laid
  refine BodyAt.mapped h.aligned ⟨fun e he => absurd he (by simp),
    ⟨h.locals_le, Nat.le_of_lt h.captures_lt⟩, ?_, fun _ => ?_, .outside 0 0 false false⟩ hlaid
  · exact (Symbols.defineAll_evolves builtins _ params).bounded
      (Symbols.bounded_enterFunction h.bounded)
  · have hcaptured := h.captured
    rw [Symbols.captured, Array.length_toList] at hcaptured
    exact ⟨Nat.le_of_eq h.slots.symm, Nat.le_of_eq hcaptured⟩

/-- **Every executable that the compiler makes has depth maps.** They are exact if the program is
aligned. -/
theorem exists_depthMaps (exact : Prop) {table : BuiltinTable} {prog : Program} {exe : Executable}
    (h : Compilation.program table prog = .ok exe) (haligned : exact → prog.aligned = true) :
    Nonempty (DepthMaps exact table.length exe) := by
  classical
  obtain ⟨symbols, -, houter, hlaid⟩ := Compilation.program_laid h
  have hbounded := Symbols.bounded_ofBuiltins (table.map Builtin.name)
  rw [List.length_map] at hbounded
  obtain ⟨main, hmain, hend⟩ := StmtsAt.mapped ⟨table.length, 0, 0⟩ haligned
    ⟨fun e he => absurd he (by simp), ⟨Nat.zero_le _, Nat.zero_le _⟩, hbounded,
      fun hne => absurd houter hne, .outside 0 0 false false⟩ hlaid
  refine ⟨⟨main, fun fn => if hfn : fn.IsCompiled exact table.length exe.constants then
    hfn.mapped.choose else fun _ => none, hmain, hend, fun fn hfn => ?_, fun fn hfn => ?_⟩⟩
  · rw [dif_pos hfn]
    exact hfn.mapped.choose_spec.1
  · rw [dif_pos hfn]
    exact hfn.mapped.choose_spec.2

end Scriptlet
