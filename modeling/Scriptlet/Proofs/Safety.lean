import Scriptlet.Proofs.Machine.Preservation

/-!
# Compiled programs run safely

The machine trusts the code that it runs: it takes operands, constants, cells and bytes for granted
and gets stuck where one is missing. Code of the compiler never gets it stuck, for any program and
any table of built-in functions (`run_safe`). The depth maps need not be exact for this: where the
compiler miscounts, more operands are on the stack than it knows of, never fewer.

The invariant holds before the first step (`sound_load`), every step keeps it or stops harmlessly
(`step_ends`), and so does every run (`run_sound`).
-/

namespace Scriptlet.Machine

section

variable {exact : Prop} {table : BuiltinTable} {exe : Executable}
  {maps : DepthMaps exact table.length exe} {m : Machine}

/-- There are no closures before the first step. -/
theorem closures_load (exe : Executable) (table : BuiltinTable) (host : Host)
    (ok : ClosureProperty) : (load exe table host).Closures ok := by
  refine ⟨fun i => ?_, fun i v hv => ?_, fun v hv => absurd hv (Array.not_mem_empty v)⟩
  · show ((⟨.null, #[]⟩ : Memory Value).read i).Closures ok
    rw [Memory.read, Array.getElem?_empty]
    trivial
  · have hread : (⟨none, #[]⟩ : Memory (Option Value)).read i = some v := hv
    rw [Memory.read, Array.getElem?_empty] at hread
    cases hread

/-- The machine meets the invariant before its first step. -/
theorem sound_load (maps : DepthMaps exact table.length exe) (host : Host) :
    Sound maps (load exe table host) := by
  refine ⟨0, ⟨rfl, rfl, closures_load exe table host _, rfl, ?_, ?_, rfl⟩,
    ⟨0, maps.main_mapped.start, Nat.le_refl 0, fun _ => rfl⟩⟩
  · exact ⟨Nat.zero_le _, (by decide : 0 + 1 ≤ maxFrames)⟩
  · exact ⟨rfl, rfl, fun cell hc => absurd hc (Array.not_mem_empty cell), fun entry he =>
      absurd he List.not_mem_nil⟩

/-- Outcomes that a program brings about itself. -/
def Outcome.Harmless : Outcome → Prop
  | .stopped stop => stop.Harmless
  | .running => True

/-- **A run keeps the invariant as long as it goes on, and stops harmlessly.** Induction on the
fuel. -/
theorem run_sound (fuel : Nat) (h : Sound maps m) :
    (run fuel m).1.Harmless ∧ (run fuel m).2.Bounded
      ∧ ((run fuel m).1 = .running → Sound maps (run fuel m).2) := by
  induction fuel generalizing m with
  | zero =>
    obtain ⟨d, hd, hlead⟩ := h
    exact ⟨trivial, hd.bounded, fun _ => ⟨d, hd, hlead⟩⟩
  | succ fuel ih =>
    have hstep := step_ends h
    unfold run
    cases hresult : step m with
    | ok _ m' =>
      rw [hresult] at hstep
      exact ih hstep.1
    | error stop m' =>
      rw [hresult] at hstep
      exact ⟨hstep.1, hstep.2, fun hrunning => by cases hrunning⟩

/-- The machine meets the invariant as long as a run goes on. -/
theorem sound_of_run (maps : DepthMaps exact table.length exe) {host : Host} {k : Nat}
    (h : run k (load exe table host) = (.running, m)) : Sound maps m := by
  have hsound := (run_sound k (sound_load maps host)).2.2 (by rw [h])
  rwa [h] at hsound

end

/-- A program whose executable passes a check is compiled. With it, what is computed about one
program becomes a statement about its executable. -/
theorem exists_compiled {table : BuiltinTable} {prog : Program} {check : Executable → Bool}
    (h : (Compilation.program table prog).toOption.any check = true) :
    ∃ exe, Compilation.program table prog = .ok exe ∧ check exe = true := by
  cases hexe : Compilation.program table prog with
  | error e =>
    rw [hexe] at h
    cases h
  | ok exe =>
    rw [hexe] at h
    exact ⟨exe, rfl, h⟩

/-- **A program that compiles never gets the machine stuck**, whatever it computes and however long
it runs. The stack and the frames stay within their limits, and no fault is about the code. -/
theorem run_safe {table : BuiltinTable} {prog : Program} {exe : Executable}
    (h : Compilation.program table prog = .ok exe) (host : Host) (fuel : Nat) :
    (run fuel (load exe table host)).1 ≠ .stopped .stuck
      ∧ (run fuel (load exe table host)).2.top ≤ stackSize
      ∧ (run fuel (load exe table host)).2.callers.length + 1 ≤ maxFrames
      ∧ ∀ fault, (run fuel (load exe table host)).1 = .stopped (.halted (.fault fault)) →
        (∀ byte, fault ≠ .unknownOp byte) ∧ (∀ index, fault ≠ .unknownBuiltin index)
          ∧ ∀ index, fault ≠ .notFunctionConstant index := by
  obtain ⟨maps⟩ := exists_depthMaps False h False.elim
  obtain ⟨hharmless, ⟨htop, hframes⟩, -⟩ := run_sound fuel (sound_load maps host)
  refine ⟨fun hstuck => ?_, htop, hframes, fun fault hfault => ?_⟩
  · rw [hstuck] at hharmless
    exact hharmless
  · rw [hfault] at hharmless
    refine ⟨?_, ?_, ?_⟩
    all_goals
      rintro i rfl
      exact hharmless trivial

/-- The runs of `let f = fn(x) { x + 1 }; f(2)`. -/
theorem run_safe_call :
    ∃ exe, Compilation.program []
        [.bind "f" (.fn ["x"] [.expr (.infixOp (.ident "x") .plus (.int 1))]),
          .expr (.call (.ident "f") [.int 2])] = .ok exe
      ∧ ∀ host fuel, (run fuel (load exe [] host)).1 ≠ .stopped .stuck := by
  refine ⟨_, rfl, fun host fuel => ?_⟩
  exact (@run_safe [] [.bind "f"
    (.fn ["x"] [.expr (.infixOp (.ident "x") .plus (.int 1))]),
      .expr (.call (.ident "f") [.int 2])] _ rfl host fuel).1

end Scriptlet.Machine
