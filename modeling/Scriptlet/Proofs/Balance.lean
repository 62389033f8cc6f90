import Scriptlet.Proofs.Safety

/-!
# The stack is balanced

How many operands the running frame has is fixed by where it is in its code, if the program is
aligned: `run_balanced` gives the numbers for the top level and for every function. A completed call
leaves its result in the place of the callee and everything below as it was (`returns_eq`), and a
run that reaches the end of the top level has nothing left on the stack.

Not every program is aligned: behind a `for` whose last part is a `break` the compiler counts too
few operands, and a later `break` leaves one on the stack (`leaks_operand`).

The numbers are those of exact depth maps, so most of this is reading off the invariant of the
machine. What it does not say at once is what a completed call has done, since a call takes any
number of steps; that is an induction on the steps above the waiting frame.
-/

namespace Scriptlet.Machine

/-- A state that a run of an executable goes through. -/
def Visits (exe : Executable) (table : BuiltinTable) (host : Host) (m : Machine) : Prop :=
  ∃ fuel, run fuel (load exe table host) = (.running, m)

/-- The first state behind `m` in which no more frames wait than in `m`. If `m` is about to call a
function, then the call is completed there. -/
def Completes (m m' : Machine) : Prop :=
  ∃ fuel, run (fuel + 1) m = (.running, m') ∧ m'.callers.length = m.callers.length
    ∧ ∀ k m'', 0 < k → k ≤ fuel → run k m = (.running, m'') →
      m.callers.length < m''.callers.length

/-! ## Runs above a waiting frame

While a called function runs, the frame of its caller waits unchanged below it. A step may enter
further functions and leave them, and one step leaves the function itself. -/

/-- **The frames of a function called by `caller`**, and of those that it has called itself. -/
inductive Over (caller : Frame) (rest : List Frame) (start : Nat) :
    (base : Nat) → (callers : List Frame) → Prop where
  | here : Over caller rest start start (caller :: rest)
  | above {base : Nat} {frame : Frame} {callers : List Frame} (hlt : frame.base < base)
    (h : Over caller rest start frame.base callers) : Over caller rest start base (frame :: callers)

section Over

variable {caller : Frame} {rest callers : List Frame} {start base : Nat}

theorem Over.le (h : Over caller rest start base callers) : start ≤ base := by
  induction h with
  | here => exact Nat.le_refl _
  | above hlt _ ih => exact Nat.le_trans ih (Nat.le_of_lt hlt)

theorem Over.length_lt (h : Over caller rest start base callers) :
    rest.length < callers.length := by
  induction h with
  | here => exact Nat.lt_succ_self _
  | above _ _ ih => exact Nat.lt_succ_of_lt ih

/-- The frame of a caller goes on with the result of the function in the slot below `start`. -/
structure Returned (caller : Frame) (rest : List Frame) (start : Nat) (m m' : Machine) : Prop where
  frame : m'.frame = caller
  callers : m'.callers = rest
  top : m'.top = start
  below : ∀ i, i + 1 < start → m'.stack.read i = m.stack.read i

variable {exact : Prop} {table : BuiltinTable} {exe : Executable}
  {maps : DepthMaps exact table.length exe} {m m' : Machine}

/-- **A step inside of a called function stays inside or returns from it.** What lies below the
start of the function is not touched either way. -/
theorem Moves.over (hmoves : Moves m m') (h : Over caller rest start m.frame.base m.callers) :
    (Over caller rest start m'.frame.base m'.callers
      ∧ ∀ i, i + 1 < start → m'.stack.read i = m.stack.read i)
    ∨ Returned caller rest start m m' := by
  have hle := h.le
  cases hmoves with
  | stays hstays =>
    rw [hstays.base, hstays.callers]
    exact .inl ⟨h, fun i hi => hstays.below i (by omega)⟩
  | enters frame hcallers hframe hbase hstack =>
    rw [hcallers, hstack]
    refine .inl ⟨.above (by rw [hframe.1]; exact hbase) (by rw [hframe.1]; exact h), fun _ _ => rfl⟩
  | leaves callers hcallers hcallers' htop hbelow =>
    rw [hcallers] at h
    generalize m.frame.base = base at h hle htop hbelow
    cases h with
    | here => exact .inr ⟨rfl, hcallers', htop, hbelow⟩
    | above hlt h =>
      rw [hcallers']
      exact .inl ⟨h, fun i hi => hbelow i (by omega)⟩

variable (caller rest start) in
/-- **A run from inside of a called function**, up to the first state in which the caller goes on.
Induction on the fuel: all states before have more frames, so none of them has returned. -/
theorem returned_of_run {fuel : Nat} (hm : Sound maps m)
    (h : Over caller rest start m.frame.base m.callers) (hrun : run fuel m = (.running, m'))
    (hlength : m'.callers.length = rest.length)
    (hfirst : ∀ k m'', k < fuel → run k m = (.running, m'') →
      rest.length < m''.callers.length) : Returned caller rest start m m' := by
  induction fuel generalizing m with
  | zero =>
    cases hrun
    exact absurd hlength (Nat.ne_of_gt h.length_lt)
  | succ fuel ih =>
    have hstep := step_ends hm
    unfold run at hrun
    cases hresult : step m with
    | error stop m₁ =>
      rw [hresult] at hrun
      cases hrun
    | ok _ m₁ =>
      rw [hresult] at hstep hrun
      have hshift : ∀ k, run (k + 1) m = run k m₁ := fun k => by
        rw [run, hresult]
      rcases hstep.2.over h with ⟨hover, hbelow⟩ | hreturned
      · have hrest := ih hstep.1 hover hrun fun k m'' hk hk' =>
          hfirst (k + 1) m'' (Nat.succ_lt_succ hk) (by rwa [hshift])
        exact ⟨hrest.frame, hrest.callers, hrest.top, fun i hi =>
          (hrest.below i hi).trans (hbelow i hi)⟩
      · cases fuel with
        | zero =>
          cases hrun
          exact hreturned
        | succ fuel =>
          -- the run would have been over before
          have hlt := hfirst 1 m₁ (by omega) (hshift 0)
          rw [hreturned.callers] at hlt
          exact absurd hlt (Nat.lt_irrefl _)

end Over

/-! ## Completed calls

A closure is run to its return; a built-in function has its result in one step. What is left on the
stack is the same. -/

section Calls

variable {exact : Prop} {table : BuiltinTable} {exe : Executable}
  {maps : DepthMaps exact table.length exe} {m m' : Machine}

/-- A call enters a closure or gets the result of a built-in function at once. -/
theorem call_ok {count : Nat} (h : perform .call [count] m = .ok () m') :
    (∃ code cells, m' = m.entered code cells (m.top - count))
      ∨ ∃ host result, m' = ((m.withHost host).withTop (m.top - (count + 1))).pushed result := by
  obtain ⟨hcount, ⟨id, code, cells, -, henter⟩ | ⟨builtin, result, host, -, -, hputs⟩⟩ :=
    call_inv h
  · obtain ⟨-, rfl⟩ := enterClosure_inv (by omega) henter
    exact .inl ⟨code, cells, rfl⟩
  · obtain ⟨_, m₁, hset, hpush⟩ := bind_eq_ok hputs
    cases hset
    obtain ⟨-, rfl⟩ := push_inv hpush
    exact .inr ⟨host, result, rfl⟩

/-- The operand of a call that the machine is about to execute. -/
theorem Sound.call {count : Nat} (hm : Sound maps m) (hcount : count < Compilation.maxLocals)
    (hinstr : InstrAt m.frame.code.code m.frame.position .call [count]) :
    m.frame.base + m.frame.code.locals + (count + 1) ≤ m.top
      ∧ step m = perform .call [count] (m.advance Op.call.size) := by
  obtain ⟨d, hd, k, hk, hle, -⟩ := hm
  have hsize := hinstr.lt_size
  have hpos := Op.call.size_pos
  have htop := hd.top
  obtain ⟨op, operands, hinstr', hfits⟩ := hd.valid.code.fits (by omega) hk
  obtain rfl := hinstr'.op_eq hinstr
  match operands, hfits with
  | [count'], hfits =>
    have hmod : count' % 256 = count % 256 := hinstr'.operand_eq rfl hinstr
    have hlt : count' < Compilation.maxLocals := hfits.1
    have hneeds : count' + 1 ≤ k := hfits.2.1
    unfold Compilation.maxLocals at hcount hlt
    refine ⟨by omega, ?_⟩
    have hread : readBack Op.call.widths [count] = [count] := by
      show [count % 256] = [count]
      rw [Nat.mod_eq_of_lt hcount]
    rw [step_eq_perform hinstr, hread]

/-- **A completed call leaves its result in the place of the callee.** The frame goes on behind the
call, and all slots below are as they were. -/
theorem returns_eq {count : Nat} (hm : Sound maps m) (hcount : count < Compilation.maxLocals)
    (hinstr : InstrAt m.frame.code.code m.frame.position .call [count])
    (hcompletes : Completes m m') :
    Returned (m.advance Op.call.size).frame m.callers (m.top - count) m m' := by
  obtain ⟨hroom, hcall⟩ := hm.call hcount hinstr
  have hnext := step_ends hm
  obtain ⟨fuel, hrun, hlength, hfirst⟩ := hcompletes
  unfold run at hrun
  cases hstep : step m with
  | error stop m₁ =>
    rw [hstep] at hrun
    cases hrun
  | ok _ m₁ =>
    rw [hstep] at hrun hnext
    -- the run of the call begins with the call itself
    have hshift : ∀ k, run (k + 1) m = run k m₁ := fun k => by
      rw [run, hstep]
    rw [hcall] at hstep
    rcases call_ok hstep with ⟨code, cells, rfl⟩ | ⟨host, result, rfl⟩
    -- a closure was entered, and the run inside of it comes back here
    · have hreturned := returned_of_run (m.advance Op.call.size).frame m.callers
        (m.top - count) hnext.1 .here hrun hlength
        fun k m'' hk hk' => hfirst (k + 1) m'' (Nat.succ_pos k) hk (by rwa [hshift])
      exact ⟨hreturned.frame, hreturned.callers, hreturned.top, hreturned.below⟩
    -- a builtin function was called, and has returned at once
    · cases fuel with
      | zero =>
        cases hrun
        refine ⟨rfl, rfl, ?_, fun i hi => ?_⟩
        · show m.top - (count + 1) + 1 = m.top - count
          omega
        · show (m.stack.write (m.top - (count + 1)) result).read i = _
          rw [Memory.read_write, if_neg (by omega)]
      | succ fuel => exact absurd (hfirst 1 _ (by omega) (by omega) (hshift 0)) (Nat.lt_irrefl _)

end Calls

/-! ## Aligned programs

An aligned program has exact depth maps (`exists_depthMaps`), and these are the numbers. -/

/-- Numbers of operands, for the positions of the top level and for those of every function. -/
structure OperandCounts where
  main : Nat → Nat
  inside : FunctionCode → Nat → Nat

/-- The numbers of operands in the code of the running frame. -/
def OperandCounts.of (counts : OperandCounts) (m : Machine) : Nat → Nat :=
  match m.callers with
  | [] => counts.main
  | _ :: _ => counts.inside m.frame.code

/-- **A state whose stack is balanced.** -/
structure Balanced (exe : Executable) (counts : OperandCounts) (m : Machine) : Prop where
  /-- The frame of the top level has no locals and starts at the bottom of the stack. -/
  main : m.callers = [] → m.frame.code = ⟨exe.code, 0, 0, []⟩ ∧ m.frame.base = 0
  /-- The position fixes how far the stack is filled. -/
  top : m.top = m.frame.base + m.frame.code.locals + counts.of m m.frame.position
  /-- A jump back closes a loop: the next iteration starts, and the loop is left behind the jump,
  with as many operands as at the end of an iteration. -/
  loops : ∀ start, start ≤ m.frame.position → start ≤ Compilation.maxWord →
    InstrAt m.frame.code.code m.frame.position .jump [start] →
      counts.of m start = counts.of m m.frame.position
        ∧ counts.of m (m.frame.position + Op.jump.size) = counts.of m m.frame.position
  /-- Only the top level has an end that is reached, and there the stack is empty. -/
  finish : m.frame.code.code.size ≤ m.frame.position → m.callers = [] ∧ m.top = 0
  /-- A completed call replaces the callee and the arguments by the result. -/
  calls : ∀ count m', count < Compilation.maxLocals →
    InstrAt m.frame.code.code m.frame.position .call [count] → Completes m m' →
      m'.frame = (m.advance Op.call.size).frame ∧ m'.callers = m.callers
        ∧ m'.top + count = m.top ∧ 1 ≤ m'.top
        ∧ ∀ i, i + 1 < m'.top → m'.stack.read i = m.stack.read i

section Aligned

variable {table : BuiltinTable} {exe : Executable} {m : Machine}

/-- The numbers that a depth map gives; nothing depends on those of positions that are not
reached. -/
def OperandCounts.ofMaps (maps : DepthMaps True table.length exe) : OperandCounts where
  main p := (maps.main p).getD 0
  inside code p := (maps.inside code p).getD 0

theorem OperandCounts.of_ofMaps (maps : DepthMaps True table.length exe) {p d : Nat}
    (h : Leads True (maps.depths m.frame.code m.callers) p d) :
    (OperandCounts.ofMaps maps).of m p = d := by
  obtain ⟨k, hk, -, heq⟩ := h
  rw [heq trivial] at hk
  unfold OperandCounts.of
  cases hcallers : m.callers with
  | nil =>
    rw [hcallers] at hk
    exact congrArg (Option.getD · 0) hk
  | cons caller callers =>
    rw [hcallers] at hk
    exact congrArg (Option.getD · 0) hk

variable {maps : DepthMaps True table.length exe}

/-- A jump back that the machine is about to execute. -/
theorem Sound.loop {start d : Nat} (hd : Holds maps d m)
    (hlead : Leads True (maps.depths m.frame.code m.callers) m.frame.position d)
    (hback : start ≤ m.frame.position) (hstart : start ≤ Compilation.maxWord)
    (hinstr : InstrAt m.frame.code.code m.frame.position .jump [start]) :
    Leads True (maps.depths m.frame.code m.callers) start d
      ∧ Leads True (maps.depths m.frame.code m.callers) (m.frame.position + Op.jump.size) d := by
  obtain ⟨k, hk, -, heq⟩ := hlead
  rw [heq trivial] at hk
  have hsize := hinstr.lt_size
  have hpos := Op.jump.size_pos
  obtain ⟨op, operands, hinstr', hfits⟩ := hd.valid.code.fits (by omega) hk
  obtain rfl := hinstr'.op_eq hinstr
  match operands, hfits with
  | [target], hfits =>
    have hmod : target % 65536 = start % 65536 := hinstr'.operand_eq rfl hinstr
    have htarget : target ≤ Compilation.maxWord := hfits.1
    unfold Compilation.maxWord at hstart htarget
    obtain rfl : target = start := by omega
    exact ⟨hfits.2.1, hfits.2.2 hback⟩

/-- The end of a code that is reached is that of the top level. -/
theorem Holds.finish {d : Nat} (hd : Holds maps d m)
    (hlead : Leads True (maps.depths m.frame.code m.callers) m.frame.position d)
    (hend : m.frame.code.code.size ≤ m.frame.position) : m.callers = [] ∧ m.top = 0 := by
  obtain ⟨k, hk, -, heq⟩ := hlead
  have hcode := hd.valid.code
  have hbase := hd.waits
  have htop := hd.top
  cases hc : m.callers with
  | nil =>
    rw [hc] at hcode hbase hk
    have hk' : maps.main m.frame.position = some k := hk
    rw [show m.frame.code = ⟨exe.code, 0, 0, []⟩ from hcode] at hend htop
    -- the end of the top level is mapped to no operands
    have hsize := Nat.le_antisymm (maps.main_mapped.inside _ _ hk') hend
    rw [hsize, maps.main_end] at hk'
    obtain rfl : 0 = k := Option.some.inj hk'
    rw [← heq trivial, show m.frame.base = 0 from hbase] at htop
    exact ⟨rfl, htop⟩
  | cons caller callers =>
    rw [hc] at hcode hk
    have hk' : maps.inside m.frame.code m.frame.position = some k := hk
    -- the end of a function is never reached
    have hle := (maps.inside_mapped _ hcode).inside _ _ hk'
    have hnone := maps.inside_end _ hcode
    rw [Nat.le_antisymm hend hle, hk'] at hnone
    cases hnone

theorem Sound.balanced (h : Sound maps m) : Balanced exe (.ofMaps maps) m := by
  obtain ⟨d, hd, hlead⟩ := h
  have hcounts := OperandCounts.of_ofMaps maps hlead
  refine ⟨fun hcallers => ?_, by rw [hcounts, hd.top], fun start hback hstart hinstr => ?_,
    hd.finish hlead, fun count m' hcount hinstr hcompletes => ?_⟩
  · have hcode := hd.valid.code
    have hbase := hd.waits
    rw [hcallers] at hcode hbase
    exact ⟨hcode, hbase⟩
  · obtain ⟨hiterate, hleave⟩ := Sound.loop hd hlead hback hstart hinstr
    rw [hcounts, OperandCounts.of_ofMaps maps hiterate, OperandCounts.of_ofMaps maps hleave]
    exact ⟨rfl, rfl⟩
  · have hsound : Sound maps m := ⟨d, hd, hlead⟩
    have hreturned := returns_eq hsound hcount hinstr hcompletes
    obtain ⟨hroom, -⟩ := hsound.call hcount hinstr
    rw [hreturned.top]
    exact ⟨hreturned.frame, hreturned.callers, by omega, by omega, hreturned.below⟩

end Aligned

/-- **The stack of an aligned program is balanced** in every state of every run, with numbers that
do not depend on the run. -/
theorem run_balanced {table : BuiltinTable} {prog : Program} {exe : Executable}
    (h : Compilation.program table prog = .ok exe) (haligned : prog.aligned = true) :
    ∃ counts : OperandCounts, ∀ host m, Visits exe table host m → Balanced exe counts m := by
  obtain ⟨maps⟩ := exists_depthMaps True h fun _ => haligned
  refine ⟨.ofMaps maps, fun host m hvisits => ?_⟩
  obtain ⟨fuel, hrun⟩ := hvisits
  exact (sound_of_run maps hrun).balanced

/-- The runs of `let f = fn(x) { for (1; x; 2) { break } }; f(true)`. -/
theorem run_balanced_call :
    ∃ exe, Compilation.program []
        [.bind "f" (.fn ["x"] [.loop (.expr (.int 1)) (.ident "x") (.expr (.int 2)) [.breakLoop]]),
          .expr (.call (.ident "f") [.bool true])] = .ok exe
      ∧ ∃ counts, ∀ host m, Visits exe [] host m → Balanced exe counts m :=
  ⟨_, rfl, @run_balanced [] [.bind "f"
    (.fn ["x"] [.loop (.expr (.int 1)) (.ident "x") (.expr (.int 2)) [.breakLoop]]),
      .expr (.call (.ident "f") [.bool true])] _ rfl rfl⟩

/-- A run has come to the end of a code with something left on the stack. -/
def Leaks (result : Outcome × Machine) : Prop :=
  result.1 = .running ∧ result.2.frame.code.code.size ≤ result.2.frame.position
    ∧ result.2.top ≠ 0

instance (result : Outcome × Machine) : Decidable (Leaks result) := by
  unfold Leaks
  infer_instance

/-- The stack of a program with such a run is not balanced. Whether a run leaks is decided by
running it. -/
theorem not_balanced_of_leaks {table : BuiltinTable} {prog : Program} (host : Host) (fuel : Nat)
    (h : (Compilation.program table prog).toOption.any
      (fun exe => Leaks (run fuel (load exe table host))) = true) :
    ∃ exe, Compilation.program table prog = .ok exe
      ∧ ¬ ∃ counts, ∀ host m, Visits exe table host m → Balanced exe counts m := by
  obtain ⟨exe, hexe, hcheck⟩ := exists_compiled h
  obtain ⟨hrunning, hend, htop⟩ := of_decide_eq_true hcheck
  exact ⟨exe, hexe, fun ⟨counts, hbalanced⟩ =>
    htop ((hbalanced host _ ⟨fuel, Prod.ext hrunning rfl⟩).finish hend).2⟩

/-- The program `for (2; true; 3) { 4 + if (true) { for (5; false; break) { } break } }`. The inner
loop is left by its condition, but behind it the compiler does not count the operand `4`. -/
def leakyLoop : Program :=
  [.loop (.expr (.int 2)) (.bool true) (.expr (.int 3))
    [.expr (.infixOp (.int 4) .plus (.cond (.bool true)
      [.loop (.expr (.int 5)) (.bool false) .breakLoop [], .breakLoop] none))]]

/-- **A program that is not aligned.** The second `break` leaves an operand behind, and the run ends
with it on the stack. -/
theorem leaks_operand :
    ∃ exe, Compilation.program [] leakyLoop = .ok exe
      ∧ ¬ ∃ counts, ∀ host m, Visits exe [] host m → Balanced exe counts m :=
  not_balanced_of_leaks ⟨0, 0, ""⟩ 16 (by decide +kernel)

end Scriptlet.Machine
