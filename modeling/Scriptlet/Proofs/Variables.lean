import Scriptlet.Proofs.Safety
import Scriptlet.Proofs.Variables.Twins

/-!
# A captured variable is one cell

Reading a variable of a function gives the value that was written to it last, by the activation that
it belongs to or by any closure that has captured it, and no two variables ever share a cell
(`variable_is_cell`). The history of the variables runs along with the machine: `Twins.perform`
takes it through one instruction, and `HomesAt.next` through one step of a run.

What a variable is and what was written to it last are matters of the history alone, which has no
cells. The cells come in as an assignment: which variable has which. It is not fixed beforehand,
since a variable gets its cell when it is captured first, but once it has one it keeps it.
-/

namespace Scriptlet.Machine

section

variable {exact : Prop} {table : BuiltinTable} {exe : Executable}
  {maps : DepthMaps exact table.length exe} {home : Var → Option CellId} {h : History}
  {m m' : Machine} {d : Nat}

/-- The machine has no variables before its first step. -/
theorem tracked_load (exe : Executable) (table : BuiltinTable) (host : Host) :
    Tracked (fun _ => none) .start (load exe table host) where
  assigned :=
    ⟨fun _ _ _ hc => (nomatch hc), fun _ _ hc => (nomatch hc), fun _ _ hc => (nomatch hc),
      .cons ⟨fun _ => rfl, rfl⟩ .nil, by simp [History.start]⟩
  stored :=
    ⟨fun _ _ _ hc => (nomatch hc), .cons (fun _ hi => absurd hi (Nat.not_lt_zero _)) .nil⟩
  closures := closures_load exe table host _

/-! ## Reading variables

A history knows the last value of a variable, an assignment where it is kept, and `Stored` that it
is there. Reading gets it from the right place because the frame uses the cells of its variables. -/

/-- **The next instruction stands in the code and fits.** All machines with the same running frame
perform it. -/
theorem Sound.instr_eq (hs : Sound maps m) {op : Op} {operands : List Nat}
    (hinstruction : m.instruction? = some (op, operands)) :
    ∃ d operands', readBack op.widths operands' = operands ∧ Holds maps d m
      ∧ (∀ n : Machine, n.frame = m.frame →
        step n = Machine.perform op operands (n.advance op.size))
      ∧ Fits exact ⟨table.length, m.frame.code.locals, m.frame.code.captures.length⟩
        exe.constants (maps.depths m.frame.code m.callers) m.frame.position d op operands' := by
  obtain ⟨d, op', operands', hd, hinstr, hfits⟩ :=
    hs.instr (position_lt_of_instruction? hinstruction)
  obtain ⟨rfl, rfl⟩ : op' = op ∧ readBack op'.widths operands' = operands := by
    have heq := (instruction?_eq hinstr).symm.trans hinstruction
    cases heq
    exact ⟨rfl, rfl⟩
  exact ⟨d, operands', rfl, hd, fun n hframe => step_eq_perform (by rwa [hframe]), hfits⟩

/-- A local is read where it is kept. -/
theorem Stored.getLocal_eq (hs : Stored home h m) (ha : Assigned home h m) {index : Nat}
    {value : Value} (hindex : index < m.frame.code.locals)
    (hslot : m.frame.base + index < stackSize)
    (hlast : h.last ⟨h.running.number, index⟩ = some value) :
    getLocal index m = .ok value m := by
  have hhome := ha.running.cell index
  unfold getLocal
  rw [bind_ok get_eq]
  cases hkept : m.frame.cell? index with
  | some c => exact cell_eq (hs.cells _ c value (hhome.symm.trans hkept) hlast)
  | none =>
    rw [← hs.running index hindex (hhome.symm.trans hkept) value hlast]
    exact slot_eq hslot

/-- Both twins read the last value of a local that has been written. -/
theorem Twins.getLocal_eq (ht : Twins home h m m') (hs : Sound maps m) {index : Nat}
    {value : Value} (hinstruction : m.instruction? = some (.getLocal, [index]))
    (hlast : h.last ⟨h.running.number, index⟩ = some value) :
    Machine.step m' = push value (m'.advance Op.getLocal.size) := by
  obtain ⟨d, operands, hoperands, hd, hstep, hfits⟩ := hs.instr_eq hinstruction
  rw [readBack_of_fits hfits (by decide)] at hoperands
  subst hoperands
  have hframe := ht.alike.frame
  have hassigned : Assigned home h (m'.advance Op.getLocal.size) :=
    (ht.alike.assigned ht.tracked.assigned).congr rfl rfl rfl
  have hstored := ht.stored.keeps (ht.alike.waits hd) (.advance m' Op.getLocal.size)
  have hget := hstored.getLocal_eq hassigned
    (show index < m'.frame.code.locals by rw [hframe]; exact hfits.2.1)
    (show m'.frame.base + index < stackSize by rw [hframe]; exact hd.slot_lt hfits.2.1) hlast
  rw [hstep m' hframe]
  show (getLocal index >>= push) (m'.advance Op.getLocal.size) = _
  rw [bind_ok hget]

/-- Both twins read the last value of a captured variable that has been written. -/
theorem Twins.getFree_eq (ht : Twins home h m m') (hs : Sound maps m) {index : Nat}
    (hinstruction : m.instruction? = some (.getFree, [index])) :
    ∃ var, h.running.free[index]? = some var ∧ ∀ value, h.last var = some value →
      Machine.step m' = push value (m'.advance Op.getFree.size) := by
  obtain ⟨d, operands, hoperands, hd, hstep, hfits⟩ := hs.instr_eq hinstruction
  rw [readBack_of_fits hfits (by decide)] at hoperands
  subst hoperands
  have hframe := ht.alike.frame
  obtain ⟨c, hget, -⟩ := hd.freeCell_eq hfits.2.1
  obtain ⟨var, hvar, hhome⟩ := ht.tracked.assigned.free_home hget
  have hfree : freeCell index (m'.advance Op.getFree.size)
      = .ok c (m'.advance Op.getFree.size) := freeCell_eq (by rwa [← hframe] at hget)
  refine ⟨var, hvar, fun value hlast => ?_⟩
  have hcell : cell c (m'.advance Op.getFree.size) = .ok value (m'.advance Op.getFree.size) :=
    cell_eq (ht.stored.cells var c value hhome hlast)
  rw [hstep m' hframe]
  show (freeCell index >>= fun c => cell c >>= push) (m'.advance Op.getFree.size) = _
  rw [bind_ok hfree, bind_ok hcell]

theorem Tracked.getLocal_eq (ht : Tracked home h m) (hs : Sound maps m) {index : Nat}
    {value : Value} (hinstruction : m.instruction? = some (.getLocal, [index]))
    (hlast : h.last ⟨h.running.number, index⟩ = some value) :
    Machine.step m = push value (m.advance Op.getLocal.size) :=
  ht.twins.getLocal_eq hs hinstruction hlast

theorem Tracked.getFree_eq (ht : Tracked home h m) (hs : Sound maps m) {index : Nat}
    (hinstruction : m.instruction? = some (.getFree, [index])) :
    ∃ var, h.running.free[index]? = some var ∧ ∀ value, h.last var = some value →
      Machine.step m = push value (m.advance Op.getFree.size) :=
  ht.twins.getFree_eq hs hinstruction

/-! ## Whole runs

A step may give cells to variables that had none, and the cells that are given are those of an
assignment that extends the one before. So a run has a chain of assignments, one for the state
behind each number of steps (`homes`). They never disagree on a variable, and together they are one
assignment for the whole run (`limit`), in which no two variables share a cell since two of them
have their cells in some longer assignment of the chain already. -/

/-- **An assignment of cells to variables that fits the state of a run** behind so many steps. -/
structure HomesAt (maps : DepthMaps exact table.length exe) (host : Host) (n : Nat)
    (home : Var → Option CellId) : Prop where
  distinct : Distinct home
  tracked : ∀ m h, trace exe table host n = some (m, h) → Sound maps m ∧ Tracked home h m

theorem homesAt_zero (maps : DepthMaps exact table.length exe) (host : Host) :
    HomesAt maps host 0 fun _ => none where
  distinct _ _ _ hc := nomatch hc
  tracked m h htrace := by
    cases htrace
    exact ⟨sound_load maps host, tracked_load exe table host⟩

/-- One more step of the run, with an assignment that extends the one before. -/
theorem HomesAt.next {maps : DepthMaps exact table.length exe} {host : Host} {n : Nat}
    {home : Var → Option CellId} (hfits : HomesAt maps host n home) :
    ∃ home', Extends home home' ∧ HomesAt maps host (n + 1) home' := by
  cases htrace : trace exe table host (n + 1) with
  | none =>
    -- the run has stopped, and the assignment is the last one
    refine ⟨home, .refl home, hfits.distinct, fun m h hsome => ?_⟩
    rw [htrace] at hsome
    cases hsome
  | some state =>
    obtain ⟨m₀, h₀, hbefore, hstep, hafter : state.2 = h₀.after m₀.event⟩ := trace_succ htrace
    obtain ⟨hsound, ht⟩ := hfits.tracked m₀ h₀ hbefore
    obtain ⟨home', hext, ht'⟩ := ht.step hsound hstep
    have hends := step_ends hsound
    rw [hstep] at hends
    refine ⟨home', hext, ht'.assigned.distinct, fun m h hsome => ?_⟩
    obtain rfl := Option.some.inj (htrace.symm.trans hsome)
    obtain rfl : h = h₀.after m₀.event := hafter
    exact ⟨hends.1, ht'⟩

/-- **The assignments of cells to variables in a run**, each of which extends the one before. A step
only says that there is one, so they are chosen in turn. -/
noncomputable def homes (maps : DepthMaps exact table.length exe) (host : Host) :
    (n : Nat) → { home // HomesAt maps host n home }
  | 0 => ⟨fun _ => none, homesAt_zero maps host⟩
  | n + 1 => ⟨(homes maps host n).2.next.choose, (homes maps host n).2.next.choose_spec.2⟩

theorem homes_le (maps : DepthMaps exact table.length exe) (host : Host) {k n : Nat}
    (hkn : k ≤ n) : Extends (homes maps host k).1 (homes maps host n).1 := by
  induction hkn with
  | refl => exact .refl _
  | step _ ih => exact ih.trans (homes maps host _).2.next.choose_spec.1

open Classical in
/-- **The cell that a variable is given in some assignment of a chain.** Later assignments never
give it another one. -/
noncomputable def limit (homes : Nat → Var → Option CellId) (var : Var) : Option CellId :=
  if hcell : ∃ c n, homes n var = some c then some hcell.choose else none

theorem of_limit {homes : Nat → Var → Option CellId} {var : Var} {c : CellId}
    (hc : limit homes var = some c) : ∃ n, homes n var = some c := by
  unfold limit at hc
  split at hc
  · rename_i hcell
    rw [← Option.some.inj hc]
    exact hcell.choose_spec
  · cases hc

theorem extends_limit {homes : Nat → Var → Option CellId}
    (hle : ∀ {k n}, k ≤ n → Extends (homes k) (homes n)) (n : Nat) :
    Extends (homes n) (limit homes) := by
  intro var c hc
  have hcell : ∃ c n, homes n var = some c := ⟨c, n, hc⟩
  obtain ⟨k, hk⟩ := hcell.choose_spec
  -- both are cells of the variable in the longer of the two runs
  have hboth := (hle (Nat.le_max_left n k) _ _ hc).symm.trans (hle (Nat.le_max_right n k) _ _ hk)
  rw [limit, dif_pos hcell, Option.some.inj hboth]

theorem distinct_limit {homes : Nat → Var → Option CellId}
    (hle : ∀ {k n}, k ≤ n → Extends (homes k) (homes n)) (hdistinct : ∀ n, Distinct (homes n)) :
    Distinct (limit homes) := by
  intro var other c hvar hother
  obtain ⟨n, hn⟩ := of_limit hvar
  obtain ⟨k, hk⟩ := of_limit hother
  exact hdistinct (max n k) var other c (hle (Nat.le_max_left n k) _ _ hn)
    (hle (Nat.le_max_right n k) _ _ hk)

end

/-- The cells that a frame and its closure use are those of the variables that they stand for. -/
structure Housed (home : Var → Option CellId) (frame : Frame) (activation : Activation) :
    Prop where
  cell : ∀ i c, frame.cell? i = some c → home ⟨activation.number, i⟩ = some c
  free : frame.free.toList.map some = activation.free.map home

/-- All frames and all closures of a machine use the cells of the variables that they stand for. -/
structure Homes (home : Var → Option CellId) (h : History) (m : Machine) : Prop where
  frames : List.Forall₂ (Housed home) (m.frame :: m.callers) (h.running :: h.waiting)
  closures : m.Closures fun id _ cells => cells.toList.map some = (h.captured id).map home

/-- **The next instruction, if it reads a variable of a function that has been written, puts the
value on the stack that was written last.** -/
structure ReadsLast (h : History) (m : Machine) : Prop where
  getLocal : ∀ index value, m.instruction? = some (.getLocal, [index]) →
    h.last ⟨h.running.number, index⟩ = some value →
      step m = push value (m.advance Op.getLocal.size)
  getFree : ∀ index, m.instruction? = some (.getFree, [index]) →
    ∃ var, h.running.free[index]? = some var ∧ ∀ value, h.last var = some value →
      step m = push value (m.advance Op.getFree.size)

theorem Tracked.homes {home home' : Var → Option CellId} {h : History} {m : Machine}
    (ht : Tracked home h m) (hext : Extends home home') : Homes home' h m := by
  refine ⟨ht.assigned.frames.imp fun frame activation hf => ?_,
    ht.closures.mono fun _ _ _ hknown => hext.map_eq hknown.2⟩
  exact ⟨fun i c hc => hext _ c ((hf.cell i).symm.trans hc), hext.map_eq hf.free⟩

/-- **A captured variable is one cell for the whole run of a compiled program**, from its capture on
and beyond the return of its function: no other variable ever has the cell, and all frames and
closures agree on it. Whatever reads a variable reads the value that was written to it last, whoever
wrote it. Every state of a run has a history for which that holds. -/
theorem variable_is_cell {table : BuiltinTable} {prog : Program} {exe : Executable}
    (hcompiled : Compilation.program table prog = .ok exe) (host : Host) :
    (∀ steps m, run steps (load exe table host) = (.running, m) →
        ∃ h, trace exe table host steps = some (m, h))
      ∧ ∃ home : Var → Option CellId, Distinct home
        ∧ ∀ steps m h, trace exe table host steps = some (m, h) →
          Homes home h m ∧ ReadsLast h m := by
  obtain ⟨maps⟩ := exists_depthMaps False hcompiled False.elim
  have hle : ∀ {k n}, k ≤ n → Extends (homes maps host k).1 (homes maps host n).1 :=
    homes_le maps host
  refine ⟨fun steps m hrun => exists_trace steps hrun, limit fun n => (homes maps host n).1,
    distinct_limit hle fun n => (homes maps host n).2.distinct, fun steps m h htrace => ?_⟩
  obtain ⟨hs, ht⟩ := (homes maps host steps).2.tracked m h htrace
  exact ⟨ht.homes (extends_limit hle steps), fun _ _ => ht.getLocal_eq hs,
    fun _ => ht.getFree_eq hs⟩

/-- The program `let f = fn(x) { fn() { x } }; f(7)()`. -/
def returnedReader : Program :=
  [.bind "f" (.fn ["x"] [.expr (.fn [] [.expr (.ident "x")])]),
    .expr (.call (.call (.ident "f") [.int 7]) [])]

/-- The argument of the first call is read after its return. -/
theorem variable_is_cell_returned :
    ∃ exe m h, Compilation.program [] returnedReader = .ok exe
      ∧ trace exe [] ⟨0, 0, ""⟩ 8 = some (m, h) ∧ h.running.free = [⟨1, 0⟩]
      ∧ step m = push (.int 7) (m.advance Op.getFree.size) := by
  have hcheck : ((Compilation.program [] returnedReader).toOption.any fun exe =>
      (trace exe [] ⟨0, 0, ""⟩ 8).any fun s => s.1.instruction? == some (.getFree, [0])
        && s.2.running.free == [⟨1, 0⟩] && (s.2.last ⟨1, 0⟩).any (Value.int 7).same) = true := by
    decide +kernel
  obtain ⟨exe, hexe, hcheck⟩ := exists_compiled hcheck
  obtain ⟨⟨m, h⟩, htrace, hcheck⟩ := (Option.any_eq_true _ _).mp hcheck
  rw [Bool.and_eq_true, Bool.and_eq_true, beq_iff_eq, beq_iff_eq] at hcheck
  obtain ⟨⟨hinstruction, hfree⟩, hlast⟩ := hcheck
  obtain ⟨value, hlast, hvalue⟩ := (Option.any_eq_true _ _).mp hlast
  obtain rfl := Value.eq_of_same_int hvalue
  obtain ⟨-, home, -, hruns⟩ := variable_is_cell hexe ⟨0, 0, ""⟩
  refine ⟨exe, m, h, hexe, htrace, hfree, ?_⟩
  obtain ⟨var, hvar, hread⟩ := (hruns 8 m h htrace).2.getFree 0 hinstruction
  rw [hfree] at hvar
  obtain rfl : ⟨1, 0⟩ = var := Option.some.inj hvar
  exact hread _ hlast

end Scriptlet.Machine
