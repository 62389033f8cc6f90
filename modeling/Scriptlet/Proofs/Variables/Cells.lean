import Mathlib.Data.List.Forall2
import Scriptlet.Proofs.Machine.Preservation
import Scriptlet.Proofs.Variables.History

/-!
# Where variables are kept

The machine keeps a variable of a function in a slot of the stack until a closure captures it, and
in a cell from then on. `Tracked` says that this is done consistently, for an assignment of cells to
variables and a history of what has been written to them. It has three parts, which the effects of
instructions are taken through one after the other:

* `Assigned`: every captured variable has a cell of its own, and the frames use the cells of the
  variables that they stand for;
* `Stored`: a variable that has been written has its last value where it is kept, in its cell or,
  as long as it has none, in the slot of its frame;
* the closures that the machine has are known: their cells are those of the variables that they have
  captured.

What can happen to variables keeps `Tracked`, and gives cells to more variables but never takes one
away (`Extends`). A new cell is one that no variable has, which is why variables stay apart.

`Stored` is a part of its own because it alone depends on what is in the slots and cells. Of two
machines that differ there, both can have the variables of one history stored, although only one of
them has nothing but known closures in its slots (`Scriptlet.Proofs.Variables`).
-/

namespace Scriptlet.Machine

/-- No two variables share a cell. -/
def Distinct (home : Var → Option CellId) : Prop :=
  ∀ var other c, home var = some c → home other = some c → var = other

/-- More variables have cells. -/
def Extends (home home' : Var → Option CellId) : Prop :=
  ∀ var c, home var = some c → home' var = some c

theorem Extends.refl (home : Var → Option CellId) : Extends home home :=
  fun _ _ h => h

theorem Extends.trans {home home' home'' : Var → Option CellId} (h : Extends home home')
    (h' : Extends home' home'') : Extends home home'' :=
  fun var c hc => h' var c (h var c hc)

/-- Variables that all have cells keep them. -/
theorem Extends.map_eq {home home' : Var → Option CellId} (h : Extends home home')
    {cells : List CellId} {vars : List Var} (hcells : cells.map some = vars.map home) :
    cells.map some = vars.map home' := by
  induction vars generalizing cells with
  | nil => exact hcells
  | cons var vars ih =>
    cases cells with
    | nil => cases hcells
    | cons c cells =>
      obtain ⟨hc, hrest⟩ := List.cons.inj hcells
      rw [List.map_cons, List.map_cons, h var c hc.symm, ih hrest]

/-- A variable is given a cell. -/
def give (home : Var → Option CellId) (var : Var) (c : CellId) : Var → Option CellId :=
  fun other => if other = var then some c else home other

theorem give_self (home : Var → Option CellId) (var : Var) (c : CellId) :
    give home var c var = some c :=
  if_pos rfl

theorem give_ne (home : Var → Option CellId) (c : CellId) {var other : Var} (hne : other ≠ var) :
    give home var c other = home other :=
  if_neg hne

theorem extends_give {home : Var → Option CellId} {var : Var} (hnone : home var = none)
    (c : CellId) : Extends home (give home var c) := by
  intro other c' hc'
  rw [give_ne, hc']
  rintro rfl
  rw [hnone] at hc'
  cases hc'

/-! ## Frames

What a frame has to do with an activation: the cells of its variables, and the values of those that
have none. Frames that wait keep both, since what happens meanwhile is above them on the stack or
concerns other variables. -/

/-- A frame that uses the cells of its variables. -/
structure Follows (home : Var → Option CellId) (frame : Frame) (activation : Activation) :
    Prop where
  cell : ∀ i, frame.cell? i = home ⟨activation.number, i⟩
  free : frame.free.toList.map some = activation.free.map home

/-- A frame whose variables, as long as they have no cells, are in its slots. -/
def InSlots (home : Var → Option CellId) (last : Var → Option Value) (stack : Memory Value)
    (frame : Frame) (activation : Activation) : Prop :=
  ∀ i < frame.code.locals, home ⟨activation.number, i⟩ = none →
    ∀ v, last ⟨activation.number, i⟩ = some v → stack.read (frame.base + i) = v

section Frames

variable {home home' : Var → Option CellId} {last last' : Var → Option Value}
  {stack stack' : Memory Value} {frames : List Frame} {activations : List Activation}

/-- Other variables get cells. -/
theorem Follows.extend {frame : Frame} {activation : Activation}
    (h : Follows home frame activation) (hext : Extends home home')
    (hhome : ∀ i, home' ⟨activation.number, i⟩ = home ⟨activation.number, i⟩) :
    Follows home' frame activation :=
  ⟨fun i => (h.cell i).trans (hhome i).symm, hext.map_eq h.free⟩

theorem follows_extend (h : List.Forall₂ (Follows home) frames activations)
    (hext : Extends home home') (hhome : ∀ activation ∈ activations, ∀ i,
      home' ⟨activation.number, i⟩ = home ⟨activation.number, i⟩) :
    List.Forall₂ (Follows home') frames activations := by
  induction h with
  | nil => exact .nil
  | cons hfollows _ ih =>
    exact .cons (hfollows.extend hext (hhome _ List.mem_cons_self))
      (ih fun a ha => hhome a (List.mem_cons_of_mem _ ha))

/-- A frame whose own variables stay as they are. -/
theorem InSlots.agree {frame : Frame} {activation : Activation}
    (h : InSlots home last stack frame activation) (hext : Extends home home')
    (hlast : ∀ i, home ⟨activation.number, i⟩ = none →
      last' ⟨activation.number, i⟩ = last ⟨activation.number, i⟩)
    (hstack : ∀ i < frame.base + frame.code.locals, stack'.read i = stack.read i) :
    InSlots home' last' stack' frame activation := by
  intro i hi hnone v hv
  have hnone' : home ⟨activation.number, i⟩ = none := by
    cases hhome : home ⟨activation.number, i⟩ with
    | none => rfl
    | some c => exact nomatch (hext _ c hhome).symm.trans hnone
  rw [hlast i hnone'] at hv
  rw [hstack _ (by omega)]
  exact h i hi hnone' v hv

variable {exact : Prop} {builtins : Nat} {exe : Executable} {maps : DepthMaps exact builtins exe}

/-- Frames that wait, under changes to the variables of others and to the stack above them. -/
theorem Waits.inSlots {cells base : Nat} (hwaits : Waits maps cells base frames)
    (h : List.Forall₂ (InSlots home last stack) frames activations) (hext : Extends home home')
    (hlast : ∀ activation ∈ activations, ∀ i, home ⟨activation.number, i⟩ = none →
      last' ⟨activation.number, i⟩ = last ⟨activation.number, i⟩)
    (hstack : ∀ i < base, stack'.read i = stack.read i) :
    List.Forall₂ (InSlots home' last' stack') frames activations := by
  induction h generalizing base with
  | nil => exact .nil
  | cons hslots _ ih =>
    obtain ⟨-, hbase, -, hwaits⟩ := hwaits
    refine .cons (hslots.agree hext (hlast _ List.mem_cons_self) fun i hi =>
      hstack i (by omega)) ?_
    exact ih hwaits (fun a ha => hlast a (List.mem_cons_of_mem _ ha)) fun i hi =>
      hstack i (by omega)

end Frames

/-! ## Assignments

Nothing of what is said here depends on values, so it holds of any two machines with the same frames
and as many cells. -/

/-- **An assignment of cells to variables** that a machine keeps to. Two variables never share a
cell, and every frame uses the cells of its own variables and of those that its closure has
captured. -/
structure Assigned (home : Var → Option CellId) (h : History) (m : Machine) : Prop where
  distinct : Distinct home
  inside : ∀ var c, home var = some c → c < m.cells.size
  started : ∀ var c, home var = some c → var.activation < h.started
  frames : List.Forall₂ (Follows home) (m.frame :: m.callers) (h.running :: h.waiting)
  /-- Inner activations have started later. -/
  order : (h.started :: (h.running :: h.waiting).map Activation.number).Pairwise (· > ·)

namespace Assigned

variable {home : Var → Option CellId} {h : History} {m m' : Machine}

theorem running (ha : Assigned home h m) : Follows home m.frame h.running :=
  (List.forall₂_cons.mp ha.frames).1

theorem waiting (ha : Assigned home h m) : List.Forall₂ (Follows home) m.callers h.waiting :=
  (List.forall₂_cons.mp ha.frames).2

/-- No other activation has the number of the running one. -/
theorem number_ne (ha : Assigned home h m) {activation : Activation}
    (hwaiting : activation ∈ h.waiting) : activation.number ≠ h.running.number := by
  have horder := (List.pairwise_cons.mp ha.order).2
  exact Nat.ne_of_lt ((List.pairwise_cons.mp horder).1 _ (List.mem_map_of_mem hwaiting))

theorem number_lt (ha : Assigned home h m) {activation : Activation}
    (hactivation : activation ∈ h.running :: h.waiting) : activation.number < h.started :=
  (List.pairwise_cons.mp ha.order).1 _ (List.mem_map_of_mem hactivation)

/-- Nothing is known of an activation that has not started. -/
theorem home_new (ha : Assigned home h m) (i : Nat) : home ⟨h.started, i⟩ = none := by
  cases hhome : home ⟨h.started, i⟩ with
  | none => rfl
  | some c => exact absurd (ha.started _ c hhome) (Nat.lt_irrefl _)

/-- A variable that the running closure has captured. -/
theorem free_home (ha : Assigned home h m) {index : Nat} {c : CellId}
    (hfree : m.frame.free[index]? = some c) :
    ∃ var, h.running.free[index]? = some var ∧ home var = some c := by
  have hmap := congrArg (fun l => l[index]?) ha.running.free
  simp only [List.getElem?_map, Array.getElem?_toList, hfree, Option.map_some] at hmap
  obtain ⟨var, hvar, hhome⟩ := Option.map_eq_some_iff.mp hmap.symm
  exact ⟨var, hvar, hhome⟩

/-- A variable of the running function that has a cell already. -/
theorem var_home (ha : Assigned home h m) {capture : Capture} {c : CellId}
    (hcell : m.frame.cellOf? capture = some c) :
    ∃ var, h.running.var? capture = some var ∧ home var = some c := by
  cases capture with
  | slot index => exact ⟨_, rfl, (ha.running.cell index).symm.trans hcell⟩
  | free index => exact ha.free_home hcell

/-- The stack, the values in the cells and the place in the code do not matter. -/
theorem congr (ha : Assigned home h m)
    (hframe : m'.frame = { m.frame with position := m'.frame.position })
    (hcallers : m'.callers = m.callers) (hcells : m'.cells.size = m.cells.size) :
    Assigned home h m' := by
  refine ⟨ha.distinct, fun var c hc => ?_, ha.started, ?_, ha.order⟩
  · rw [hcells]
    exact ha.inside var c hc
  · rw [hframe, hcallers]
    exact .cons ⟨ha.running.cell, ha.running.free⟩ ha.waiting

/-- What has been written to variables does not matter. -/
theorem write (ha : Assigned home h m) (var : Var) (value : Value) :
    Assigned home (h.write var value) m :=
  ⟨ha.distinct, ha.inside, ha.started, ha.frames, ha.order⟩

/-- A closure is called. -/
theorem entered (ha : Assigned home h m) {id : Identity} {code : FunctionCode}
    {cells : Array CellId} {base : Nat} {args : List Value}
    (hcells : cells.toList.map some = (h.captured id).map home) :
    Assigned home (h.after (.enters id args)) (m.entered code cells base) where
  distinct := ha.distinct
  inside := ha.inside
  started var c hc := Nat.lt_succ_of_lt (ha.started var c hc)
  frames := .cons ⟨fun i => (ha.home_new i).symm, hcells⟩ ha.frames
  order := by
    refine List.pairwise_cons.mpr ⟨fun n hn => ?_, ha.order⟩
    rcases List.mem_cons.mp hn with rfl | hn
    · exact Nat.lt_succ_self _
    · exact Nat.lt_succ_of_lt ((List.pairwise_cons.mp ha.order).1 n hn)

/-- A function that returns has been called by another activation. -/
theorem exists_waiting (ha : Assigned home h m) {caller : Frame} {callers : List Frame}
    (hcallers : m.callers = caller :: callers) :
    ∃ activation rest, h.waiting = activation :: rest
      ∧ h.after .leaves = { h with running := activation, waiting := rest } := by
  have hwaiting := ha.waiting
  rw [hcallers] at hwaiting
  cases hrest : h.waiting with
  | nil =>
    rw [hrest] at hwaiting
    cases hwaiting
  | cons activation rest => exact ⟨activation, rest, rfl, by simp only [History.after, hrest]⟩

/-- The running function returns to the one that called it. -/
theorem left (ha : Assigned home h m) {caller : Frame} {callers : List Frame}
    (hcallers : m.callers = caller :: callers) (result : Value) :
    Assigned home (h.after .leaves) (m.left caller callers result) := by
  obtain ⟨activation, rest, hrest, hafter⟩ := ha.exists_waiting hcallers
  have hwaiting := ha.waiting
  have horder := ha.order
  rw [hcallers, hrest] at hwaiting
  rw [hrest] at horder
  rw [hafter]
  exact ⟨ha.distinct, ha.inside, ha.started, hwaiting,
    horder.sublist ((List.sublist_cons_self _ _).cons_cons _)⟩

/-- A variable of the running function moves into a new cell. -/
theorem moved (ha : Assigned home h m) {index : Nat}
    (hhome : home ⟨h.running.number, index⟩ = none) :
    Assigned (give home ⟨h.running.number, index⟩ m.cells.size) h (m.moved index) := by
  have hext := extends_give hhome m.cells.size
  have hsize : (m.moved index).cells.size = m.cells.size + 1 := Array.size_push _
  -- what has the new cell is the variable that moves
  have hmoving : ∀ var, give home ⟨h.running.number, index⟩ m.cells.size var = some m.cells.size →
      var = ⟨h.running.number, index⟩ := by
    intro var hvar
    by_contra hne
    rw [give_ne _ _ hne] at hvar
    exact Nat.lt_irrefl _ (ha.inside var _ hvar)
  have hold : ∀ var c, give home ⟨h.running.number, index⟩ m.cells.size var = some c →
      c ≠ m.cells.size → home var = some c := by
    intro var c hc hne
    rwa [give_ne] at hc
    rintro rfl
    rw [give_self] at hc
    exact hne (Option.some.inj hc).symm
  -- distinct, inside, started and the frames in turn: only the variable that moves has anything new
  refine ⟨fun var other c hvar hother => ?_, fun var c hc => ?_, fun var c hc => ?_,
    .cons ⟨fun i => ?_, hext.map_eq ha.running.free⟩ ?_, ha.order⟩
  · by_cases heq : c = m.cells.size
    · subst heq
      exact (hmoving var hvar).trans (hmoving other hother).symm
    · exact ha.distinct var other c (hold var c hvar heq) (hold other c hother heq)
  · rw [hsize]
    by_cases heq : c = m.cells.size
    · rw [heq]
      exact Nat.lt_succ_self _
    · exact Nat.lt_succ_of_lt (ha.inside var c (hold var c hc heq))
  · by_cases heq : c = m.cells.size
    · subst heq
      rw [hmoving var hc]
      exact ha.number_lt List.mem_cons_self
    · exact ha.started var c (hold var c hc heq)
  · show ((index, m.cells.size) :: m.frame.captured).lookup i = _
    rw [List.lookup_cons]
    by_cases hi : i = index
    · rw [hi, beq_self_eq_true, give_self]
    · rw [beq_false_of_ne hi, give_ne _ _ fun hvar => hi (Var.mk.inj hvar).2]
      exact ha.running.cell i
  · exact follows_extend ha.waiting hext fun a hactivation i =>
      give_ne _ _ fun hvar => ha.number_ne hactivation (Var.mk.inj hvar).1

end Assigned

/-! ## Values

Where a variable is kept decides which writes reach it. A write to a cell reaches the one variable
that has the cell, as no two have the same; a write to a slot reaches one of the running
function. -/

/-- **Stored variables.** Every variable that has been written has its last value in its cell, or
in the slot of its frame while it has none. -/
structure Stored (home : Var → Option CellId) (h : History) (m : Machine) : Prop where
  cells : ∀ var c v, home var = some c → h.last var = some v → m.cells[c]? = some v
  frames : List.Forall₂ (InSlots home h.last m.stack) (m.frame :: m.callers)
    (h.running :: h.waiting)

namespace Stored

variable {exact : Prop} {builtins : Nat} {exe : Executable} {maps : DepthMaps exact builtins exe}
  {home : Var → Option CellId} {h : History} {m m' : Machine} {k : Nat}

theorem running (hs : Stored home h m) : InSlots home h.last m.stack m.frame h.running :=
  (List.forall₂_cons.mp hs.frames).1

theorem waiting (hs : Stored home h m) :
    List.Forall₂ (InSlots home h.last m.stack) m.callers h.waiting :=
  (List.forall₂_cons.mp hs.frames).2

/-- A step that leaves the variables alone. -/
theorem keeps (hs : Stored home h m) (hwaits : Waits maps k m.frame.base m.callers)
    (hkeeps : Keeps m m') : Stored home h m' := by
  have hrunning : InSlots home h.last m'.stack m.frame h.running :=
    hs.running.agree (.refl home) (fun _ _ => rfl) hkeeps.slots
  refine ⟨fun var c v hc hv => ?_, ?_⟩
  · rw [hkeeps.cells]
    exact hs.cells var c v hc hv
  · rw [hkeeps.frame, hkeeps.callers]
    exact .cons hrunning (hwaits.inSlots hs.waiting (.refl home) (fun _ _ _ _ => rfl) fun i hi =>
      hkeeps.slots i (by omega))

/-- A value is put on the stack, above all locals. -/
theorem pushed (hs : Stored home h m) (hwaits : Waits maps k m.frame.base m.callers)
    (hroom : m.frame.base + m.frame.code.locals ≤ m.top) (value : Value) :
    Stored home h (m.pushed value) := by
  have hstack : ∀ i < m.frame.base + m.frame.code.locals,
      (m.pushed value).stack.read i = m.stack.read i := by
    intro i hi
    show (m.stack.write m.top value).read i = _
    rw [Memory.read_write, if_neg (by omega)]
  refine ⟨hs.cells, .cons ?_ ?_⟩
  · exact hs.running.agree (.refl home) (fun _ _ => rfl) hstack
  · exact hwaits.inSlots hs.waiting (.refl home) (fun _ _ _ _ => rfl) fun i hi =>
      hstack i (by omega)

/-- A variable with a cell is written. -/
theorem writeCell (hs : Stored home h m) (ha : Assigned home h m)
    (hwaits : Waits maps k m.frame.base m.callers) {var : Var} {c : CellId}
    (hhome : home var = some c) (value : Value) :
    Stored home (h.write var value) { m with cells := m.cells.setIfInBounds c value } := by
  -- a variable without a cell is another one
  have hlast : ∀ other, home other = none → (h.write var value).last other = h.last other := by
    intro other hnone
    exact if_neg fun heq => by
      rw [heq, hhome] at hnone
      cases hnone
  refine ⟨fun other c' v hc' hv => ?_, .cons ?_ ?_⟩
  · show (m.cells.setIfInBounds c value)[c']? = some v
    have hwritten : (if other = var then some value else h.last other) = some v := hv
    split at hwritten
    · rename_i heq
      subst heq
      obtain rfl : c = c' := Option.some.inj (hhome.symm.trans hc')
      rw [Array.getElem?_setIfInBounds_self_of_lt (ha.inside _ c hhome)]
      exact hwritten
    · rename_i hne
      have hcells : c ≠ c' := fun heq => hne (ha.distinct other var c' hc' (heq ▸ hhome))
      rw [Array.getElem?_setIfInBounds_ne hcells]
      exact hs.cells other c' v hc' hwritten
  · exact hs.running.agree (.refl home) (fun _ hnone => hlast _ hnone) fun _ _ => rfl
  · exact hwaits.inSlots hs.waiting (.refl home) (fun _ _ _ hnone => hlast _ hnone) fun _ _ => rfl

/-- A variable of the running function that is not captured is written. -/
theorem writeSlot (hs : Stored home h m) (ha : Assigned home h m)
    (hwaits : Waits maps k m.frame.base m.callers) {index : Nat}
    (hhome : home ⟨h.running.number, index⟩ = none) (value : Value) :
    Stored home (h.write ⟨h.running.number, index⟩ value)
      { m with stack := m.stack.write (m.frame.base + index) value } := by
  refine ⟨fun other c v hc hv => ?_, .cons (fun i hi hnone v hv => ?_) ?_⟩
  · have hwritten : (if other = ⟨h.running.number, index⟩ then some value else h.last other)
        = some v := hv
    split at hwritten
    · rename_i heq
      rw [heq, hhome] at hc
      cases hc
    · exact hs.cells other c v hc hwritten
  · show (m.stack.write (m.frame.base + index) value).read (m.frame.base + i) = v
    have hwritten : (if (⟨h.running.number, i⟩ : Var) = ⟨h.running.number, index⟩ then some value
        else h.last ⟨h.running.number, i⟩) = some v := hv
    rw [Memory.read_write]
    by_cases heq : i = index
    · subst heq
      rw [if_pos rfl] at hwritten ⊢
      exact Option.some.inj hwritten
    · rw [if_neg fun hvar => heq (Var.mk.inj hvar).2] at hwritten
      rw [if_neg fun hslot => heq (Nat.add_left_cancel hslot)]
      exact hs.running i hi hnone v hwritten
  · refine hwaits.inSlots hs.waiting (.refl home) (fun activation hactivation i _ => ?_)
      fun i hi => ?_
    · exact if_neg fun hvar => ha.number_ne hactivation (Var.mk.inj hvar).1
    · show (m.stack.write (m.frame.base + index) value).read i = _
      rw [Memory.read_write, if_neg (by omega)]

theorem withLocal (hs : Stored home h m) (ha : Assigned home h m)
    (hwaits : Waits maps k m.frame.base m.callers) (index : Nat) (value : Value) :
    Stored home (h.write ⟨h.running.number, index⟩ value) (m.withLocal index value) := by
  have hcell := ha.running.cell index
  unfold Machine.withLocal
  cases hhome : m.frame.cell? index with
  | some c => exact hs.writeCell ha hwaits (hcell.symm.trans hhome) value
  | none => exact hs.writeSlot ha hwaits (hcell.symm.trans hhome) value

/-- A closure is called on the values on top of the stack. -/
theorem entered (hs : Stored home h m) (ha : Assigned home h m)
    (hwaits : Waits maps k m.frame.base m.callers) (id : Identity) (code : FunctionCode)
    (cells : Array CellId) (count : Nat) :
    Stored home (h.after (.enters id (m.slots (m.top - count))))
      (m.entered code cells (m.top - count)) := by
  -- a variable of an activation that has started is not an argument
  have hlast : ∀ var : Var, var.activation < h.started →
      (h.after (.enters id (m.slots (m.top - count)))).last var = h.last var :=
    fun var hlt => if_neg (Nat.ne_of_lt hlt)
  refine ⟨fun var c v hc hv => ?_, .cons (fun i hi _ v hv => ?_) (.cons ?_ ?_)⟩
  · rw [hlast var (ha.started var c hc)] at hv
    exact hs.cells var c v hc hv
  · have harg : (if h.started = h.started then (m.slots (m.top - count))[i]?
        else h.last ⟨h.started, i⟩) = some v := hv
    rw [if_pos rfl, slots, List.getElem?_map] at harg
    obtain ⟨j, hj, hread⟩ := Option.map_eq_some_iff.mp harg
    obtain ⟨_, rfl⟩ := List.getElem?_eq_some_iff.mp hj
    rw [List.getElem_range] at hread
    exact hread
  · exact hs.running.agree (.refl home) (fun i _ => hlast _ (ha.number_lt List.mem_cons_self))
      fun _ _ => rfl
  · exact hwaits.inSlots hs.waiting (.refl home)
      (fun a hactivation i _ => hlast _ (ha.number_lt (List.mem_cons_of_mem _ hactivation)))
      fun _ _ => rfl

/-- The running function returns to the one that called it. -/
theorem left (hs : Stored home h m) (ha : Assigned home h m)
    (hwaits : Waits maps k m.frame.base m.callers) {caller : Frame} {callers : List Frame}
    (hcallers : m.callers = caller :: callers) (result : Value) :
    Stored home (h.after .leaves) (m.left caller callers result) := by
  obtain ⟨activation, rest, hrest, hafter⟩ := ha.exists_waiting hcallers
  have hwaiting := hs.waiting
  rw [hcallers, hrest] at hwaiting
  rw [hcallers] at hwaits
  obtain ⟨hrunning, hwaiting⟩ := List.forall₂_cons.mp hwaiting
  obtain ⟨-, hbase, -, hwaits⟩ := hwaits
  have hstack : ∀ i < caller.base + caller.code.locals,
      (m.left caller callers result).stack.read i = m.stack.read i := by
    intro i hi
    show (m.stack.write (m.frame.base - 1) result).read i = _
    rw [Memory.read_write, if_neg (by omega)]
  rw [hafter]
  refine ⟨hs.cells, .cons ?_ ?_⟩
  · exact hrunning.agree (.refl home) (fun _ _ => rfl) hstack
  · exact hwaits.inSlots hwaiting (.refl home) (fun _ _ _ _ => rfl) fun i hi =>
      hstack i (by omega)

/-- A variable of the running function moves into a new cell. -/
theorem moved (hs : Stored home h m) (ha : Assigned home h m)
    (hwaits : Waits maps k m.frame.base m.callers) {index : Nat}
    (hindex : index < m.frame.code.locals) (hhome : home ⟨h.running.number, index⟩ = none) :
    Stored (give home ⟨h.running.number, index⟩ m.cells.size) h (m.moved index) := by
  have hext := extends_give hhome m.cells.size
  refine ⟨fun var c v hc hv => ?_, .cons ?_ ?_⟩
  · show (m.cells.push (m.stack.read (m.frame.base + index)))[c]? = some v
    by_cases hvar : var = ⟨h.running.number, index⟩
    -- the new cell is filled from the slot
    · subst hvar
      rw [give_self] at hc
      obtain rfl := Option.some.inj hc
      rw [Array.getElem?_push_size, hs.running index hindex hhome v hv]
    · rw [give_ne _ _ hvar] at hc
      rw [Array.getElem?_push, if_neg (Nat.ne_of_lt (ha.inside var c hc))]
      exact hs.cells var c v hc hv
  · exact hs.running.agree hext (fun _ _ => rfl) fun _ _ => rfl
  · exact hwaits.inSlots hs.waiting hext (fun _ _ _ _ => rfl) fun _ _ => rfl

end Stored

/-! ## Closures

A closure that is made has the cells of the variables that it captures, and from then on takes part
in the history by its identity. -/

/-- **A closure whose cells are those of the variables that it has captured.** Its identity is one
that has been drawn, so no later closure has the same. -/
def Known (home : Var → Option CellId) (h : History) (fresh : Nat) : ClosureProperty :=
  fun id _ cells => id < fresh ∧ cells.toList.map some = (h.captured id).map home

/-- **Where the variables of a history are in a machine.** -/
structure Tracked (home : Var → Option CellId) (h : History) (m : Machine) : Prop where
  assigned : Assigned home h m
  stored : Stored home h m
  closures : m.Closures (Known home h m.host.fresh)

namespace Tracked

variable {exact : Prop} {table : BuiltinTable} {exe : Executable}
  {maps : DepthMaps exact table.length exe} {home : Var → Option CellId} {h : History}
  {m m' : Machine} {d : Nat}

/-- A step that leaves the variables alone. -/
theorem keeps (ht : Tracked home h m) (hd : Holds maps d m) (hkeeps : Keeps m m') :
    Tracked home h m' where
  assigned := ht.assigned.congr hkeeps.frame hkeeps.callers (by rw [hkeeps.cells])
  stored := ht.stored.keeps hd.waits hkeeps
  closures := (hkeeps.closures _ ht.closures).mono fun _ _ _ hknown =>
    ⟨Nat.lt_of_lt_of_le hknown.1 hkeeps.fresh, hknown.2⟩

/-- A variable with a cell is written. -/
theorem writeCell (ht : Tracked home h m) (hd : Holds maps d m) {var : Var} {c : CellId}
    {value : Value} (hhome : home var = some c)
    (hvalue : value.Closures (Known home h m.host.fresh)) :
    Tracked home (h.write var value) { m with cells := m.cells.setIfInBounds c value } where
  assigned := (ht.assigned.write var value).congr rfl rfl Array.size_setIfInBounds
  stored := ht.stored.writeCell ht.assigned hd.waits hhome value
  closures := ht.closures.setCell c hvalue

/-- A local of the running function is written, wherever it is kept. -/
theorem withLocal (ht : Tracked home h m) (hd : Holds maps d m) {index : Nat} {value : Value}
    (hvalue : value.Closures (Known home h m.host.fresh)) :
    Tracked home (h.write ⟨h.running.number, index⟩ value) (m.withLocal index value) := by
  have hassigned := ht.assigned.write ⟨h.running.number, index⟩ value
  have hstored := ht.stored.withLocal ht.assigned hd.waits index value
  unfold Machine.withLocal at hstored ⊢
  split at hstored
  · exact ⟨hassigned.congr rfl rfl Array.size_setIfInBounds, hstored,
      ht.closures.setCell _ hvalue⟩
  · exact ⟨hassigned.congr rfl rfl rfl, hstored, ht.closures.setSlot _ hvalue⟩

/-- A closure is called on the values on top of the stack. -/
theorem entered (ht : Tracked home h m) (hd : Holds maps d m) {id : Identity}
    {code : FunctionCode} {cells : Array CellId} {count : Nat}
    (hclosure : Known home h m.host.fresh id code cells) :
    Tracked home (h.after (.enters id (m.slots (m.top - count))))
      (m.entered code cells (m.top - count)) where
  assigned := ht.assigned.entered hclosure.2
  stored := ht.stored.entered ht.assigned hd.waits id code cells count
  closures := ⟨ht.closures.stack, ht.closures.globals, ht.closures.cells⟩

/-- The running function returns to the one that called it. -/
theorem left (ht : Tracked home h m) (hd : Holds maps d m) {caller : Frame}
    {callers : List Frame} (hcallers : m.callers = caller :: callers) {result : Value}
    (hresult : result.Closures (Known home h m.host.fresh)) :
    Tracked home (h.after .leaves) (m.left caller callers result) := by
  obtain ⟨activation, rest, -, hafter⟩ := ht.assigned.exists_waiting hcallers
  refine ⟨ht.assigned.left hcallers result,
    ht.stored.left ht.assigned hd.waits hcallers result, ?_⟩
  rw [hafter]
  exact Closures.pushed ⟨ht.closures.stack, ht.closures.globals, ht.closures.cells⟩ hresult

/-- A variable of the running function moves into a new cell. -/
theorem moved (ht : Tracked home h m) (hd : Holds maps d m) {index : Nat}
    (hindex : index < m.frame.code.locals) (hhome : home ⟨h.running.number, index⟩ = none) :
    Tracked (give home ⟨h.running.number, index⟩ m.cells.size) h (m.moved index) where
  assigned := ht.assigned.moved hhome
  stored := ht.stored.moved ht.assigned hd.waits hindex hhome
  closures := (ht.closures.newCell _ (ht.closures.stack _)).mono fun _ _ _ hknown =>
    ⟨hknown.1, (extends_give hhome _).map_eq hknown.2⟩

/-- A closure gets an identity that none had before. -/
theorem makes (ht : Tracked home h m) (hd : Holds maps d m) {code : FunctionCode}
    {captures : List Capture} {cells : List CellId}
    (hcells : cells.map some = (captures.filterMap h.running.var?).map home) :
    Tracked home (h.after (.makes m.host.fresh captures))
      (m.drawn.pushed (.closure m.host.fresh code cells.toArray)) := by
  have hold : ∀ id code cells, Known home h m.host.fresh id code cells →
      Known home (h.after (.makes m.host.fresh captures)) (m.host.fresh + 1) id code cells := by
    intro id code cells hknown
    refine ⟨Nat.lt_succ_of_lt hknown.1, hknown.2.trans ?_⟩
    show _ = (if id = m.host.fresh then _ else h.captured id).map home
    rw [if_neg (Nat.ne_of_lt hknown.1)]
  have hnew : Known home (h.after (.makes m.host.fresh captures)) (m.host.fresh + 1)
      m.host.fresh code cells.toArray := by
    refine ⟨Nat.lt_succ_self _, hcells.trans ?_⟩
    show _ = (if m.host.fresh = m.host.fresh then _ else h.captured m.host.fresh).map home
    rw [if_pos rfl]
  have hdrawn := ht.closures.mono hold
  -- the history of values is the same, and the new closure stands above all locals
  have hstored := ht.stored.pushed hd.waits hd.locals_le_top
    (.closure m.host.fresh code cells.toArray)
  exact ⟨⟨ht.assigned.distinct, ht.assigned.inside, ht.assigned.started, ht.assigned.frames,
    ht.assigned.order⟩, ⟨hstored.cells, hstored.frames⟩,
    Closures.pushed ⟨hdrawn.stack, hdrawn.globals, hdrawn.cells⟩ hnew⟩

end Tracked

end Scriptlet.Machine
