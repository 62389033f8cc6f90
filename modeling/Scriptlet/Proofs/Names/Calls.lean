import Scriptlet.Proofs.Depth.Starts
import Scriptlet.Proofs.Names.Sources
import Scriptlet.Proofs.Variables

/-!
# Calls and their arguments

The run of an executable, told by its text. Every activation of a function is a call of a function
of the text, with arguments (`Call`); `Recorded` says that the code of each frame and of each
closure comes from its source, that what they have captured goes by the names of the text, and that
a parameter which is fixed still has its argument. One step keeps this, and enters one call at most
(`Recorded.step`); `exists_calls` records the calls of a whole run.

The calls are a function from activations to calls that is defined as the run goes on. An activation
that has started never changes its call (`Agree`), so the function of a longer run extends that of a
shorter one, and whatever was recorded of the shorter run is still right.

Three invariants of other modules are used along the way: the machine is sound, so instructions fit;
its variables are tracked, so a closure knows the variables in its cells; and the code has a map of
its instructions, so what the source says of an instruction applies to the one that is executed.
-/

namespace Scriptlet

/-- The code of a frame has a map of its instructions. -/
theorem StartMaps.atStarts {exact : Prop} {builtins : Nat} {exe : Executable}
    (maps : StartMaps exact builtins exe) {code : FunctionCode} {callers : List Machine.Frame}
    (h : Machine.CodeOf exact builtins exe code callers) :
    (maps.depths code callers).AtStarts code.code := by
  cases callers with
  | nil =>
    obtain rfl := h
    exact maps.main_starts
  | cons caller callers => exact maps.inside_starts code h

namespace Machine

/-! ## What is recorded

The record is a property of one state, relative to the calls so far. It says nothing of values in
slots, with one exception: the argument of a fixed parameter. -/

/-- **A call of a function**: the text that its code comes from, and the arguments. -/
structure Call where
  source : Source
  args : List Value

/-- What a closure has captured goes by the names of its source. A name that is free there and fixed
is a parameter of the function that it belongs to, which has been called; so from inside of a
closure, a fixed name leads to an argument. -/
structure Refers (calls : Nat → Call) (started : Nat) (source : Source) (free : List Var) :
    Prop where
  length : free.length = source.places.free.length
  started : ∀ var ∈ free, var.activation < started
  owner : ∀ (index : Nat) (var : Var) (name : String), free[index]? = some var →
    source.places.free[index]? = some name →
    (calls var.activation).source.places.slots[var.slot]? = some name
      ∧ ((calls var.activation).source.fixed name = some .slot ↔ source.fixed name = some .free)

/-- Code of an executable that comes from a source, with the variables that it has captured. The
source is found somewhere in the text of the whole program. -/
structure Sourced (table : BuiltinTable) (exe : Executable) (top : Source) (calls : Nat → Call)
    (started : Nat) (source : Source) (code : FunctionCode) (free : List Var) : Prop where
  describes : source.Describes (table.map Builtin.name) exe.constants code
  inside : top.Contains source
  refers : Refers calls started source free

/-- A closure that comes from a source. -/
def Recognized (table : BuiltinTable) (exe : Executable) (top : Source) (calls : Nat → Call)
    (h : History) (fresh : Nat) : ClosureProperty := fun id code _ =>
  id < fresh ∧ ∃ source, Sourced table exe top calls h.started source code (h.captured id)

/-- **The calls of a run so far.** For the running frame, for each frame that waits, and for each
closure that exists: its code has a source. -/
structure Recorded (table : BuiltinTable) (exe : Executable) (top : Source) (calls : Nat → Call)
    (h : History) (m : Machine) : Prop where
  running : Sourced table exe top calls h.started (calls h.running.number).source m.frame.code
    h.running.free
  waiting : List.Forall₂ (fun frame activation =>
    Sourced table exe top calls h.started (calls activation.number).source frame.code
      activation.free) m.callers h.waiting
  closures : m.Closures (Recognized table exe top calls h m.host.fresh)
  inside : ∀ n < h.started, top.Contains (calls n).source
  /-- A fixed parameter has the value that it was given. -/
  given : ∀ (var : Var) (name : String), var.activation < h.started →
    (calls var.activation).source.places.slots[var.slot]? = some name →
    (calls var.activation).source.fixed name = some .slot →
    (calls var.activation).source.params[var.slot]? = some name
      ∧ ∃ value, (calls var.activation).args[var.slot]? = some value ∧ h.last var = some value

section

variable {exact : Prop} {table : BuiltinTable} {exe : Executable} {m : Machine}

/-- The next instruction does to variables what the source of the code says. The source speaks of
the instructions of its own tiling; that the machine stands at one of them is what the map of starts
is for. -/
theorem Sound.executes {maps : StartMaps exact table.length exe}
    (hs : Sound maps.toDepthMaps m) {source : Source} {builtins : List String}
    (hdescribes : source.Describes builtins exe.constants m.frame.code) {op : Op}
    {operands : List Nat} (hinstruction : m.instruction? = some (op, operands)) :
    source.Executes builtins exe.constants op operands := by
  have hsize := position_lt_of_instruction? hinstruction
  obtain ⟨d, hd, k, hk, -⟩ := hs
  obtain ⟨instrs, htiles, hechoes⟩ := hdescribes.echoes
  obtain ⟨i, hi, hposition⟩ := List.mem_map.mp
    (maps.atStarts hd.valid.code instrs htiles _ k hsize hk)
  have hinstr := htiles.instrAt hi
  rw [hposition] at hinstr
  obtain ⟨rfl, rfl⟩ : i.op = op ∧ readBack i.op.widths i.operands = operands := by
    have heq := (instruction?_eq hinstr).symm.trans hinstruction
    cases heq
    exact ⟨rfl, rfl⟩
  rw [← hdescribes.builtins]
  refine hechoes.executes source.params (fun _ _ h => h) ?_ ?_ i hi
  · rw [← hdescribes.locals]
    exact hdescribes.locals_le
  · rw [← hdescribes.free]
    exact Nat.le_of_lt hdescribes.free_lt

end

/-! ## What is captured

A closure captures variables of the running function. The text says which names these have, inside
and outside, and the history says which variables; here the two are brought together. -/

/-- Where a function has a value everywhere, these are its values in order. -/
theorem map_some_filterMap {α β : Type} {f : α → Option β} {as : List α}
    (h : ∀ a ∈ as, (f a).isSome) : (as.filterMap f).map some = as.map f := by
  induction as with
  | nil => rfl
  | cons a as ih =>
    obtain ⟨b, hb⟩ := Option.isSome_iff_exists.mp (h a List.mem_cons_self)
    rw [List.filterMap_cons_some hb, List.map_cons, List.map_cons, hb,
      ih fun a ha => h a (List.mem_cons_of_mem _ ha)]

section

variable {table : BuiltinTable} {exe : Executable} {top source inner : Source}
  {calls calls' : Nat → Call} {started started' : Nat} {free : List Var} {code : FunctionCode}
  {captures : List Capture}

/-- A place that can be captured is that of a variable. -/
theorem Refers.isSome_var? {activation : Activation}
    (h : Refers calls started source activation.free) {capture : Capture} {name : String}
    (hname : source.places.captured? capture = some name) :
    (activation.var? capture).isSome := by
  cases capture with
  | slot index => rfl
  | free index =>
    have hlt := (List.getElem?_eq_some_iff.mp hname).1
    rw [← h.length] at hlt
    exact Option.isSome_iff_exists.mpr ⟨_, List.getElem?_eq_getElem hlt⟩

/-- **What a new closure captures goes by the names of its source.** Each captured place is that of
a variable of the running function: a slot is one of its own, and a free place is one that it has
captured itself, for which the claim is known. -/
theorem Refers.make {activation : Activation}
    (h : Refers calls started (calls activation.number).source activation.free)
    (hkeeps : (calls activation.number).source.places.Keeps (calls activation.number).source.fixed)
    (hnumber : activation.number < started)
    (hinner : (calls activation.number).source.Encloses inner captures) :
    Refers calls started inner (captures.filterMap activation.var?) := by
  have hvars : (captures.filterMap activation.var?).map some = captures.map activation.var? := by
    refine map_some_filterMap fun capture hcapture => ?_
    have hmem := List.mem_map_of_mem
      (f := (calls activation.number).source.places.captured?) hcapture
    rw [hinner.captured] at hmem
    obtain ⟨name, -, hname⟩ := List.mem_map.mp hmem
    exact h.isSome_var? hname.symm
  refine ⟨?_, fun var hvar => ?_, fun index var name hvar hname => ?_⟩
  · have hlength := congrArg List.length hvars
    have hlength' := congrArg List.length hinner.captured
    simp only [List.length_map] at hlength hlength'
    rw [hlength, hlength']
  · obtain ⟨capture, -, hcapture⟩ := List.mem_filterMap.mp hvar
    cases capture with
    | slot index =>
      obtain rfl := Option.some.inj hcapture
      exact hnumber
    | free index => exact h.started var (List.mem_of_getElem? hcapture)
  · obtain ⟨capture, hcapture, hplace⟩ : ∃ capture, activation.var? capture = some var
        ∧ (calls activation.number).source.places.captured? capture = some name := by
      have hvars := congrArg (fun l => l[index]?) hvars
      have hnames := congrArg (fun l => l[index]?) hinner.captured
      simp only [List.getElem?_map, hvar, hname, Option.map_some] at hvars hnames
      obtain ⟨capture, hcapture, hvar⟩ := Option.map_eq_some_iff.mp hvars.symm
      rw [hcapture] at hnames
      exact ⟨capture, hvar, Option.some.inj hnames⟩
    rw [hinner.fixed_free_iff]
    cases capture with
    | slot slot =>
      -- a variable of the running function
      obtain rfl := Option.some.inj hcapture
      refine ⟨hplace, .inl, fun hfixed => hfixed.elim id fun hfree => ?_⟩
      exact absurd (hkeeps.slots name _ hfree (List.mem_of_getElem? hplace)) nofun
    | free slot =>
      -- one that the running closure has captured
      obtain ⟨hslot, hiff⟩ := h.owner slot var name hcapture hplace
      refine ⟨hslot, fun howner => .inr (hiff.mp howner), fun hfixed => hiff.mpr ?_⟩
      refine hfixed.elim (fun hown => ?_) id
      exact absurd (hkeeps.free name _ hown (List.mem_of_getElem? hplace)) nofun

/-- Calls that have started are not changed. What happens to the numbers of activations to come is
left open. -/
def Agree (calls calls' : Nat → Call) (started : Nat) : Prop :=
  ∀ n < started, calls' n = calls n

theorem Agree.refl (calls : Nat → Call) (started : Nat) : Agree calls calls started :=
  fun _ _ => rfl

theorem Refers.mono (h : Refers calls started source free) (hagree : Agree calls calls' started)
    (hle : started ≤ started') : Refers calls' started' source free where
  length := h.length
  started var hvar := Nat.lt_of_lt_of_le (h.started var hvar) hle
  owner index var name hvar hname := by
    rw [hagree _ (h.started var (List.mem_of_getElem? hvar))]
    exact h.owner index var name hvar hname

theorem Sourced.mono (h : Sourced table exe top calls started source code free)
    (hagree : Agree calls calls' started) (hle : started ≤ started') :
    Sourced table exe top calls' started' source code free :=
  ⟨h.describes, h.inside, h.refers.mono hagree hle⟩

end

/-! ## Steps

How the record follows a step. The lemmas are about what a step does to the state, not about
instructions: a write, a call, a return, a new closure, or nothing that concerns variables.
`Recorded.perform` then sorts the instructions into these. -/

/-- Capturing variables makes no closures. A cell that is made for a slot holds the value of the
slot, which the property already covers. Induction on the captures. -/
theorem Closures.captureCells {exact : Prop} {table : BuiltinTable} {exe : Executable}
    {maps : DepthMaps exact table.length exe} {d : Nat} {m m' : Machine} {ok : ClosureProperty}
    {captures : List Capture} (h : m.Closures ok) (hd : Holds maps d m)
    (hwithin : ∀ capture ∈ captures,
      capture.Within ⟨table.length, m.frame.code.locals, m.frame.code.captures.length⟩)
    {cells : List CellId} (hcaptures : Machine.captureCells captures m = .ok cells m') :
    m'.Closures ok := by
  induction captures generalizing m cells with
  | nil =>
    cases hcaptures
    exact h
  | cons capture captures ih =>
    have hfirst := hwithin capture List.mem_cons_self
    have hrest := fun c hc => hwithin c (List.mem_cons_of_mem _ hc)
    obtain ⟨c, m₁, hcapture, hd₁, hm₁, -⟩ := hd.captureCell_eq hfirst
    rw [← hm₁.stays.code] at hrest
    obtain ⟨cells', m₂, hcells, -⟩ := hd₁.captureCells_eq hrest
    -- the rest of the captures starts where the first one has ended, and ends where all of them do
    obtain rfl : m₂ = m' := by
      rw [Machine.captureCells, bind_ok hcapture, bind_ok hcells] at hcaptures
      cases hcaptures
      rfl
    refine ih ?_ hd₁ hrest hcells
    cases capture with
    | free index =>
      obtain ⟨c', -, hfree, -⟩ := hd.freeCell_eq hfirst
      cases hfree.symm.trans hcapture
      exact h
    | slot index =>
      have hslot := hd.slot_lt hfirst
      cases hcell : m.frame.cell? index with
      | some c' =>
        cases (captureCell_old hcell hslot).symm.trans hcapture
        exact h
      | none =>
        cases (captureCell_new hcell hslot).symm.trans hcapture
        exact h.newCell _ (h.stack _)

namespace Recorded

variable {table : BuiltinTable} {exe : Executable} {top : Source} {calls : Nat → Call}
  {h : History} {m m' : Machine}

/-- What is recorded is about the code of frames and about closures. A step that changes neither,
and only makes closures that are covered, keeps it. -/
theorem transfer (hr : Recorded table exe top calls h m) (hcode : m'.frame.code = m.frame.code)
    (hcallers : m'.callers = m.callers)
    (hclosures : m'.Closures (Recognized table exe top calls h m'.host.fresh)) :
    Recorded table exe top calls h m' where
  running := by
    rw [hcode]
    exact hr.running
  waiting := by
    rw [hcallers]
    exact hr.waiting
  closures := hclosures
  inside := hr.inside
  given := hr.given

/-- A step that leaves the variables alone. -/
theorem keeps (hr : Recorded table exe top calls h m) (hkeeps : Keeps m m') :
    Recorded table exe top calls h m' :=
  hr.transfer hkeeps.code hkeeps.callers <| (hkeeps.closures _ hr.closures).mono fun _ _ _ hknown =>
    ⟨Nat.lt_of_lt_of_le hknown.1 hkeeps.fresh, hknown.2⟩

/-- **A variable is written that is no fixed parameter.** The text guarantees that: what is written
has a name that is not fixed. -/
theorem write {var : Var} {value : Value} (hr : Recorded table exe top calls h m)
    (hvar : ∀ name, (calls var.activation).source.places.slots[var.slot]? = some name →
      (calls var.activation).source.fixed name ≠ some .slot) :
    Recorded table exe top calls (h.write var value) m where
  running := hr.running
  waiting := hr.waiting
  closures := hr.closures
  inside := hr.inside
  given other name hstarted hslot hfixed := by
    obtain ⟨hparam, given, harg, hlast⟩ := hr.given other name hstarted hslot hfixed
    refine ⟨hparam, given, harg, ?_⟩
    show (if other = var then some value else h.last other) = some given
    rw [if_neg, hlast]
    rintro rfl
    exact hvar name hslot hfixed

theorem withLocal {index : Nat} {value : Value} (hr : Recorded table exe top calls h m)
    (hvalue : value.Closures (Recognized table exe top calls h m.host.fresh)) :
    Recorded table exe top calls h (m.withLocal index value) := by
  unfold Machine.withLocal
  split
  · exact hr.transfer rfl rfl (hr.closures.setCell _ hvalue)
  · exact hr.transfer rfl rfl (hr.closures.setSlot _ hvalue)

/-- The arguments of a call are those of the parameters of its source. There are as many arguments
as parameters, and a fixed parameter has the slot of its own index. -/
theorem given_args {source : Source} {code : FunctionCode} {builtins : List String}
    {constants : Array Value} (hdescribes : source.Describes builtins constants code)
    {args : List Value} (hargs : args.length = code.params) {index : Nat} {name : String}
    (hslot : source.places.slots[index]? = some name) (hfixed : source.fixed name = some .slot) :
    source.params[index]? = some name ∧ ∃ value, args[index]? = some value := by
  obtain ⟨hmem, hnodup⟩ := hdescribes.own name hfixed
  obtain ⟨i, hi⟩ := List.mem_iff_getElem?.mp hmem
  have hparam := getElem?_of_prefix (hdescribes.distinct hnodup) hi
  obtain rfl : i = index := hdescribes.keeps.once name hfixed i index hparam hslot
  have hlt : i < args.length := by
    rw [hargs, hdescribes.arity]
    exact (List.getElem?_eq_some_iff.mp hi).1
  exact ⟨hi, args[i], List.getElem?_eq_getElem hlt⟩

/-- **A closure is called on the values on top of the stack.** The new activation gets the source of
the closure and these values as its call; its parameters hold them, since the slots of a new frame
begin with the arguments. -/
theorem entered (hr : Recorded table exe top calls h m)
    (hnumbers : ∀ activation ∈ h.running :: h.waiting, activation.number < h.started)
    {id : Identity} {code : FunctionCode} {cells : Array CellId} {count : Nat}
    (hclosure : Recognized table exe top calls h m.host.fresh id code cells)
    (hcount : count = code.params) (hle : count ≤ m.top) :
    ∃ calls', Agree calls calls' h.started
      ∧ (calls' h.started).args = m.slots (m.top - count)
      ∧ Recorded table exe top calls' (h.after (.enters id (m.slots (m.top - count))))
        (m.entered code cells (m.top - count)) := by
  obtain ⟨-, source, hsourced⟩ := hclosure
  let args := m.slots (m.top - count)
  let calls' : Nat → Call := fun n => if n = h.started then ⟨source, args⟩ else calls n
  have hnew : calls' h.started = ⟨source, args⟩ := if_pos rfl
  -- the number of the new activation is not in use yet
  have hagree : Agree calls calls' h.started := fun n hn => if_neg (Nat.ne_of_lt hn)
  have hkept : ∀ {source code free},
      Sourced table exe top calls h.started source code free →
      Sourced table exe top calls' (h.started + 1) source code free :=
    fun hold => hold.mono hagree (Nat.le_succ _)
  have hwaiting : ∀ {frame : Frame} {activation : Activation},
      activation ∈ h.running :: h.waiting →
      Sourced table exe top calls h.started (calls activation.number).source frame.code
        activation.free →
      Sourced table exe top calls' (h.started + 1) (calls' activation.number).source frame.code
        activation.free := by
    intro frame activation hmem hold
    rw [hagree _ (hnumbers activation hmem)]
    exact hkept hold
  refine ⟨calls', hagree, by rw [hnew], ?_, ?_, ?_, fun n hn => ?_, ?_⟩
  · show Sourced table exe top calls' (h.started + 1) (calls' h.started).source code _
    rw [hnew]
    exact hkept hsourced
  · refine .cons (hwaiting List.mem_cons_self hr.running) ?_
    exact (List.forall₂_iff_zip.mp hr.waiting).elim fun hlength hall =>
      List.forall₂_iff_zip.mpr ⟨hlength, fun {frame activation} hzip =>
        hwaiting (List.mem_cons_of_mem _ (List.of_mem_zip hzip).2) (hall hzip)⟩
  · have hclosures : m.Closures
        (Recognized table exe top calls' (h.after (.enters id args)) m.host.fresh) :=
      hr.closures.mono fun id code cells hknown =>
        ⟨hknown.1, hknown.2.imp fun _ hold => hkept hold⟩
    exact ⟨hclosures.stack, hclosures.globals, hclosures.cells⟩
  · by_cases hlast : n = h.started
    · rw [hlast, hnew]
      exact hsourced.inside
    · have hold : n < h.started := Nat.lt_of_le_of_ne (Nat.le_of_lt_succ hn) hlast
      rw [hagree n hold]
      exact hr.inside n hold
  · intro var name hstarted hslot hfixed
    show _ ∧ ∃ value, _ ∧ (if var.activation = h.started then args[var.slot]? else h.last var) = _
    by_cases hvar : var.activation = h.started
    · rw [hvar, hnew] at hslot hfixed ⊢
      rw [if_pos rfl]
      have hlength : args.length = code.params := by
        rw [length_slots, ← hcount]
        omega
      obtain ⟨hparam, value, harg⟩ := given_args hsourced.describes hlength hslot hfixed
      exact ⟨hparam, value, harg, harg⟩
    · have hold : var.activation < h.started :=
        Nat.lt_of_le_of_ne (Nat.le_of_lt_succ hstarted) hvar
      rw [hagree _ hold] at hslot hfixed ⊢
      rw [if_neg hvar]
      exact hr.given var name hold hslot hfixed

/-- The running function returns to the one that called it. Nothing that was recorded about the
caller has changed while it waited. -/
theorem left (hr : Recorded table exe top calls h m) {caller : Frame} {callers : List Frame}
    (hcallers : m.callers = caller :: callers) {result : Value}
    (hresult : result.Closures (Recognized table exe top calls h m.host.fresh)) :
    Recorded table exe top calls (h.after .leaves) (m.left caller callers result) := by
  have hwaiting := hr.waiting
  rw [hcallers] at hwaiting
  cases hrest : h.waiting with
  | nil =>
    rw [hrest] at hwaiting
    cases hwaiting
  | cons activation rest =>
    rw [hrest] at hwaiting
    obtain ⟨hrunning, hwaiting⟩ := List.forall₂_cons.mp hwaiting
    have hafter : h.after .leaves = { h with running := activation, waiting := rest } := by
      simp only [History.after, hrest]
    rw [hafter]
    exact ⟨hrunning, hwaiting,
      Closures.pushed ⟨hr.closures.stack, hr.closures.globals, hr.closures.cells⟩ hresult,
      hr.inside, hr.given⟩

/-- A closure is made that captures variables of the running function. -/
theorem makes (hr : Recorded table exe top calls h m) {inner : Source} {code : FunctionCode}
    {captures : List Capture} (cells : Array CellId)
    (hsourced : Sourced table exe top calls h.started inner code
      (captures.filterMap h.running.var?)) :
    Recorded table exe top calls (h.after (.makes m.host.fresh captures))
      (m.drawn.pushed (.closure m.host.fresh code cells)) := by
  have hold : ∀ id code cells, Recognized table exe top calls h m.host.fresh id code cells →
      Recognized table exe top calls (h.after (.makes m.host.fresh captures)) (m.host.fresh + 1) id
        code cells := by
    intro id code cells hknown
    refine ⟨Nat.lt_succ_of_lt hknown.1, ?_⟩
    show ∃ source, Sourced _ _ _ _ _ source code (if id = m.host.fresh then _ else h.captured id)
    rw [if_neg (Nat.ne_of_lt hknown.1)]
    exact hknown.2
  have hnew : Recognized table exe top calls (h.after (.makes m.host.fresh captures))
      (m.host.fresh + 1) m.host.fresh code cells := by
    refine ⟨Nat.lt_succ_self _, inner, ?_⟩
    show Sourced _ _ _ _ _ inner code (if m.host.fresh = m.host.fresh then _ else _)
    rw [if_pos rfl]
    exact hsourced
  have hdrawn := hr.closures.mono hold
  exact ⟨hr.running, hr.waiting,
    Closures.pushed ⟨hdrawn.stack, hdrawn.globals, hdrawn.cells⟩ hnew, hr.inside, hr.given⟩

section

variable {exact : Prop} {maps : DepthMaps exact table.length exe} {d : Nat}

/-- A call instruction: of a closure, which enters an activation, or of anything else, which does
not. -/
theorem call (hr : Recorded table exe top calls h m) (hd : Holds maps d m)
    (hnumbers : ∀ activation ∈ h.running :: h.waiting, activation.number < h.started)
    {count : Nat} (hcount : count + 1 ≤ d)
    (hlead : Leads exact (maps.depths m.frame.code m.callers) m.frame.position (d - count))
    (hcall : perform .call [count] m = .ok () m') :
    ∃ calls', Agree calls calls' h.started
      ∧ Recorded table exe top calls' (h.after (m.callEvent count)) m'
      ∧ ∀ id args, m.callEvent count = .enters id args → (calls' h.started).args = args := by
  have htop := hd.top
  by_cases hclosure : ∃ id code cells,
      m.stack.read (m.top - (count + 1)) = .closure id code cells
  · obtain ⟨id, code, cells, hcallee⟩ := hclosure
    have hknown := hr.closures.stack (m.top - (count + 1))
    rw [hcallee] at hknown
    rw [call_closure_eq (by omega) hd.top_le hcallee] at hcall
    rw [callEvent_closure hcallee]
    -- the number of arguments has not been refused, so they are those of the parameters
    obtain ⟨hparams, rfl⟩ := enterClosure_inv (by omega) hcall
    obtain ⟨calls', hagree, hargs, hr'⟩ := hr.entered hnumbers hknown hparams.symm (by omega)
    refine ⟨calls', hagree, hr', fun id' args heq => ?_⟩
    cases heq
    exact hargs
  · simp only [not_exists] at hclosure
    have hother := call_other_ends hd hcount hclosure hlead
    rw [hcall] at hother
    rw [callEvent_other hclosure]
    exact ⟨calls, .refl calls _, hr.keeps hother.2, fun _ _ heq => by cases heq⟩

theorem leave (hr : Recorded table exe top calls h m) (hd : Holds maps d m) {result : Value}
    (hresult : result.Closures (Recognized table exe top calls h m.host.fresh))
    (hleave : Machine.leave result m = .ok () m') :
    Recorded table exe top calls (h.after .leaves) m' := by
  have hwaits := hd.waits
  cases hcallers : m.callers with
  | nil =>
    unfold Machine.leave at hleave
    rw [bind_ok get_eq, hcallers] at hleave
    cases hleave
  | cons caller callers =>
    have htop := hd.locals_le_top
    have hle := hd.top_le
    rw [hcallers] at hwaits
    obtain ⟨-, hbase, -⟩ := hwaits
    rw [leave_eq hcallers (by omega) (by omega)] at hleave
    cases hleave
    exact hr.left hcallers hresult

/-- The constant tells the code of the closure, and the text around its place tells the source of
that code. -/
theorem makeClosure (hr : Recorded table exe top calls h m) (hd : Holds maps d m)
    (hnumber : h.running.number < h.started) {index : Nat} {id : Identity} {fn : FunctionCode}
    (hconst : exe.constants[index]? = some (.compiled id fn))
    (hwithin : ∀ capture ∈ fn.captures,
      capture.Within ⟨table.length, m.frame.code.locals, m.frame.code.captures.length⟩)
    {inner : Source} (hdescribes : inner.Describes (table.map Builtin.name) exe.constants fn)
    (hencloses : (calls h.running.number).source.Encloses inner fn.captures)
    (hmake : perform .closure [index, fn.captures.length] m = .ok () m') :
    Recorded table exe top calls (h.after (m.closureEvent index fn.captures.length)) m' := by
  obtain ⟨cells, m₁, hcells, hd₁, hm₁, -⟩ := hd.captureCells_eq hwithin
  have hconst' : m.constants[index]? = some (.compiled id fn) := by rw [hd.constants, hconst]
  have hevent : m.closureEvent index fn.captures.length
      = .makes m₁.host.fresh fn.captures := by
    simp only [closureEvent, hconst', List.take_length, hm₁.host]
  have hr₁ : Recorded table exe top calls h m₁ := by
    refine hr.transfer hm₁.stays.code hm₁.stays.callers ?_
    rw [hm₁.host]
    exact hr.closures.captureCells hd hwithin hcells
  rw [makeClosure_eq hconst' (by rwa [List.take_length])] at hmake
  rw [hevent]
  by_cases hroom : m₁.drawn.top < stackSize
  · rw [push_eq hroom] at hmake
    cases hmake
    exact hr₁.makes _ ⟨hdescribes, hr.running.inside.inner hencloses,
      hr.running.refers.make hr.running.describes.keeps hnumber hencloses⟩
  · rw [push_overflow (Nat.le_of_not_lt hroom)] at hmake
    cases hmake

/-- **An instruction that fits, performed behind its place, keeps what is recorded** if it does to
variables what the source says. Plain instructions are done with at once; what is left is one case
for each operation that writes, calls, returns or makes a closure. -/
theorem perform (hr : Recorded table exe top calls h m) (hd : Holds maps d m)
    (hnumbers : ∀ activation ∈ h.running :: h.waiting, activation.number < h.started) {op : Op}
    {operands : List Nat} {p : Nat} (hp : m.frame.position = p + op.size)
    (hfits : Fits exact ⟨table.length, m.frame.code.locals, m.frame.code.captures.length⟩
      exe.constants (maps.depths m.frame.code m.callers) p d op operands)
    (hexecutes : (calls h.running.number).source.Executes (table.map Builtin.name) exe.constants op
      (readBack op.widths operands))
    (hperform : Machine.perform op (readBack op.widths operands) m = .ok () m') :
    ∃ calls', Agree calls calls' h.started
      ∧ Recorded table exe top calls' (h.after (m.eventOf op (readBack op.widths operands))) m'
      ∧ ∀ id args, m.eventOf op (readBack op.widths operands) = .enters id args →
        (calls' h.started).args = args := by
  by_cases hplain : Op.plain op = true
  · have hends := perform_ends hd hp hfits
    rw [hperform] at hends
    rw [eventOf_plain hplain]
    exact ⟨calls, .refl calls _, hr.keeps (hends.2 hplain), fun _ _ heq => by cases heq⟩
  · rw [readBack_of_fits hfits (by rintro rfl; exact hplain rfl)] at hperform hexecutes ⊢
    have hstackTop := hr.closures.stackTop
    have hrp := hr.keeps (.popped m)
    unfold Fits at hfits
    split at hfits
    -- a local is set, and what the source says of this write is that its name is not one of the
    -- fixed ones
    case h_21 =>
      obtain ⟨-, hindex, hd₁, -⟩ := hfits
      obtain ⟨name, hname, hfixed⟩ := hexecutes.write_inv rfl
      rw [hd.setLocal_eq hd₁ hindex] at hperform
      cases hperform
      refine ⟨calls, .refl calls _, (hrp.withLocal hstackTop).write fun other hother => ?_,
        fun _ _ heq => by cases heq⟩
      obtain rfl := Option.some.inj (hname.symm.trans hother)
      rw [hfixed]
      exact (Option.some_ne_none _).symm
    -- a captured variable is set: the cell that is written belongs to a variable of another
    -- function
    case h_23 =>
      obtain ⟨-, hindex, hd₁, -⟩ := hfits
      obtain ⟨name, hname, hfixed⟩ := hexecutes.write_inv rfl
      obtain ⟨c, -, heq⟩ := hd.setFree_eq hd₁ hindex
      rw [heq] at hperform
      cases hperform
      refine ⟨calls, .refl calls _, ?_, fun _ _ heq => by cases heq⟩
      have hset : Recorded table exe top calls h
          { m.popped with cells := m.cells.setIfInBounds c m.stackTop } :=
        hrp.transfer rfl rfl (hrp.closures.setCell c hstackTop)
      simp only [eventOf, History.after]
      split
      · rename_i var hvar
        refine hset.write fun other hother hslot => ?_
        -- the cell has an owner, whose name is the one that is written; were it a parameter it
        -- would be fixed
        obtain ⟨hslot', hiff⟩ := hr.running.refers.owner _ var name hvar hname
        obtain rfl := Option.some.inj (hslot'.symm.trans hother)
        cases hfixed.symm.trans (hiff.mp hslot)
      · exact hset
    -- a call
    case h_27 =>
      rw [← hp] at hfits
      exact hr.call hd hnumbers hfits.2.1 hfits.2.2 hperform
    -- a closure: the constant that it is made of is the function whose text the source tells
    case h_28 =>
      obtain ⟨-, -, ⟨id, fn, hconst, rfl, -, hwithin⟩, -⟩ := hfits
      obtain ⟨inner, id', fn', hconst', -, hdescribes, hencloses⟩ := hexecutes.closure_inv
      obtain ⟨rfl, rfl⟩ := Value.compiled.inj (Option.some.inj (hconst.symm.trans hconst'))
      refine ⟨calls, .refl calls _, hr.makeClosure hd (hnumbers _ List.mem_cons_self) hconst hwithin
        hdescribes hencloses hperform, fun id' args heq => ?_⟩
      simp only [eventOf, closureEvent] at heq
      split at heq <;> cases heq
    -- the two returns, with the value on top and with `null`
    case h_29 =>
      have hpop : (pop >>= Machine.leave) m = .ok () m' := hperform
      rw [bind_ok (hd.pop_eq hfits)] at hpop
      exact ⟨calls, .refl calls _, hrp.leave (hd.popped hfits) hstackTop hpop,
        fun _ _ heq => by cases heq⟩
    case h_30 =>
      have hnull : Machine.leave .null m = .ok () m' := hperform
      refine ⟨calls, .refl calls _, hr.leave hd ?_ hnull, fun _ _ heq => by cases heq⟩
      trivial
    case h_31 => exact absurd hfits id
    all_goals exact absurd rfl hplain

end

/-- **A step enters one call at most, and keeps those that have started.** -/
theorem step {exact : Prop} {maps : StartMaps exact table.length exe}
    {home : Var → Option CellId} (hr : Recorded table exe top calls h m)
    (ht : Tracked home h m) (hs : Sound maps.toDepthMaps m) (hstep : Machine.step m = .ok () m') :
    ∃ calls', Agree calls calls' h.started
      ∧ Recorded table exe top calls' (h.after m.event) m'
      ∧ ∀ id args, m.event = .enters id args → (calls' h.started).args = args := by
  by_cases hend : m.frame.code.code.size ≤ m.frame.position
  · rw [step_finished hend] at hstep
    cases hstep
  · obtain ⟨d, op, operands, hd, hinstr, hfits⟩ := hs.instr (Nat.lt_of_not_le hend)
    have hexecutes := hs.executes hr.running.describes (instruction?_eq hinstr)
    have hevent : m.event
        = (m.advance op.size).eventOf op (readBack op.widths operands) := by
      unfold event
      rw [instruction?_eq hinstr]
      rfl
    rw [step_eq_perform hinstr] at hstep
    rw [hevent]
    exact (hr.keeps (.advance m op.size)).perform (hd.advance op.size)
      (fun _ hactivation => ht.assigned.number_lt hactivation) rfl hfits hexecutes hstep

/-- More calls may start. Everything that is recorded speaks of activations that have started, so it
does not see the others. -/
theorem mono {calls' : Nat → Call} (hr : Recorded table exe top calls h m)
    (hnumbers : ∀ activation ∈ h.running :: h.waiting, activation.number < h.started)
    (hagree : Agree calls calls' h.started) : Recorded table exe top calls' h m where
  running := by
    rw [hagree _ (hnumbers _ List.mem_cons_self)]
    exact hr.running.mono hagree (Nat.le_refl _)
  waiting := by
    obtain ⟨hlength, hall⟩ := List.forall₂_iff_zip.mp hr.waiting
    refine List.forall₂_iff_zip.mpr ⟨hlength, fun {frame activation} hzip => ?_⟩
    rw [hagree _ (hnumbers _ (List.mem_cons_of_mem _ (List.of_mem_zip hzip).2))]
    exact (hall hzip).mono hagree (Nat.le_refl _)
  closures := hr.closures.mono fun _ _ _ hknown =>
    ⟨hknown.1, hknown.2.imp fun _ hold => hold.mono hagree (Nat.le_refl _)⟩
  inside n hn := by
    rw [hagree n hn]
    exact hr.inside n hn
  given var name hstarted := by
    rw [hagree _ hstarted]
    exact hr.given var name hstarted

end Recorded

/-! ## Whole runs

The step lemma, iterated. The calls of a run of `n + 1` steps extend those of `n` steps, and the
statement quantifies over all shorter runs, so the induction carries all of them along. -/

/-- **The calls of the first steps of a run**: what is recorded of each state, and the arguments of
each call that is entered. -/
structure Chronicle (table : BuiltinTable) (exe : Executable) (host : Host) (top : Source)
    (calls : Nat → Call) (steps : Nat) : Prop where
  recorded : ∀ n ≤ steps, ∀ m h, trace exe table host n = some (m, h) →
    Recorded table exe top calls h m
  entered : ∀ n < steps, ∀ m h next, trace exe table host n = some (m, h) →
    trace exe table host (n + 1) = some next → ∀ id args, m.event = .enters id args →
    (calls h.started).args = args

theorem History.started_le_after (h : History) (event : Event) :
    h.started ≤ (h.after event).started := by
  cases event with
  | nothing | setsLocal | makes => exact Nat.le_refl _
  | enters => exact Nat.le_succ _
  | setsFree index value =>
    rw [after]
    split <;> exact Nat.le_refl _
  | leaves =>
    rw [after]
    split <;> exact Nat.le_refl _

/-- Calls that have started remain so. -/
theorem trace_started_le {table : BuiltinTable} {exe : Executable} {host : Host} {n steps : Nat}
    {m m' : Machine} {h h' : History} (hle : n ≤ steps)
    (htrace : trace exe table host n = some (m, h))
    (htrace' : trace exe table host steps = some (m', h')) : h.started ≤ h'.started := by
  induction hle generalizing m' h' with
  | refl =>
    cases htrace.symm.trans htrace'
    exact Nat.le_refl _
  | step _ ih =>
    obtain ⟨m₀, h₀, hbefore, -, rfl⟩ := trace_succ htrace'
    exact Nat.le_trans (ih hbefore) (h₀.started_le_after m₀.event)

section

variable {exact : Prop} {table : BuiltinTable} {exe : Executable}

/-- Nothing has been called before the first step. The activation of the top level has the whole
text as its source, and no parameters. -/
theorem recorded_load {top : Source}
    (hdescribes : top.Describes (table.map Builtin.name) exe.constants ⟨exe.code, 0, 0, []⟩)
    (hfree : top.places.free = []) (hslots : top.places.slots = []) (host : Host) :
    Recorded table exe top (fun _ => ⟨top, []⟩) .start (load exe table host) where
  running := by
    refine ⟨hdescribes, .self, ?_, nofun, fun index var name hvar => ?_⟩
    · rw [hfree]
      rfl
    · cases hvar
  waiting := .nil
  closures := closures_load exe table host _
  inside _ _ := .self
  given var name _ hslot := by
    change top.places.slots[var.slot]? = some name at hslot
    rw [hslots] at hslot
    cases hslot

/-- **The calls of the run of an executable, for any number of steps.** Induction on the number of
steps; where the run has stopped before, the calls stay as they are. -/
theorem exists_calls (maps : StartMaps exact table.length exe) {top : Source}
    (hdescribes : top.Describes (table.map Builtin.name) exe.constants ⟨exe.code, 0, 0, []⟩)
    (hfree : top.places.free = []) (hslots : top.places.slots = []) (host : Host) (steps : Nat) :
    ∃ calls, Chronicle table exe host top calls steps := by
  have hruns := fun n => (homes maps.toDepthMaps host n).2.tracked
  induction steps with
  | zero =>
    refine ⟨fun _ => ⟨top, []⟩, fun n hn m h htrace => ?_,
      fun n hn => absurd hn (Nat.not_lt_zero n)⟩
    obtain rfl := Nat.le_zero.mp hn
    cases htrace
    exact recorded_load hdescribes hfree hslots host
  | succ steps ih =>
    obtain ⟨calls, hrecorded, hentered⟩ := ih
    cases htrace : trace exe table host (steps + 1) with
    | none =>
      refine ⟨calls, fun n hn m h hm => ?_, fun n hn m h next hm hnext => ?_⟩
      · rcases Nat.lt_or_eq_of_le hn with hlt | rfl
        · exact hrecorded n (Nat.le_of_lt_succ hlt) m h hm
        · cases htrace.symm.trans hm
      · rcases Nat.lt_or_eq_of_le (Nat.le_of_lt_succ hn) with hlt | rfl
        · exact hentered n hlt m h next hm hnext
        · cases htrace.symm.trans hnext
    | some state =>
      obtain ⟨m', h'⟩ := state
      obtain ⟨m₀, h₀, hbefore, hstep, rfl⟩ := trace_succ htrace
      obtain ⟨hsound, ht⟩ := hruns steps m₀ h₀ hbefore
      obtain ⟨calls', hagree, hr, hargs⟩ :=
        (hrecorded steps (Nat.le_refl _) m₀ h₀ hbefore).step ht hsound hstep
      refine ⟨calls', fun n hn m h hm => ?_, fun n hn m h next hm hnext => ?_⟩
      · rcases Nat.lt_or_eq_of_le hn with hlt | rfl
        · have hle := Nat.le_of_lt_succ hlt
          have hstarted := trace_started_le hle hm hbefore
          exact (hrecorded n hle m h hm).mono
            (fun _ hactivation => (hruns n m h hm).2.assigned.number_lt hactivation)
            fun k hk => hagree k (Nat.lt_of_lt_of_le hk hstarted)
        · cases htrace.symm.trans hm
          exact hr
      · rcases Nat.lt_or_eq_of_le (Nat.le_of_lt_succ hn) with hlt | rfl
        · intro id args hevent
          -- the call that is entered has started before the last step
          obtain ⟨m₁, h₁⟩ := next
          obtain ⟨_, _, hm', -, rfl⟩ := trace_succ hnext
          cases hm.symm.trans hm'
          have hstarted := trace_started_le hlt hnext hbefore
          rw [hevent] at hstarted
          rw [hagree _ hstarted]
          exact hentered n hlt m h _ hm hnext id args hevent
        · cases hbefore.symm.trans hm
          exact hargs

end

end Machine

end Scriptlet
