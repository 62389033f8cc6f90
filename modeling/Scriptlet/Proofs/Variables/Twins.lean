import Scriptlet.Proofs.Machine.Alike
import Scriptlet.Proofs.Variables.Cells

/-!
# Two machines with one history

What an instruction does to the variables of functions, for two machines at once that differ at most
in variables that have not been written (`Twins`). A machine is its own twin, so this says in
particular how a single machine goes on (`Tracked.step`); that is what one needs for the variables
of a run. The pair is what one needs for two runs on stacks that hold different things from before.

The two sides are not treated alike. That the closures in the slots and cells are right is known of
the first machine only: the second one may have anything in a slot that has not been written, even a
closure whose cells do not exist. It never gets to look at it. What it calls is an operand, and the
first machine has the same.

`Twins.perform` goes through the instructions. Those that leave variables alone need no argument of
their own: where both machines had a value in common they still have (`Alike.perform`), and the
places of written variables are such places. For the six others the effect is spelled out on both
sides, and `Stored` is taken through it.
-/

namespace Scriptlet.Machine

section

variable {exact : Prop} {table : BuiltinTable} {exe : Executable}
  {maps : DepthMaps exact table.length exe} {shared : Place → Prop} {home : Var → Option CellId}
  {last : Var → Option Value} {h : History} {m m' m₁ m₁' : Machine} {d : Nat}

/-! ## Events -/

/-- Operations that leave variables alone are no events for them. -/
theorem eventOf_plain {op : Op} (hop : Op.plain op = true) (operands : List Nat) :
    m.eventOf op operands = .nothing := by
  cases op <;> first | rfl | cases hop

/-! ## From one machine to the other

The frames of alike machines are the same, and there are as many cells. So whatever does not speak
of values holds of both as soon as it holds of one. -/

theorem SameOperands.refl (stack : Memory Value) (top : Nat) (frames : List Frame) :
    SameOperands stack stack top frames := by
  induction frames generalizing top with
  | nil => trivial
  | cons frame callers ih => exact ⟨fun _ _ _ => rfl, ih _⟩

theorem Alike.refl (m : Machine) : Alike (Common m m) m m :=
  ⟨rfl, rfl, .refl _ _ _, fun _ hplace => hplace⟩

theorem Alike.waits (halike : Alike shared m m') (hd : Holds maps d m) :
    Waits maps m.cells.size m'.frame.base m'.callers := by
  rw [halike.frame, halike.callers]
  exact hd.waits

theorem Alike.assigned (halike : Alike shared m m') (ha : Assigned home h m) :
    Assigned home h m' :=
  ha.congr (by rw [halike.frame]) halike.callers halike.cells

/-! ## Twins

What two machines have to have in common for one history to fit both, and how they keep it. -/

/-- **Twins.** Two machines that differ at most in what has not been written: both have the
variables of the history stored, in the same cells and slots. -/
structure Twins (home : Var → Option CellId) (h : History) (m m' : Machine) : Prop where
  alike : Alike (Common m m') m m'
  tracked : Tracked home h m
  stored : Stored home h m'

/-- A machine is its own twin. -/
theorem Tracked.twins (ht : Tracked home h m) : Twins home h m m :=
  ⟨.refl m, ht, ht.stored⟩

/-! ### Steps that leave variables alone -/

/-- A frame that has its variables in both machines keeps them in the second one, if that agrees
with the first one wherever it did before. -/
theorem InSlots.common {frame : Frame} {activation : Activation}
    (hm : InSlots home last m.stack frame activation)
    (hm' : InSlots home last m'.stack frame activation)
    (hm₁ : InSlots home last m₁.stack frame activation)
    (hcommon : ∀ place, Common m m' place → m₁'.kept? place = m₁.kept? place) :
    InSlots home last m₁'.stack frame activation := by
  intro i hi hnone v hv
  have hslot : Common m m' (.slot (frame.base + i)) :=
    .slot ((hm' i hi hnone v hv).trans (hm i hi hnone v hv).symm)
  have hread : m₁'.stack.read (frame.base + i) = m₁.stack.read (frame.base + i) :=
    Option.some.inj (hcommon _ hslot)
  rw [hread]
  exact hm₁ i hi hnone v hv

theorem inSlots_common {frames : List Frame} {activations : List Activation}
    (hm : List.Forall₂ (InSlots home last m.stack) frames activations)
    (hm' : List.Forall₂ (InSlots home last m'.stack) frames activations)
    (hm₁ : List.Forall₂ (InSlots home last m₁.stack) frames activations)
    (hcommon : ∀ place, Common m m' place → m₁'.kept? place = m₁.kept? place) :
    List.Forall₂ (InSlots home last m₁'.stack) frames activations := by
  induction hm with
  | nil => exact .nil
  | cons hfirst _ ih =>
    obtain ⟨hfirst', hrest'⟩ := List.forall₂_cons.mp hm'
    obtain ⟨hfirst₁, hrest₁⟩ := List.forall₂_cons.mp hm₁
    exact .cons (hfirst.common hfirst' hfirst₁ hcommon) (ih hrest' hrest₁)

namespace Twins

/-- **Twins stay twins in a step that leaves the variables of the first one alone**, and after which
they have in common what they had. -/
theorem keeps (ht : Twins home h m m') (hd : Holds maps d m) (hkeeps : Keeps m m₁)
    (halike : Alike shared m₁ m₁')
    (hcommon : ∀ place, Common m m' place → m₁'.kept? place = m₁.kept? place) :
    Twins home h m₁ m₁' := by
  have htracked := ht.tracked.keeps hd hkeeps
  refine ⟨halike.all, htracked, fun var c v hc hv => ?_, ?_⟩
  -- a cell holds the same in both if it holds what was written last, and then the step keeps it so
  · have hcell : Common m m' (.cell c) :=
      ⟨v, ht.tracked.stored.cells var c v hc hv, ht.stored.cells var c v hc hv⟩
    have hread : m₁'.cells[c]? = m₁.cells[c]? := hcommon _ hcell
    rw [hread]
    exact htracked.stored.cells var c v hc hv
  -- the same for the slots, which are compared frame by frame
  · have hframes' := ht.stored.frames
    have hframes₁ := htracked.stored.frames
    rw [ht.alike.frame, ht.alike.callers] at hframes'
    rw [hkeeps.callers] at hframes₁
    obtain ⟨hrunning', hwaiting'⟩ := List.forall₂_cons.mp hframes'
    obtain ⟨hrunning₁, hwaiting₁⟩ := List.forall₂_cons.mp hframes₁
    have hrunning : InSlots home h.last m.stack m₁.frame h.running := by
      rw [hkeeps.frame]
      exact ht.tracked.stored.running
    have hrunning' : InSlots home h.last m'.stack m₁.frame h.running := by
      rw [hkeeps.frame]
      exact hrunning'
    rw [halike.frame, halike.callers, hkeeps.callers]
    exact .cons (hrunning.common hrunning' hrunning₁ hcommon)
      (inSlots_common ht.tracked.stored.waiting hwaiting' hwaiting₁ hcommon)

theorem popped (ht : Twins home h m m') (hd : Holds maps d m) :
    Twins home h m.popped m'.popped :=
  ht.keeps hd (.popped m) ht.alike.popped fun place hplace =>
    (ht.alike.popped.common place hplace).eq

/-! ### Writes -/

theorem setLocal (ht : Twins home h m m') (hd : Holds maps d m) (h1 : 1 ≤ d) {index : Nat}
    (hindex : index < m.frame.code.locals) (hperform : perform .setLocal [index] m = .ok () m₁)
    (hperform' : perform .setLocal [index] m' = .ok () m₁') :
    Twins home (h.write ⟨h.running.number, index⟩ m.stackTop) m₁ m₁' := by
  have htop := hd.top
  have hpopped := ht.popped hd
  have hd₁ := hd.popped h1
  rw [hd.setLocal_eq h1 hindex] at hperform
  rw [ht.alike.setLocal_eq hd h1 hindex, ht.alike.stackTop (by omega)] at hperform'
  cases hperform
  cases hperform'
  exact ⟨(hpopped.alike.withLocal index m.stackTop).all,
    hpopped.tracked.withLocal hd₁ ht.tracked.closures.stackTop,
    hpopped.stored.withLocal (hpopped.alike.assigned hpopped.tracked.assigned)
      (hpopped.alike.waits hd₁) index m.stackTop⟩

theorem setFree (ht : Twins home h m m') (hd : Holds maps d m) (h1 : 1 ≤ d) {index : Nat}
    (hindex : index < m.frame.code.captures.length)
    (hperform : perform .setFree [index] m = .ok () m₁)
    (hperform' : perform .setFree [index] m' = .ok () m₁') :
    Twins home (h.after (.setsFree index m.stackTop)) m₁ m₁' := by
  have htop := hd.top
  have hpopped := ht.popped hd
  have hd₁ := hd.popped h1
  obtain ⟨c, hget, heq⟩ := hd.setFree_eq h1 hindex
  obtain ⟨var, hvar, hhome⟩ := ht.tracked.assigned.free_home hget
  rw [heq] at hperform
  rw [ht.alike.setFree_eq hd h1 hget, ht.alike.stackTop (by omega)] at hperform'
  cases hperform
  cases hperform'
  have hafter : h.after (.setsFree index m.stackTop) = h.write var m.stackTop := by
    simp only [History.after, hvar]
  rw [hafter]
  exact ⟨(hpopped.alike.setCell c m.stackTop).all,
    hpopped.tracked.writeCell hd₁ hhome ht.tracked.closures.stackTop,
    hpopped.stored.writeCell (hpopped.alike.assigned hpopped.tracked.assigned)
      (hpopped.alike.waits hd₁) hhome m.stackTop⟩

/-! ### Calls -/

theorem call (ht : Twins home h m m') (hd : Holds maps d m) {count : Nat}
    (hcount : count + 1 ≤ d)
    (hlead : Leads exact (maps.depths m.frame.code m.callers) m.frame.position (d - count))
    (hcall : perform .call [count] m = .ok () m₁)
    (hcall' : perform .call [count] m' = .ok () m₁') (halike : Alike shared m₁ m₁')
    (hcommon : ∀ place, Common m m' place → m₁'.kept? place = m₁.kept? place) :
    Twins home (h.after (m.callEvent count)) m₁ m₁' := by
  have htop := hd.top
  have hle := hd.top_le
  have hcallee' := ht.alike.operand (i := m.top - (count + 1)) (by omega) (by omega)
  by_cases hclosure : ∃ id code cells,
      m.stack.read (m.top - (count + 1)) = .closure id code cells
  · obtain ⟨id, code, cells, hcallee⟩ := hclosure
    have hknown := ht.tracked.closures.stack (m.top - (count + 1))
    rw [hcallee] at hknown hcallee'
    -- both machines enter the same function, and neither has been refused
    rw [call_closure_eq (by omega) hle hcallee] at hcall
    rw [call_closure_eq (by rw [ht.alike.top]; omega) (by rwa [ht.alike.top])
      (by rwa [ht.alike.top])] at hcall'
    rw [callEvent_closure hcallee]
    obtain ⟨-, rfl⟩ := enterClosure_inv (by omega) hcall
    obtain ⟨-, rfl⟩ := enterClosure_inv (by rw [ht.alike.top]; omega) hcall'
    have hstored := ht.stored.entered (ht.alike.assigned ht.tracked.assigned) (ht.alike.waits hd)
      id code cells count
    rw [ht.alike.top, ht.alike.slots (by omega)] at hstored
    rw [ht.alike.top] at halike ⊢
    exact ⟨halike.all, ht.tracked.entered hd hknown, hstored⟩
  -- a builtin function leaves the variables alone
  · simp only [not_exists] at hclosure
    have hother := call_other_ends hd hcount hclosure hlead
    rw [hcall] at hother
    rw [callEvent_other hclosure]
    exact ht.keeps hd hother.2 halike hcommon

theorem leave (ht : Twins home h m m') (hd : Holds maps d m) {result : Value}
    (hresult : result.Closures (Known home h m.host.fresh))
    (hleave : Machine.leave result m = .ok () m₁)
    (hleave' : Machine.leave result m' = .ok () m₁') :
    Twins home (h.after .leaves) m₁ m₁' := by
  have hwaits := hd.waits
  cases hcallers : m.callers with
  | nil =>
    unfold Machine.leave at hleave
    rw [bind_ok get_eq, hcallers] at hleave
    cases hleave
  | cons caller callers =>
    have htop := hd.locals_le_top
    have hle := hd.top_le
    have hcallers' := ht.alike.callers.trans hcallers
    rw [hcallers] at hwaits
    obtain ⟨-, hbase, -⟩ := hwaits
    rw [leave_eq hcallers (by omega) (by omega)] at hleave
    rw [leave_eq hcallers' (by rw [ht.alike.frame]; omega) (by rw [ht.alike.frame]; omega)]
      at hleave'
    cases hleave
    cases hleave'
    exact ⟨(ht.alike.left hcallers result).all, ht.tracked.left hd hcallers hresult,
      ht.stored.left (ht.alike.assigned ht.tracked.assigned) (ht.alike.waits hd) hcallers' result⟩

/-! ### Closures -/

/-- A variable that is captured has a cell, the same one in both machines. -/
theorem captureCell (ht : Twins home h m m') (hd : Holds maps d m) {capture : Capture}
    (hwithin : capture.Within
      ⟨table.length, m.frame.code.locals, m.frame.code.captures.length⟩) :
    ∃ c m₁ m₁' home', Machine.captureCell capture m = .ok c m₁
      ∧ Machine.captureCell capture m' = .ok c m₁' ∧ Extends home home' ∧ Twins home' h m₁ m₁'
      ∧ ∃ var, h.running.var? capture = some var ∧ home' var = some c := by
  have ha := ht.tracked.assigned
  rcases ht.alike.captureCell hd hwithin with
    ⟨c, hcell, hcapture, hcapture'⟩ | ⟨index, rfl, hcell, hcapture, hcapture'⟩
  · exact ⟨c, m, m', home, hcapture, hcapture', .refl home, ht, ha.var_home hcell⟩
  · have hhome := (ha.running.cell index).symm.trans hcell
    have hstored := ht.stored.moved (ht.alike.assigned ha) (ht.alike.waits hd)
      (by rw [ht.alike.frame]; exact hwithin) hhome
    rw [ht.alike.cells] at hstored
    exact ⟨_, _, _, _, hcapture, hcapture', extends_give hhome _,
      ⟨(ht.alike.moved index).all, ht.tracked.moved hd hwithin hhome, hstored⟩, _, rfl,
      give_self _ _ _⟩

theorem captureCells (ht : Twins home h m m') (hd : Holds maps d m) {captures : List Capture}
    (hwithin : ∀ capture ∈ captures, capture.Within
      ⟨table.length, m.frame.code.locals, m.frame.code.captures.length⟩) :
    ∃ cells m₁ m₁' home', Machine.captureCells captures m = .ok cells m₁
      ∧ Machine.captureCells captures m' = .ok cells m₁' ∧ Holds maps d m₁ ∧ m₁.host = m.host
      ∧ Extends home home' ∧ Twins home' h m₁ m₁'
      ∧ cells.map some = (captures.filterMap h.running.var?).map home' := by
  induction captures generalizing home m m' with
  | nil => exact ⟨[], m, m', home, rfl, rfl, hd, rfl, .refl home, ht, rfl⟩
  | cons capture captures ih =>
    have hfirst := hwithin capture List.mem_cons_self
    have hrest := fun c hc => hwithin c (List.mem_cons_of_mem _ hc)
    -- the home that the first variable has got is kept by the captures behind it
    obtain ⟨c, m₁, m₁', home₁, hcapture, hcapture', hext₁, ht₁, var, hvar, hhome⟩ :=
      ht.captureCell hd hfirst
    obtain ⟨_, _, heq, hd₁, hm₁, -⟩ := hd.captureCell_eq hfirst
    cases heq.symm.trans hcapture
    rw [← hm₁.stays.code] at hrest
    obtain ⟨cells, m₂, m₂', home₂, hcells, hcells', hd₂, hhost, hext₂, ht₂, hmap⟩ :=
      ih ht₁ hd₁ hrest
    refine ⟨c :: cells, m₂, m₂', home₂, ?_, ?_, hd₂, hhost.trans hm₁.host, hext₁.trans hext₂, ht₂,
      ?_⟩
    · rw [Machine.captureCells, bind_ok hcapture, bind_ok hcells]
      rfl
    · rw [Machine.captureCells, bind_ok hcapture', bind_ok hcells']
      rfl
    · rw [List.filterMap_cons_some hvar, List.map_cons, List.map_cons, hext₂ var c hhome, hmap]

theorem makeClosure (ht : Twins home h m m') (hd : Holds maps d m) {index : Nat}
    {id : Identity} {fn : FunctionCode}
    (hconst : exe.constants[index]? = some (.compiled id fn))
    (hwithin : ∀ capture ∈ fn.captures,
      capture.Within ⟨table.length, m.frame.code.locals, m.frame.code.captures.length⟩)
    (hmake : perform .closure [index, fn.captures.length] m = .ok () m₁)
    (hmake' : perform .closure [index, fn.captures.length] m' = .ok () m₁') :
    ∃ home', Extends home home'
      ∧ Twins home' (h.after (m.closureEvent index fn.captures.length)) m₁ m₁' := by
  obtain ⟨cells, m₂, m₂', home', hcells, hcells', hd₂, hhost, hext, ht₂, hmap⟩ :=
    ht.captureCells hd hwithin
  have hconst' : m.constants[index]? = some (.compiled id fn) := by rw [hd.constants, hconst]
  have hevent : m.closureEvent index fn.captures.length = .makes m₂.host.fresh fn.captures := by
    simp only [closureEvent, hconst', List.take_length, hhost]
  -- both machines have captured the same cells, and make the same closure of them
  rw [makeClosure_eq hconst' (by rwa [List.take_length])] at hmake
  rw [makeClosure_eq (by rwa [ht.alike.constants]) (by rwa [List.take_length]),
    ht₂.alike.host] at hmake'
  obtain ⟨-, rfl⟩ := push_inv hmake
  obtain ⟨-, rfl⟩ := push_inv hmake'
  have hstored := ht₂.stored.pushed (ht₂.alike.waits hd₂)
    (by rw [ht₂.alike.frame, ht₂.alike.top]; exact hd₂.locals_le_top)
    (.closure m₂.host.fresh fn cells.toArray)
  have halike : Alike (Common m₂ m₂') (m₂.drawn) (m₂'.drawn) := by
    unfold drawn
    rw [ht₂.alike.host]
    exact ht₂.alike.withHost _
  rw [hevent]
  exact ⟨home', hext, (halike.pushed _).all, ht₂.tracked.makes hd₂ hmap,
    ⟨hstored.cells, hstored.frames⟩⟩

/-! ## All instructions

By whether the operation leaves variables alone: if so, the machines have in common what they had;
if not, one of the six cases above. -/

/-- **An instruction that fits, performed behind its place**, does to the variables of twins what
its event says. -/
theorem perform (ht : Twins home h m m') (hd : Holds maps d m) {op : Op}
    {operands : List Nat} {p : Nat} (hp : m.frame.position = p + op.size)
    (hfits : Fits exact ⟨table.length, m.frame.code.locals, m.frame.code.captures.length⟩
      exe.constants (maps.depths m.frame.code m.callers) p d op operands)
    (hperform : perform op (readBack op.widths operands) m = .ok () m₁)
    (hperform' : Machine.perform op (readBack op.widths operands) m' = .ok () m₁')
    (halike : Alike shared m₁ m₁')
    (hcommon : ∀ place, Common m m' place → m₁'.kept? place = m₁.kept? place) :
    ∃ home', Extends home home'
      ∧ Twins home' (h.after (m.eventOf op (readBack op.widths operands))) m₁ m₁' := by
  by_cases hplain : Op.plain op = true
  · have hends := perform_ends hd hp hfits
    rw [hperform] at hends
    rw [eventOf_plain hplain]
    exact ⟨home, .refl home, ht.keeps hd (hends.2 hplain) halike hcommon⟩
  · rw [readBack_of_fits hfits (by rintro rfl; exact hplain rfl)] at hperform hperform' ⊢
    have hstackTop := ht.tracked.closures.stackTop
    have htop := hd.top
    unfold Fits at hfits
    split at hfits
    -- the writes, to a local and to a captured variable
    case h_21 =>
      obtain ⟨-, hindex, hd₁, -⟩ := hfits
      exact ⟨home, .refl home, ht.setLocal hd hd₁ hindex hperform hperform'⟩
    case h_23 =>
      obtain ⟨-, hindex, hd₁, -⟩ := hfits
      exact ⟨home, .refl home, ht.setFree hd hd₁ hindex hperform hperform'⟩
    -- a call and a closure; the latter may give its captured variables homes
    case h_27 =>
      rw [← hp] at hfits
      exact ⟨home, .refl home, ht.call hd hfits.2.1 hfits.2.2 hperform hperform' halike hcommon⟩
    case h_28 =>
      obtain ⟨-, -, ⟨id, fn, hconst, rfl, -, hwithin⟩, -⟩ := hfits
      exact ht.makeClosure hd hconst hwithin hperform hperform'
    -- the returns
    case h_29 =>
      have hpop : (pop >>= Machine.leave) m = .ok () m₁ := hperform
      have hpop' : (pop >>= Machine.leave) m' = .ok () m₁' := hperform'
      rw [bind_ok (hd.pop_eq hfits)] at hpop
      rw [bind_ok (ht.alike.pop_eq (hd.top_pos hfits)), ht.alike.stackTop (by omega)] at hpop'
      exact ⟨home, .refl home, (ht.popped hd).leave (hd.popped hfits) hstackTop hpop hpop'⟩
    case h_30 =>
      have hnull : Machine.leave .null m = .ok () m₁ := hperform
      have hnull' : Machine.leave .null m' = .ok () m₁' := hperform'
      exact ⟨home, .refl home, ht.leave hd (show Value.null.Closures _ from trivial) hnull hnull'⟩
    case h_31 => exact absurd hfits id
    all_goals exact absurd rfl hplain

/-- A step of both machines takes the history of the variables along, if it leaves them alike and
does not part them where they had a value in common. -/
theorem step (ht : Twins home h m m') (hs : Sound maps m) (hstep : Machine.step m = .ok () m₁)
    (hstep' : Machine.step m' = .ok () m₁') (halike : Alike shared m₁ m₁')
    (hcommon : ∀ place, Common m m' place → m₁'.kept? place = m₁.kept? place) :
    ∃ home', Extends home home' ∧ Twins home' (h.after m.event) m₁ m₁' := by
  by_cases hend : m.frame.code.code.size ≤ m.frame.position
  · rw [step_finished hend] at hstep
    cases hstep
  · obtain ⟨d, op, operands, hd, hinstr, hfits⟩ := hs.instr (Nat.lt_of_not_le hend)
    have hevent : m.event
        = (m.advance op.size).eventOf op (readBack op.widths operands) := by
      unfold event
      rw [instruction?_eq hinstr]
      rfl
    have hinstr' : InstrAt m'.frame.code.code m'.frame.position op operands := by
      rwa [ht.alike.frame]
    rw [step_eq_perform hinstr] at hstep
    rw [step_eq_perform hinstr'] at hstep'
    rw [hevent]
    have hadvance := ht.alike.advance op.size
    exact (ht.keeps hd (.advance m op.size) hadvance fun place hplace =>
      (hadvance.common place hplace).eq).perform (hd.advance op.size) rfl hfits hstep hstep' halike
        hcommon

end Twins

/-- **A step of one machine takes the history of the variables along.** It is the step of the
machine and its own twin. -/
theorem Tracked.step (ht : Tracked home h m) (hs : Sound maps m) (hstep : step m = .ok () m₁) :
    ∃ home', Extends home home' ∧ Tracked home' (h.after m.event) m₁ := by
  obtain ⟨home', hext, htwins⟩ := ht.twins.step hs hstep hstep (.refl m₁) fun _ _ => rfl
  exact ⟨home', hext, htwins.tracked⟩

end

end Scriptlet.Machine
