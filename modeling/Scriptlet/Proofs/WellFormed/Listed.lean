import Mathlib.Data.List.Nodup
import Scriptlet.Proofs.Depth.Flow
import Scriptlet.Proofs.Layout.Compiled
import Scriptlet.Proofs.WellFormed

/-!
# The instructions of the parts of a layout

Every part of a layout consists of whole instructions, and between them they refer to each of its
constants once and make each of its function constants into a closure. A jump out of a part goes to
its end, or leaves the loop around it; all others go to an instruction of the part.

* **`Listed`** says this of a given list of instructions, with an arbitrary set of targets that
  leave the part. It is closed under putting parts in a row (`Listed.append`).
* **`Lists`** fixes that set to what can leave a part of a layout, and is what the induction on the
  syntax in `Scriptlet.Proofs.WellFormed.Instructions` shows.

Constants are counted by range. A part makes the constants between those that were there at its
start and at its end, so `functionsIn`, `closuresIn` and `referencesIn` are additive along a row of
parts and the two permutations of `Listed` can be put together like the instructions. -/

namespace Scriptlet

/-! ## Constants by range

Of functions, closures and references alike: what belongs to a range is what belongs to its two
halves, and a range of one constant has what that constant is or refers to. -/

/-- Whether a value is the code of a function. -/
def Value.isCompiled : Value → Bool
  | .compiled _ _ => true
  | _ => false

/-- The constants from `first` to `last` that are functions. -/
def functionsIn (constants : Array Value) (first last : Nat) : List Nat :=
  (List.range' first (last - first)).filter fun j => constants[j]?.any Value.isCompiled

/-- The constant that an item of code refers to. -/
def Item.reference? : Item → Option Nat
  | .instruction .constant (index :: _) | .instruction .closure (index :: _) => some index
  | _ => none

theorem Item.made?_of_reference? {item : Item} (h : item.reference? = none) :
    item.made? = none := by
  unfold Item.made?
  split
  · cases h
  · rfl

/-- The constants that code refers to. -/
def Code.references (code : Code) : List Nat :=
  (code.items?.getD []).filterMap fun (_, item) => item.reference?

/-- The constants that the code of a function refers to. -/
def Value.references : Value → List Nat
  | .compiled _ fn => fn.code.references
  | _ => []

/-- The constants that the functions from `first` to `last` refer to. -/
def referencesIn (constants : Array Value) (first last : Nat) : List Nat :=
  (constants.extract first last).toList.flatMap Value.references

/-- The constants that closures are made of in the functions from `first` to `last`. -/
def closuresIn (constants : Array Value) (first last : Nat) : List Nat :=
  (constants.extract first last).toList.flatMap Value.closures

section Constants

variable (constants : Array Value) {first mid last : Nat}

theorem range_append (h : first ≤ mid) (h' : mid ≤ last) :
    List.range' first (mid - first) ++ List.range' mid (last - mid)
      = List.range' first (last - first) := by
  conv => lhs; arg 2; rw [show mid = first + (mid - first) from by omega]
  rw [List.range'_append_1]
  congr 1
  omega

theorem functionsIn_append (h : first ≤ mid) (h' : mid ≤ last) :
    functionsIn constants first mid ++ functionsIn constants mid last
      = functionsIn constants first last := by
  rw [functionsIn, functionsIn, ← List.filter_append, range_append h h']
  rfl

theorem referencesIn_append (h : first ≤ mid) (h' : mid ≤ last) :
    referencesIn constants first mid ++ referencesIn constants mid last
      = referencesIn constants first last := by
  rw [referencesIn, referencesIn, ← List.flatMap_append, ← Array.toList_append,
    Array.extract_append_extract, Nat.min_eq_left h, Nat.max_eq_right h']
  rfl

theorem closuresIn_append (h : first ≤ mid) (h' : mid ≤ last) :
    closuresIn constants first mid ++ closuresIn constants mid last
      = closuresIn constants first last := by
  rw [closuresIn, closuresIn, ← List.flatMap_append, ← Array.toList_append,
    Array.extract_append_extract, Nat.min_eq_left h, Nat.max_eq_right h']
  rfl

theorem functionsIn_self (j : Nat) : functionsIn constants j j = [] := by
  rw [functionsIn, Nat.sub_self]
  rfl

theorem referencesIn_self (j : Nat) : referencesIn constants j j = [] := by
  rw [referencesIn, Array.extract_eq_empty_of_le (Nat.min_le_left j constants.size)]
  rfl

theorem closuresIn_self (j : Nat) : closuresIn constants j j = [] := by
  rw [closuresIn, Array.extract_eq_empty_of_le (Nat.min_le_left j constants.size)]
  rfl

variable {constants} {j : Nat} {value : Value}

theorem functionsIn_single (h : constants[j]? = some value) :
    functionsIn constants j (j + 1) = if value.isCompiled then [j] else [] := by
  rw [functionsIn, Nat.add_sub_cancel_left, List.range'_one, List.filter_cons, h]
  rfl

theorem referencesIn_single (h : constants[j]? = some value) :
    referencesIn constants j (j + 1) = value.references := by
  obtain ⟨hj, rfl⟩ := Array.getElem?_eq_some_iff.mp h
  rw [referencesIn, Array.extract_succ_right (Nat.lt_succ_self j) hj,
    Array.extract_eq_empty_of_le (Nat.min_le_left j constants.size)]
  simp

theorem closuresIn_single (h : constants[j]? = some value) :
    closuresIn constants j (j + 1) = value.closures := by
  obtain ⟨hj, rfl⟩ := Array.getElem?_eq_some_iff.mp h
  rw [closuresIn, Array.extract_succ_right (Nat.lt_succ_self j) hj,
    Array.extract_eq_empty_of_le (Nat.min_le_left j constants.size)]
  simp

theorem count_functionsIn (hfirst : first ≤ j) (hlast : j < last)
    (h : constants[j]? = some value) (hcompiled : value.isCompiled = true) :
    (functionsIn constants first last).count j = 1 := by
  refine List.count_eq_one_of_mem (.filter _ List.nodup_range') (List.mem_filter.mpr ⟨?_, ?_⟩)
  · exact List.mem_range'_1.mpr ⟨hfirst, by omega⟩
  · rw [h]
    exact hcompiled

end Constants

/-! ## Instructions of a part

The judgement on a list of instructions, and the two ways in which it is made: a single instruction,
and lists in a row. -/

/-- The constant that an instruction makes a closure of. -/
def Instruction.made? (i : Instruction) : Option Nat :=
  (Item.instruction i.op i.operands).made?

/-- The constant that an instruction refers to. -/
def Instruction.reference? (i : Instruction) : Option Nat :=
  (Item.instruction i.op i.operands).reference?

/-- What is referred to in two parts, by their own instructions and inside of their constants. -/
theorem perm_parts {own own' inner inner' all all' : List Nat} (h : (own ++ inner).Perm all)
    (h' : (own' ++ inner').Perm all') :
    ((own ++ own') ++ (inner ++ inner')).Perm (all ++ all') := by
  -- the constants of the first part stand behind the instructions of the second
  refine List.Perm.trans ?_ (h.append h')
  rw [List.append_assoc, List.append_assoc]
  refine List.Perm.append_left _ ?_
  rw [← List.append_assoc, ← List.append_assoc]
  exact List.Perm.append_right _ List.perm_append_comm

/-- A function becomes a constant itself, behind those that its code refers to. -/
theorem perm_function {own inner all : List Nat} (i : Nat) (h : (own ++ inner).Perm all) :
    ([i] ++ (inner ++ own)).Perm (all ++ [i]) :=
  List.perm_append_comm.trans (List.Perm.append_right [i] (List.perm_append_comm.trans h))

/-- Instructions that end with the return of a value. -/
def Returns (instrs : List Instruction) : Prop :=
  instrs.getLast?.map Instruction.op = some .returnValue

/-- **The code from `a` to `b` consists of the given instructions.** Jumps go to one of them or
leave the part, the functions made between the two points are well formed and become a closure once,
and each constant made there is referred to once.

The last two are permutations rather than counts. A function refers to constants as well, which have
been made before it: they are inside of it, so they count for the part in which it stands. -/
structure Listed (surroundings : Surroundings) (globals : Nat) (code : Code)
    (constants : Array Value) (leaves : Nat → Prop) (a b : Point) (instrs : List Instruction) :
    Prop where
  tiles : Tiles code a.position b.position instrs
  stored : ∀ i ∈ instrs, readBack i.op.widths i.operands = i.operands
  within : ∀ i ∈ instrs, i.Within surroundings globals constants
  jumps : ∀ i ∈ instrs, ∀ target, i.target? = some target → target ∈ starts instrs ∨ leaves target
  constants_le : a.constants ≤ b.constants
  functions : ∀ j, a.constants ≤ j → j < b.constants → ∀ id fn,
    constants[j]? = some (.compiled id fn) →
      fn.WellFormed surroundings.builtins globals constants
  made : (instrs.filterMap Instruction.made? ++ closuresIn constants a.constants b.constants).Perm
    (functionsIn constants a.constants b.constants)
  referred : (instrs.filterMap Instruction.reference?
    ++ referencesIn constants a.constants b.constants).Perm
      (List.range' a.constants (b.constants - a.constants))

section Listed

variable {surroundings : Surroundings} {globals : Nat} {code : Code} {constants : Array Value}
  {leaves leaves' : Nat → Prop} {a b m : Point} {instrs more : List Instruction}

/-- Code without instructions in which nothing is made. -/
theorem listed_nil (hposition : b.position = a.position) (hconstants : b.constants = a.constants) :
    Listed surroundings globals code constants leaves a b [] where
  tiles := hposition.symm
  stored _ h := absurd h List.not_mem_nil
  within _ h := absurd h List.not_mem_nil
  jumps _ h := absurd h List.not_mem_nil
  constants_le := Nat.le_of_eq hconstants.symm
  functions j hfirst hlast := absurd (hconstants ▸ hlast) (Nat.not_lt.mpr hfirst)
  made := by
    rw [hconstants, closuresIn_self, functionsIn_self]
    exact .nil
  referred := by
    rw [hconstants, referencesIn_self, Nat.sub_self]
    exact .nil

/-- **Two parts in a row.** All fields go through by concatenation, and the permutations by
`perm_parts`, which sorts what the parts refer to themselves from what their constants do. -/
theorem Listed.append (h : Listed surroundings globals code constants leaves a m instrs)
    (h' : Listed surroundings globals code constants leaves m b more) :
    Listed surroundings globals code constants leaves a b (instrs ++ more) where
  tiles := h.tiles.append h'.tiles
  stored i hi := (List.mem_append.mp hi).elim (h.stored i) (h'.stored i)
  within i hi := (List.mem_append.mp hi).elim (h.within i) (h'.within i)
  jumps i hi target htarget := by
    rw [mem_starts_append, or_assoc]
    rcases List.mem_append.mp hi with hi | hi
    · exact (h.jumps i hi target htarget).imp id .inr
    · exact .inr (h'.jumps i hi target htarget)
  constants_le := Nat.le_trans h.constants_le h'.constants_le
  functions j hfirst hlast id fn hfn := by
    rcases Nat.lt_or_ge j m.constants with hj | hj
    · exact h.functions j hfirst hj id fn hfn
    · exact h'.functions j hj hlast id fn hfn
  made := by
    rw [← closuresIn_append constants h.constants_le h'.constants_le,
      ← functionsIn_append constants h.constants_le h'.constants_le, List.filterMap_append]
    exact perm_parts h.made h'.made
  referred := by
    rw [← referencesIn_append constants h.constants_le h'.constants_le,
      ← range_append h.constants_le h'.constants_le, List.filterMap_append]
    exact perm_parts h.referred h'.referred

/-- A target where one of the instructions starts no longer leaves the part. This is how jumps
inside a condition or a loop are closed, once its parts are in a row. -/
theorem Listed.mono (h : Listed surroundings globals code constants leaves a b instrs)
    (hleaves : ∀ target, leaves target → target ∈ starts instrs ∨ leaves' target) :
    Listed surroundings globals code constants leaves' a b instrs where
  tiles := h.tiles
  stored := h.stored
  within := h.within
  jumps i hi target htarget := (h.jumps i hi target htarget).elim .inl (hleaves target)
  constants_le := h.constants_le
  functions := h.functions
  made := h.made
  referred := h.referred

variable (surroundings globals constants leaves) in
/-- A single instruction that refers to no constant. -/
theorem OpAt.listed {op : Op} {operands : List Nat} (h : OpAt code op operands a b)
    (hstored : readBack op.widths operands = operands)
    (hwithin : (Instruction.mk a.position op operands).Within surroundings globals constants)
    (hreference : (Item.instruction op operands).reference? = none)
    (hleaves : ∀ target, (Instruction.mk a.position op operands).target? = some target →
      leaves target) :
    Listed surroundings globals code constants leaves a b [⟨a.position, op, operands⟩] := by
  obtain ⟨hinstr, rfl⟩ := h
  constructor
  · exact ⟨rfl, hinstr, rfl⟩
  · rintro i hi
    obtain rfl := List.mem_singleton.mp hi
    exact hstored
  · rintro i hi
    obtain rfl := List.mem_singleton.mp hi
    exact hwithin
  · rintro i hi target htarget
    obtain rfl := List.mem_singleton.mp hi
    exact .inr (hleaves target htarget)
  -- no constant is made here, so both lists of constants are empty
  · exact Nat.le_refl _
  · exact fun j hfirst hlast => absurd hlast (Nat.not_lt.mpr hfirst)
  · show (List.filterMap Instruction.made? [_] ++ closuresIn constants a.constants a.constants).Perm
      (functionsIn constants a.constants a.constants)
    have hnone : Instruction.made? ⟨a.position, op, operands⟩ = none :=
      Item.made?_of_reference? hreference
    rw [closuresIn_self, functionsIn_self, List.filterMap_cons_none hnone]
    exact .nil
  · show (List.filterMap Instruction.reference? [_]
      ++ referencesIn constants a.constants a.constants).Perm
        (List.range' a.constants (a.constants - a.constants))
    have hnone : Instruction.reference? ⟨a.position, op, operands⟩ = none := hreference
    rw [referencesIn_self, Nat.sub_self, List.filterMap_cons_none hnone]
    exact .nil

end Listed

/-! ## Parts of a layout

`Listed` with the targets that a part of a layout can have, and rows of such parts. -/

/-- **Where a part of a layout stands**: between two points whose symbols denote places that exist.
It is known at the end of the whole and handed down to the parts, since symbols are only added on
the way. -/
structure Room (surroundings : Surroundings) (globals : Nat) (a b : Point) : Prop where
  max : surroundings.locals ≤ Compilation.maxLocals ∧ surroundings.free ≤ Compilation.maxLocals
  bounded : Symbols.Bounded surroundings.builtins a.symbols.tables
  bound : b.Bound surroundings
  named : topSlots b.symbols.tables ≤ globals

theorem Room.part {surroundings : Surroundings} {globals : Nat} {a b m n : Point}
    (h : Room surroundings globals a b) (hm : a.Reaches surroundings.builtins m)
    (hn : n.Reaches surroundings.builtins b) : Room surroundings globals m n :=
  ⟨h.max, hm.bounded h.bounded, hn.bound h.bound,
    Nat.le_trans hn.symbols.extends_.topSlots_le h.named⟩

/-- Where the jumps go that leave a part: to its end, if it has the value of a condition there, or
out of the innermost loop. -/
def Leaves (exit : Option Exit) (soft : Prop) (b : Point) (target : Nat) : Prop :=
  (soft ∧ target = b.position)
    ∨ ∃ e, exit = some e ∧ (target = e.onBreak ∨ target = e.onContinue)

/-- The code from `a` to `b` consists of instructions. They end with the return of a value if it
`returns`, and only if it is `soft` a jump leads to the end. -/
def Lists (surroundings : Surroundings) (globals : Nat) (code : Code) (constants : Array Value)
    (exit : Option Exit) (soft returns : Prop) (a b : Point) : Prop :=
  ∃ instrs, Listed surroundings globals code constants (Leaves exit soft b) a b instrs
    ∧ (returns → Returns instrs)

section Lists

variable {surroundings : Surroundings} {globals : Nat} {code : Code} {constants : Array Value}
  {exit : Option Exit} {soft soft' returns returns' : Prop} {a b m : Point}

theorem Lists.mono (h : Lists surroundings globals code constants exit soft returns a b)
    (hsoft : soft → soft') (hreturns : returns' → returns) :
    Lists surroundings globals code constants exit soft' returns' a b := by
  obtain ⟨instrs, hlisted, hlast⟩ := h
  exact ⟨instrs, hlisted.mono fun target h => .inr (h.imp (.imp_left hsoft) id),
    fun h => hlast (hreturns h)⟩

/-- The symbols at the points do not matter. -/
theorem Lists.withSymbols (symbols symbols' : Symbols)
    (h : Lists surroundings globals code constants exit soft returns (a.withSymbols symbols)
      (b.withSymbols symbols')) :
    Lists surroundings globals code constants exit soft returns a b := by
  obtain ⟨instrs, hl, hlast⟩ := h
  exact ⟨instrs, ⟨hl.tiles, hl.stored, hl.within, hl.jumps, hl.constants_le, hl.functions, hl.made,
    hl.referred⟩, hlast⟩

theorem lists_nil (hposition : b.position = a.position) (hconstants : b.constants = a.constants) :
    Lists surroundings globals code constants exit soft False a b :=
  ⟨[], listed_nil hposition hconstants, False.elim⟩

/-- **Two parts in a row.** A jump to the end of the first is a jump to the start of the second.
That must be an instruction, so either the second part has one or its end is the end of both. -/
theorem Lists.seq (h : Lists surroundings globals code constants exit soft returns a m)
    (h' : Lists surroundings globals code constants exit soft' returns' m b)
    (hnext : soft → m.position < b.position ∨ soft') :
    Lists surroundings globals code constants exit soft' returns' a b := by
  obtain ⟨instrs, hlisted, -⟩ := h
  obtain ⟨more, hmore, hlast⟩ := h'
  have hfirst : Listed surroundings globals code constants
      (fun target => target ∈ starts more ∨ Leaves exit soft' b target) a m instrs := by
    refine hlisted.mono fun target hleaves => .inr ?_
    rcases hleaves with ⟨hsoft, rfl⟩ | hexit
    · rcases Nat.eq_or_lt_of_le hmore.tiles.le with heq | hlt
      · have hsoft' := (hnext hsoft).resolve_left (Nat.not_lt.mpr (Nat.le_of_eq heq.symm))
        exact .inr (.inl ⟨hsoft', heq⟩)
      · exact .inl (hmore.tiles.start_mem hlt)
    · exact .inr (.inr hexit)
  refine ⟨instrs ++ more, (hfirst.append (hmore.mono fun _ h => .inr (.inr h))).mono ?_, ?_⟩
  · intro target htarget
    exact htarget.imp_left (mem_starts_right instrs)
  · intro hreturns
    have hsome := hlast hreturns
    rw [Returns] at hsome ⊢
    rw [List.getLast?_append, Option.map_or, hsome]
    rfl

/-- A part behind which no code stands. -/
theorem Lists.seq_nothing (h : Lists surroundings globals code constants exit soft returns a m)
    (h' : Lists surroundings globals code constants exit soft' returns' m b)
    (hposition : b.position = m.position) :
    Lists surroundings globals code constants exit soft returns a b := by
  obtain ⟨instrs, hlisted, hlast⟩ := h
  obtain ⟨more, hmore, -⟩ := h'
  obtain rfl : more = [] := by
    have htiles := hmore.tiles
    rw [hposition] at htiles
    exact htiles.eq_nil
  have hnothing : Listed surroundings globals code constants (Leaves exit soft b) m b [] :=
    { hmore with jumps := fun i hi => absurd hi List.not_mem_nil }
  have hfirst : Listed surroundings globals code constants (Leaves exit soft b) a m instrs := by
    refine hlisted.mono fun target hleaves => .inr ?_
    rwa [Leaves, hposition]
  have hboth := hfirst.append hnothing
  rw [List.append_nil] at hboth
  exact ⟨instrs, hboth, hlast⟩

/-- A single instruction that refers to no constant and is no jump. -/
theorem OpAt.lists {op : Op} {operands : List Nat} (h : OpAt code op operands a b)
    (hstored : readBack op.widths operands = operands)
    (hwithin : (Instruction.mk a.position op operands).Within surroundings globals constants)
    (hop : op ≠ .constant ∧ op ≠ .closure ∧ op ≠ .jump ∧ op ≠ .jumpNotTruthy)
    (hreturns : returns → op = .returnValue) :
    Lists surroundings globals code constants exit soft returns a b := by
  refine ⟨_, h.listed _ _ _ _ hstored hwithin ?_ fun target htarget => ?_, fun hr => ?_⟩
  · unfold Item.reference?
    split
    · rename_i heq
      cases heq
      exact absurd rfl hop.1
    · rename_i heq
      cases heq
      exact absurd rfl hop.2.1
    · rfl
  · unfold Instruction.target? at htarget
    split at htarget
    · rename_i heq _
      exact absurd heq hop.2.2.1
    · rename_i heq _
      exact absurd heq hop.2.2.2
    · cases htarget
  · rw [Returns, ← hreturns hr]
    rfl

/-- An instruction without operands. -/
theorem OpAt.lists_plain {op : Op} (h : OpAt code op [] a b) (hwidths : op.widths = [])
    (hreturns : returns → op = .returnValue) :
    Lists surroundings globals code constants exit soft returns a b := by
  refine h.lists ?_ ?_ ?_ hreturns
  · rw [hwidths]
    rfl
  · cases op <;> first | rfl | cases hwidths
  · refine ⟨?_, ?_, ?_, ?_⟩
    all_goals
      rintro rfl
      cases hwidths

/-- An instruction with one operand that its bytes have room for. -/
theorem OpAt.lists_one {op : Op} {w n : Nat} (h : OpAt code op [n] a b)
    (hwidths : op.widths = [w]) (hn : n < 256 ^ w)
    (hwithin : (Instruction.mk a.position op [n]).Within surroundings globals constants)
    (hop : op ≠ .constant ∧ op ≠ .jump ∧ op ≠ .jumpNotTruthy) :
    Lists surroundings globals code constants exit soft False a b := by
  refine h.lists ?_ hwithin ⟨hop.1, ?_, hop.2⟩ False.elim
  · rw [hwidths, readBack, readBack, Nat.mod_eq_of_lt hn]
  · rintro rfl
    cases hwidths

/-! ## Instructions of the layout

Single instructions and what the layout makes of them. Each has operands that are read back as they
were written, since the layout bounds them. -/

/-- **A constant is loaded right where it is made**, so it is the one constant of this part and is
referred to by its one instruction. -/
theorem ConstAt.lists {value : Value} (h : ConstAt code constants value a b)
    (hvalue : value.isCompiled = false) :
    Lists surroundings globals code constants exit soft False a b := by
  obtain ⟨hmax, hconst, hinstr, rfl⟩ := h
  have hsize := (Array.getElem?_eq_some_iff.mp hconst).1
  have hnext : (a.addConstant.skip Op.constant.size).constants = a.constants + 1 := rfl
  refine ⟨[⟨a.position, .constant, [a.constants]⟩], ?_, False.elim⟩
  constructor
  case tiles => exact ⟨rfl, hinstr, rfl⟩
  case stored =>
    intro i hi
    obtain rfl := List.mem_singleton.mp hi
    exact congrArg (fun n => [n]) (Nat.mod_eq_of_lt hmax)
  case within =>
    intro i hi
    obtain rfl := List.mem_singleton.mp hi
    exact hsize
  case jumps =>
    intro i hi target htarget
    obtain rfl := List.mem_singleton.mp hi
    cases htarget
  case constants_le => exact Nat.le_succ _
  case functions =>
    intro j hfirst hlast id fn hfn
    obtain rfl : j = a.constants := Nat.le_antisymm (Nat.le_of_lt_succ hlast) hfirst
    obtain rfl := Option.some.inj (hconst.symm.trans hfn)
    cases hvalue
  -- the constant is no function, so it adds nothing on either side
  case made =>
    rw [hnext, closuresIn_single hconst, functionsIn_single hconst, hvalue]
    cases value <;> first | exact .nil | cases hvalue
  case referred =>
    rw [hnext, referencesIn_single hconst, Nat.add_sub_cancel_left, List.range'_one]
    cases value <;> first | exact .refl _ | cases hvalue

/-- The value of a symbol that is there. -/
theorem LoadAt.lists {symbol : Symbol} (h : LoadAt code symbol a b)
    (hroom : Room surroundings globals a b)
    (hsymbol : symbol.Within surroundings.builtins a.symbols.table a.symbols.outer) :
    Lists surroundings globals code constants exit soft False a b := by
  have hr := (LoadAt.reaches surroundings.builtins h).1
  have ha := hr.bound hroom.bound
  have hglobals := Nat.le_trans hr.symbols.extends_.topSlots_le hroom.named
  obtain ⟨name, kind, index⟩ := symbol
  cases kind with
  | global =>
    obtain ⟨hmax, hop⟩ := h
    exact hop.lists_one (w := 2) rfl hmax (Nat.lt_of_lt_of_le hsymbol hglobals) (by decide)
  | slot =>
    obtain ⟨houter, hindex⟩ := hsymbol
    have hlocals := Nat.lt_of_lt_of_le hindex (ha houter).1
    exact OpAt.lists_one (w := 1) h rfl (Nat.lt_of_lt_of_le hlocals hroom.max.1) hlocals
      (by decide)
  | builtin =>
    -- the index of a builtin function is written without a check, so it is listed as it is read
    -- back
    have hop : OpAt code .getBuiltin [index % 256 ^ 1] a b := ⟨h.1.readBack, h.2⟩
    exact hop.lists_one rfl (Nat.mod_lt _ (by decide))
      (Nat.lt_of_le_of_lt (Nat.mod_le _ _) hsymbol) (by decide)
  | free =>
    obtain ⟨houter, hindex⟩ := hsymbol
    have hfree := Nat.lt_of_lt_of_le hindex (ha houter).2
    exact OpAt.lists_one (w := 1) h rfl (Nat.lt_of_lt_of_le hfree hroom.max.2) hfree
      (by decide)

/-- A store to a symbol that is there. -/
theorem StoreAt.lists {symbol : Symbol} (h : StoreAt code symbol a b)
    (hroom : Room surroundings globals a b)
    (hsymbol : symbol.Within surroundings.builtins a.symbols.table a.symbols.outer) :
    Lists surroundings globals code constants exit soft False a b ∧ a.position < b.position := by
  have hr := StoreAt.reaches surroundings.builtins h
  have ha := hr.bound hroom.bound
  have hglobals := Nat.le_trans hr.symbols.extends_.topSlots_le hroom.named
  obtain ⟨name, kind, index⟩ := symbol
  cases kind with
  | global =>
    obtain ⟨hmax, hop⟩ := h
    exact ⟨hop.lists_one (w := 2) rfl hmax (Nat.lt_of_lt_of_le hsymbol hglobals) (by decide),
      (hop.reaches 0).2⟩
  | slot =>
    obtain ⟨houter, hindex⟩ := hsymbol
    have hlocals := Nat.lt_of_lt_of_le hindex (ha houter).1
    obtain ⟨hmax, hop⟩ := h
    exact ⟨hop.lists_one (w := 1) rfl hmax hlocals (by decide), (hop.reaches 0).2⟩
  | free =>
    obtain ⟨houter, hindex⟩ := hsymbol
    have hfree := Nat.lt_of_lt_of_le hindex (ha houter).2
    exact ⟨OpAt.lists_one (w := 1) h rfl (Nat.lt_of_lt_of_le hfree hroom.max.2) hfree
      (by decide), (OpAt.reaches 0 h).2⟩
  | builtin =>
    -- the built-in function is hidden by a new global
    obtain ⟨hmax, hop⟩ := h
    have hcover := Nat.lt_of_lt_of_le (Symbols.defineGlobal_index_lt a.symbols name)
      (Nat.le_trans (hop.reaches surroundings.builtins).1.symbols.extends_.topSlots_le hroom.named)
    have hlists : Lists surroundings globals code constants exit soft False (a.withSymbols _) b :=
      hop.lists_one (w := 2) rfl hmax hcover (by decide)
    exact ⟨hlists.withSymbols _ b.symbols, (hop.reaches 0).2⟩

theorem PopsAt.lists {count : Nat} (h : PopsAt code count a b) :
    Lists surroundings globals code constants exit False False a b := by
  induction count generalizing a with
  | zero =>
    obtain rfl : b = a := h
    exact lists_nil rfl rfl
  | succ count ih =>
    obtain ⟨m, hop, hrest⟩ := h
    have hpop : Lists surroundings globals code constants exit False False a m :=
      hop.lists_plain rfl False.elim
    exact hpop.seq (ih hrest) False.elim

/-- A jump out of the innermost loop leaves the part. -/
theorem ExitAt.lists {target : Exit → Nat} {d : Nat} (h : ExitAt code target exit d a b)
    (htarget : ∀ e, target e = e.onBreak ∨ target e = e.onContinue) :
    Lists surroundings globals code constants exit False False a b := by
  obtain ⟨e, m, rfl, hpops, hop, hword⟩ := h
  have hjump : Lists surroundings globals code constants (some e) False False m b := by
    refine ⟨_, hop.listed _ _ _ _ ?_ rfl rfl fun t ht => ?_, False.elim⟩
    · exact congrArg (fun n => [n]) (Nat.mod_eq_of_lt (Nat.lt_succ_of_le hword))
    · obtain rfl := Option.some.inj ht
      exact .inr ⟨e, rfl, htarget e⟩
  exact hpops.lists.seq hjump False.elim

/-- What becomes of the value of a statement. -/
theorem EndAt.lists {ending : Ending} (h : EndAt code ending m b)
    (hvalue : Lists surroundings globals code constants exit soft False a m) :
    Lists surroundings globals code constants exit (ending = .keep ∧ soft) (ending = .give)
      a b := by
  cases ending with
  | drop =>
    have hop : OpAt code .pop [] m b := h
    exact hvalue.seq (hop.lists_plain rfl (fun h => by cases h)) fun _ => .inl (hop.reaches 0).2
  | keep =>
    obtain rfl : b = m := h
    exact hvalue.mono (fun hsoft => ⟨rfl, hsoft⟩) (fun h => by cases h)
  | give =>
    have hop : OpAt code .returnValue [] m b := h
    exact hvalue.seq (hop.lists_plain rfl fun _ => rfl) fun _ => .inl (hop.reaches 0).2

/-! ## Functions, conditions and loops

A function has code of its own, which is a row of instructions without anything that leaves it.
Conditions and loops are rows with jumps between their parts. -/

theorem BranchAt.lists {closing : Closing} {body : Ending → Point → Point → Prop}
    (hroom : Room surroundings globals a b)
    (hbody : ∀ ending m, body ending a m → a.Reaches surroundings.builtins m
      ∧ (Room surroundings globals a m →
        Lists surroundings globals code constants exit (ending = .keep) False a m))
    (h : BranchAt code closing body a b) :
    Lists surroundings globals code constants exit True False a b := by
  unfold BranchAt at h
  split at h
  · exact ((hbody .keep b h).2 hroom).mono (fun _ => trivial) id
  · obtain ⟨m, hm, hop⟩ := h
    have hr := (hop.reaches surroundings.builtins).1
    exact ((hbody .drop m hm).2 (hroom.part (.refl _ a) hr)).seq
      (hop.lists_plain rfl False.elim) (fun h => by cases h)

/-- Nothing leaves a part that ends in no value and lies in no loop. -/
theorem Lists.closed (h : Lists surroundings globals code constants none False returns a b) :
    ∃ instrs, Listed surroundings globals code constants (fun _ => False) a b instrs
      ∧ (returns → Returns instrs) := by
  obtain ⟨instrs, hlisted, hlast⟩ := h
  refine ⟨instrs, hlisted.mono fun target hleaves => ?_, hlast⟩
  rcases hleaves with ⟨hsoft, -⟩ | ⟨e, he, -⟩
  · exact .inr hsoft
  · cases he

/-- Instructions that end with a return. -/
theorem Returns.last {instrs : List Instruction} (h : Returns instrs) :
    ∃ i, instrs.getLast? = some i ∧ (i.op = .returnValue ∨ i.op = .returnNull) := by
  obtain ⟨i, hi, hop⟩ := Option.map_eq_some_iff.mp h
  exact ⟨i, hi, .inl hop⟩

/-- **The code of a function ends with a return.** Either its last statement has a value, which is
returned, or it returns by itself, or `null` is returned behind it. -/
theorem BodyAt.listed {closing : Closing} {body : Ending → Point → Point → Prop}
    (hroom : Room surroundings globals a b)
    (hbody : ∀ ending m, body ending a m → a.Reaches surroundings.builtins m
      ∧ (Room surroundings globals a m →
        Lists surroundings globals code constants none (ending = .keep)
          (closing = .returned ∨ closing = .value ∧ ending = .give) a m))
    (h : BodyAt code closing body a b) :
    ∃ instrs, Listed surroundings globals code constants (fun _ => False) a b instrs
      ∧ ∃ i, instrs.getLast? = some i ∧ (i.op = .returnValue ∨ i.op = .returnNull) := by
  unfold BodyAt at h
  split at h
  · obtain ⟨instrs, hlisted, hlast⟩ := (((hbody .give b h).2 hroom).mono
      (fun h => by cases h) fun _ : True => .inr ⟨rfl, rfl⟩).closed
    exact ⟨instrs, hlisted, (hlast trivial).last⟩
  · obtain ⟨instrs, hlisted, hlast⟩ := (((hbody .drop b h).2 hroom).mono
      (fun h => by cases h) fun _ : True => .inl rfl).closed
    exact ⟨instrs, hlisted, (hlast trivial).last⟩
  · obtain ⟨m, hm, hop⟩ := h
    have hr := (hop.reaches surroundings.builtins).1
    obtain ⟨instrs, hlisted, -⟩ := (((hbody .drop m hm).2 (hroom.part (.refl _ a) hr)).mono
      (fun h => by cases h) fun h : False => h.elim).closed
    have hreturn := hop.listed surroundings globals constants (fun _ => False) rfl rfl rfl
      fun _ h => by cases h
    exact ⟨_, hlisted.append hreturn, _, List.getLast?_concat, .inr rfl⟩

/-- Instructions that make up a whole code. -/
theorem Listed.wellFormed {instrs : List Instruction}
    (h : Listed surroundings globals code constants (fun _ => False) a b instrs)
    (ha : a.position = 0) (hb : b.position = code.size) :
    Code.WellFormed surroundings globals constants code instrs
      ∧ code.closures = instrs.filterMap Instruction.made? := by
  have htiles := h.tiles
  rw [ha, hb] at htiles
  have hitems := htiles.items?_eq h.stored
  refine ⟨⟨hitems, fun i hi target htarget => (h.jumps i hi target htarget).resolve_right id,
    h.within⟩, ?_⟩
  rw [Code.closures, hitems, Option.getD_some, List.filterMap_map]
  rfl

theorem Code.WellFormed.references_eq {instrs : List Instruction}
    (h : Code.WellFormed surroundings globals constants code instrs) :
    code.references = instrs.filterMap Instruction.reference? := by
  rw [Code.references, h.decodes, Option.getD_some, List.filterMap_map]
  rfl

/-- **The code of a function stands among its own locals and captured variables**, and knows no more
global names than the code around it knows behind the function. -/
theorem Room.inFunction {params : List String} {fn : FunctionCode} {inner after : Symbols}
    {first i : Nat} (hroom : Room surroundings globals a b)
    (hslots : fn.locals = inner.slots) (hlocals : fn.locals ≤ Compilation.maxLocals)
    (hcaptures : fn.captures = inner.captured.map Compilation.captureOf)
    (hcount : fn.captures.length < Compilation.maxLocals)
    (hleave : inner.leaveFunction? = some after)
    (hafter : Symbols.Evolves surroundings.builtins after b.symbols) :
    Room ⟨surroundings.builtins, fn.locals, fn.captures.length⟩ globals
      ⟨0, a.symbols.enterFunction.defineAll params, first⟩ ⟨fn.code.size, inner, i⟩ := by
  have hbefore := Symbols.defineAll_evolves surroundings.builtins a.symbols.enterFunction params
  refine ⟨⟨hlocals, Nat.le_of_lt hcount⟩,
    hbefore.bounded (Symbols.bounded_enterFunction hroom.bounded), fun _ => ⟨?_, ?_⟩, ?_⟩
  · exact Nat.le_of_eq hslots.symm
  · show inner.table.captured.size ≤ fn.captures.length
    rw [hcaptures, List.length_map]
    exact Nat.le_of_eq Array.length_toList.symm
  · show topSlots inner.tables ≤ globals
    rw [Symbols.leaveFunction_topSlots hleave]
    exact Nat.le_trans hafter.extends_.topSlots_le hroom.named

/-- **The instruction that makes a closure** refers to the constant that the function has become,
and what the function refers to itself are the constants before that one. -/
theorem OpAt.listed_closure {leaves : Nat → Prop} {i : Nat} {id : Identity} {fn : FunctionCode}
    {after symbols symbols' : Symbols} {instrs : List Instruction}
    (h : OpAt code .closure [i, fn.captures.length] ⟨a.position, after, i + 1⟩ b)
    (hi : i < Compilation.maxConstants) (hcount : fn.captures.length < Compilation.maxLocals)
    (hconst : constants[i]? = some (.compiled id fn))
    (hcaptures : ∀ capture ∈ fn.captures, capture.Within surroundings)
    (hlisted : Listed ⟨surroundings.builtins, fn.locals, fn.captures.length⟩ globals fn.code
      constants (fun _ => False) ⟨0, symbols, a.constants⟩ ⟨fn.code.size, symbols', i⟩ instrs)
    (hlast : ∃ i, instrs.getLast? = some i ∧ (i.op = .returnValue ∨ i.op = .returnNull)) :
    Listed surroundings globals code constants leaves a b
      [⟨a.position, .closure, [i, fn.captures.length]⟩] := by
  obtain ⟨hcodes, hclosures⟩ := hlisted.wellFormed rfl rfl
  have hle : a.constants ≤ i := hlisted.constants_le
  have hnext : i ≤ i + 1 := Nat.le_succ i
  obtain ⟨hinstr, rfl⟩ := h
  constructor
  case tiles => exact ⟨rfl, hinstr, rfl⟩
  case stored =>
    intro j hj
    obtain rfl := List.mem_singleton.mp hj
    exact congrArg₂ (fun index count => [index, count]) (Nat.mod_eq_of_lt hi)
      (Nat.mod_eq_of_lt hcount)
  case within =>
    intro j hj
    obtain rfl := List.mem_singleton.mp hj
    exact ⟨id, fn, hconst, rfl, hcaptures⟩
  case jumps =>
    intro j hj target htarget
    obtain rfl := List.mem_singleton.mp hj
    cases htarget
  case constants_le => exact Nat.le_succ_of_le hle
  case functions =>
    -- the constants before the function are those of its own code; the last one is the function
    intro j hfirst hlastj id' fn' hfn
    rcases Nat.lt_or_ge j i with hj | hj
    · exact hlisted.functions j hfirst hj id' fn' hfn
    · obtain rfl : j = i := Nat.le_antisymm (Nat.le_of_lt_succ hlastj) hj
      cases hconst.symm.trans hfn
      exact ⟨instrs, hcodes, hlast⟩
  case made =>
    -- both sides gain the constant `i` itself, and the function's own part of them agrees already
    show ([i] ++ closuresIn constants a.constants (i + 1)).Perm
      (functionsIn constants a.constants (i + 1))
    rw [← closuresIn_append constants hle hnext, ← functionsIn_append constants hle hnext,
      closuresIn_single hconst, functionsIn_single hconst]
    have hmade : (fn.code.closures ++ closuresIn constants a.constants i).Perm
        (functionsIn constants a.constants i) := by
      rw [hclosures]
      exact hlisted.made
    exact perm_function i hmade
  case referred =>
    show ([i] ++ referencesIn constants a.constants (i + 1)).Perm
      (List.range' a.constants (i + 1 - a.constants))
    rw [← referencesIn_append constants hle hnext, ← range_append hle hnext,
      referencesIn_single hconst, Nat.add_sub_cancel_left, List.range'_one]
    have hreferred : (fn.code.references ++ referencesIn constants a.constants i).Perm
        (List.range' a.constants (i - a.constants)) := by
      rw [hcodes.references_eq]
      exact hlisted.referred
    exact perm_function i hreferred

/-- **A function.** From outside it is the one instruction that makes the closure; the constants of
its body are counted as made and referred to inside. -/
theorem FunctionAt.lists {params : List String} {body : List Stmt}
    (hroom : Room surroundings globals a b)
    (hbody : ∀ (inside : Surroundings) code ending a b,
      StmtsAt code constants none ending 0 body a b → Room inside globals a b →
      Lists inside globals code constants none (ending = .keep)
        (Stmt.closingList body = .returned ∨ Stmt.closingList body = .value ∧ ending = .give) a b)
    (h : FunctionAt code constants params (fun code => BodyAt code (Stmt.closingList body)
      fun ending a b => StmtsAt code constants none ending 0 body a b) a b) :
    Lists surroundings globals code constants exit soft False a b := by
  obtain ⟨i, id, fn, inner, hi, hconst, hcode, hslots, hlocals, -, hcaptures, hcount, after, hleave,
    hop⟩ := h
  have hbefore := Symbols.defineAll_evolves surroundings.builtins a.symbols.enterFunction params
  have hinner := (BodyAt.reaches surroundings.builtins
    (fun _ _ h => StmtsAt.reaches _ body h) hcode).symbols
  have hafter := (hop.reaches surroundings.builtins).1
  -- what is left when the body is compiled bounds all indices inside of it
  have hinside : Room ⟨surroundings.builtins, fn.locals, fn.captures.length⟩ globals
      ⟨0, a.symbols.enterFunction.defineAll params, a.constants⟩ ⟨fn.code.size, inner, i⟩ :=
    hroom.inFunction hslots hlocals hcaptures hcount hleave hafter.symbols
  have hwithin : ∀ capture ∈ fn.captures, capture.Within surroundings := by
    rw [hcaptures]
    exact captures_within (hbefore.trans hinner) hleave hroom.bounded (hafter.bound hroom.bound)
  obtain ⟨instrs, hlisted, hlast⟩ := BodyAt.listed hinside
    (fun ending m hm => ⟨StmtsAt.reaches _ body hm, hbody _ fn.code ending _ m hm⟩) hcode
  exact ⟨_, hop.listed_closure hi hcount hconst hwithin hlisted hlast, False.elim⟩

variable (surroundings globals constants) in
/-- A jump whose target is known. -/
theorem OpAt.listed_jump (leaves : Nat → Prop) {op : Op} {target : Nat}
    (h : OpAt code op [target] a b) (hop : op = .jump ∨ op = .jumpNotTruthy)
    (hword : target ≤ Compilation.maxWord) (hleaves : leaves target) :
    Listed surroundings globals code constants leaves a b [⟨a.position, op, [target]⟩] := by
  have hstored : readBack [2] [target] = [target] :=
    congrArg (fun n => [n]) (Nat.mod_eq_of_lt (Nat.lt_succ_of_le hword))
  rcases hop with rfl | rfl
  all_goals
    refine h.listed _ _ _ _ hstored rfl rfl fun t ht => ?_
    obtain rfl := Option.some.inj ht
    exact hleaves

/-- **A condition.** There are two jumps, from the test to the second branch and from behind the
first branch to the end; both branches have code, so both targets are instructions or the end. -/
theorem CondAt.lists {test yes no : Point → Point → Prop} (hroom : Room surroundings globals a b)
    (htest : ∀ m, test a m → a.Reaches surroundings.builtins m
      ∧ (Room surroundings globals a m →
        Lists surroundings globals code constants exit True False a m))
    (hyes : ∀ m n, yes m n → m.Reaches surroundings.builtins n
      ∧ (Room surroundings globals m n →
        Lists surroundings globals code constants exit True False m n))
    (hno : ∀ m n, no m n → m.Reaches surroundings.builtins n
      ∧ (Room surroundings globals m n →
        Lists surroundings globals code constants exit True False m n))
    (h : CondAt code test yes no a b) :
    Lists surroundings globals code constants exit True False a b := by
  obtain ⟨m, n, ht, hleave, hy, hjump, hword, hword', hn⟩ := h
  obtain ⟨ham, htest⟩ := htest m ht
  obtain ⟨hmn, hyes⟩ := hyes _ _ hy
  obtain ⟨hnb, hno⟩ := hno _ _ hn
  have hm := (hleave.reaches surroundings.builtins).1
  have hn := (hjump.reaches surroundings.builtins).1
  have hb := hn.trans hnb
  obtain ⟨first, hfirst, -⟩ := htest (hroom.part (.refl _ a) (hm.trans (hmn.trans hb)))
  obtain ⟨then_, hthen, -⟩ := hyes (hroom.part (ham.trans hm) hb)
  obtain ⟨else_, helse, -⟩ := hno (hroom.part (ham.trans (hm.trans (hmn.trans hn))) (.refl _ b))
  -- all parts are put together first, then the jumps between them are looked at
  let leaves : Nat → Prop := fun target => Leaves exit True b target ∨ target = m.position
    ∨ target = n.position ∨ target = n.position + Op.jump.size
  have hend : ∀ (p : Point) (target : Nat), Leaves exit True p target →
      Leaves exit True b target ∨ target = p.position := by
    rintro p target (⟨-, htarget⟩ | hexit)
    · exact .inr htarget
    · exact .inl (.inr hexit)
  have hlast : Listed surroundings globals code constants leaves (n.skip Op.jump.size) b else_ :=
    helse.mono fun target h => .inr (.inl h)
  have hjumps := hjump.listed_jump surroundings globals constants leaves (.inl rfl) hword'
    (.inl (.inl ⟨trivial, rfl⟩))
  have hyes : Listed surroundings globals code constants leaves (m.skip Op.jumpNotTruthy.size) n
      then_ := hthen.mono fun target h => .inr ((hend n target h).imp_right fun h => .inr (.inl h))
  have hleaves := hleave.listed_jump surroundings globals constants leaves (.inr rfl) hword
    (.inr (.inr (.inr rfl)))
  have htests : Listed surroundings globals code constants leaves a m first :=
    hfirst.mono fun target h => .inr ((hend m target h).imp_right .inl)
  have htail := hjumps.append hlast
  have hbody := hleaves.append (hyes.append htail)
  refine ⟨_, (htests.append hbody).mono fun target htarget => ?_, False.elim⟩
  have hpos := Op.jump.size_pos
  have hpos' := Op.jumpNotTruthy.size_pos
  have hle : m.position + Op.jumpNotTruthy.size ≤ n.position := hmn.position
  have hle' : n.position + Op.jump.size ≤ b.position := hnb.position
  rcases htarget with hout | rfl | rfl | rfl
  · exact .inr hout
  · exact .inl (mem_starts_right _ (hbody.tiles.start_mem (by omega)))
  · have hmem := htail.tiles.start_mem (by omega)
    exact .inl (mem_starts_right _ (mem_starts_right _ (mem_starts_right _ hmem)))
  · rcases Nat.eq_or_lt_of_le hle' with heq | hlt
    · exact .inr (.inl ⟨trivial, heq⟩)
    · have hmem := hlast.tiles.start_mem hlt
      exact .inl (mem_starts_right _ (mem_starts_right _ (mem_starts_right _
        (mem_starts_right _ hmem))))

/-- **A loop.** Every jump in it leads to the start of one of its parts: back to the test, out of
the test and by `break` to the `null` behind the loop, and by `continue` to the last part of the
head. -/
theorem LoopAt.lists {init test post : Point → Point → Prop}
    {body : (onBreak onContinue : Nat) → Point → Point → Prop} (depth : Nat)
    (hroom : Room surroundings globals a b)
    (hinit : ∀ m, init a m → a.Reaches surroundings.builtins m
      ∧ (Room surroundings globals a m →
        Lists surroundings globals code constants exit False False a m))
    (htest : ∀ m n, test m n → m.Reaches surroundings.builtins n
      ∧ (Room surroundings globals m n →
        Lists surroundings globals code constants exit True False m n))
    (hbody : ∀ onBreak onContinue m n, body onBreak onContinue m n →
      m.Reaches surroundings.builtins n ∧ (Room surroundings globals m n →
        Lists surroundings globals code constants (some ⟨depth, onBreak, onContinue⟩) False False
          m n))
    (hpost : ∀ m n, post m n → m.Reaches surroundings.builtins n
      ∧ (Room surroundings globals m n →
        Lists surroundings globals code constants exit False False m n))
    (h : LoopAt code init test post body a b) :
    Lists surroundings globals code constants exit False False a b := by
  obtain ⟨m₁, m₂, m₃, m₄, h₁, h₂, hleave, h₃, h₄, hback, hstart, hword, hnull⟩ := h
  obtain ⟨hr₁, hinit⟩ := hinit m₁ h₁
  obtain ⟨hr₂, htest⟩ := htest m₁ m₂ h₂
  obtain ⟨hr₃, hbody⟩ := hbody _ _ _ _ h₃
  obtain ⟨hr₄, hpost⟩ := hpost m₃ m₄ h₄
  have hrl := (hleave.reaches surroundings.builtins).1
  have hrb := (hback.reaches surroundings.builtins).1
  have hrn := hnull.reaches surroundings.builtins
  have hb₄ := hrb.trans hrn.1
  have hb₃ := hr₄.trans hb₄
  have hb₂ := hrl.trans (hr₃.trans hb₃)
  have hal := (hr₁.trans hr₂).trans hrl
  obtain ⟨first, hfirst, -⟩ := hinit (hroom.part (.refl _ a) (hr₂.trans hb₂))
  obtain ⟨tests, htests, -⟩ := htest (hroom.part hr₁ hb₂)
  obtain ⟨rounds, hrounds, -⟩ := hbody (hroom.part hal hb₃)
  obtain ⟨next, hnext, -⟩ := hpost (hroom.part (hal.trans hr₃) hb₄)
  let leaves : Nat → Prop := fun target => Leaves exit False b target ∨ target = m₁.position
    ∨ target = m₂.position ∨ target = m₃.position ∨ target = m₄.position + Op.jump.size
  -- what leaves the loop as a whole, the targets of the loop around it, leaves each part as well
  have hout : ∀ (p : Point) (target : Nat), Leaves exit False p target →
      Leaves exit False b target := by
    rintro p target (⟨hsoft, -⟩ | hexit)
    · exact hsoft.elim
    · exact .inr hexit
  have hnulls := hnull.listed surroundings globals constants leaves rfl rfl rfl
    fun _ h => by cases h
  have hbacks := hback.listed_jump surroundings globals constants leaves (.inl rfl) hstart
    (.inr (.inl rfl))
  have hposts : Listed surroundings globals code constants leaves m₃ m₄ next :=
    hnext.mono fun target h => .inr (.inl (hout m₄ target h))
  have hbodies : Listed surroundings globals code constants leaves
      (m₂.skip Op.jumpNotTruthy.size) m₃ rounds := by
    refine hrounds.mono fun target htarget => .inr ?_
    rcases htarget with ⟨hsoft, -⟩ | ⟨e, he, hbreak | hcontinue⟩
    · exact hsoft.elim
    · cases he
      exact .inr (.inr (.inr (.inr hbreak)))
    · cases he
      exact .inr (.inr (.inr (.inl hcontinue)))
  have hleaves := hleave.listed_jump surroundings globals constants leaves (.inr rfl) hword
    (.inr (.inr (.inr (.inr rfl))))
  have htested : Listed surroundings globals code constants leaves m₁ m₂ tests := by
    refine htests.mono fun target htarget => .inr ?_
    rcases htarget with ⟨-, heq⟩ | hexit
    · exact .inr (.inr (.inl heq))
    · exact .inl (.inr hexit)
  have hinits : Listed surroundings globals code constants leaves a m₁ first :=
    hfirst.mono fun target h => .inr (.inl (hout m₁ target h))
  -- the parts are put in a row from the back to the front
  have hend := hbacks.append hnulls
  have hlast := hposts.append hend
  have hrest := hleaves.append (hbodies.append hlast)
  have hloop := htested.append hrest
  -- all targets that were left open are starts of one of the parts
  refine ⟨_, (hinits.append hloop).mono fun target htarget => ?_, False.elim⟩
  have hlt₂ : m₂.position < b.position :=
    Nat.lt_of_lt_of_le (hleave.reaches 0).2 (hr₃.trans hb₃).position
  have hlt₄ : m₄.position + Op.jump.size < b.position := hrn.2
  have hlt₁ : m₁.position < b.position := Nat.lt_of_le_of_lt hr₂.position hlt₂
  have hlt₃ : m₃.position < b.position :=
    Nat.lt_of_le_of_lt (Nat.le_trans hr₄.position (Nat.le_add_right _ _)) hlt₄
  rcases htarget with hleave | rfl | rfl | rfl | rfl
  · exact .inr hleave
  · exact .inl (mem_starts_right _ (hloop.tiles.start_mem hlt₁))
  · exact .inl (mem_starts_right _ (mem_starts_right _ (hrest.tiles.start_mem hlt₂)))
  · have hmem := hlast.tiles.start_mem hlt₃
    exact .inl (mem_starts_right _ (mem_starts_right _ (mem_starts_right _
      (mem_starts_right _ hmem))))
  · have hmem := hnulls.tiles.start_mem hlt₄
    exact .inl (mem_starts_right _ (mem_starts_right _ (mem_starts_right _
      (mem_starts_right _ (mem_starts_right _ (mem_starts_right _ hmem))))))

/-- A value is stored. -/
theorem lists_store {symbol : Symbol} {symbols : Symbols}
    (hvalue : Lists surroundings globals code constants exit True False a m)
    (ham : a.Reaches surroundings.builtins m) (hroom : Room surroundings globals a b)
    (hm : Symbols.Evolves surroundings.builtins m.symbols symbols)
    (hsymbol : symbol.Within surroundings.builtins symbols.table symbols.outer)
    (hstore : StoreAt code symbol (m.withSymbols symbols) b) :
    Lists surroundings globals code constants exit soft False a b := by
  have hrest := hroom.part (ham.trans (.withSymbols hm)) (.refl _ b)
  obtain ⟨hlists, hlt⟩ : Lists surroundings globals code constants exit soft False
      (m.withSymbols symbols) b ∧ m.position < b.position := hstore.lists hrest hsymbol
  exact hvalue.seq (hlists.withSymbols _ b.symbols) fun _ => .inl hlt

end Lists

end Scriptlet
