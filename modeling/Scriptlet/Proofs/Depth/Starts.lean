import Scriptlet.Proofs.Depth.Maps
import Scriptlet.Proofs.WellFormed.Instructions

/-!
# Depth maps of instructions

A depth map may be cut down to the positions where instructions start, and the end of the code:
execution that starts there stays there, since it goes on behind an instruction or at the target of
a jump (`Mapped.restrict`). Every executable of the compiler has such maps (`exists_startMaps`), so
the machine only ever executes the instructions that its code consists of.

A depth map by itself does not say so. It is about what execution reaches when it starts at the
front, and the layout it was made from does not tell whether two mapped positions lie in one
instruction.
-/

namespace Scriptlet

/-- **A map of the positions where instructions of a code start.** The instructions are those of any
list that the code consists of; there is only one. -/
def Depths.AtStarts (depths : Depths) (code : Code) : Prop :=
  ∀ instrs, Tiles code 0 code.size instrs →
    ∀ p d, p < code.size → depths p = some d → p ∈ starts instrs

/-- **Code that is a row of instructions**, whose jumps go to some of them. -/
structure Closed (code : Code) (instrs : List Instruction) : Prop where
  tiles : Tiles code 0 code.size instrs
  stored : ∀ i ∈ instrs, readBack i.op.widths i.operands = i.operands
  jumps : ∀ i ∈ instrs, ∀ target, i.target? = some target → target ∈ starts instrs

section Restrict

variable {exact : Prop} {surroundings : Surroundings} {code : Code} {constants : Array Value}
  {depths depths' : Depths} {instrs : List Instruction} {p d : Nat}

/-- An instruction fits as well on another map that has all positions where execution may go on. -/
theorem Fits.transfer {op : Op} {operands : List Nat}
    (hnext : ∀ k, Leads exact depths (p + op.size) k → Leads exact depths' (p + op.size) k)
    (hjump : ∀ target k, op = .jump ∨ op = .jumpNotTruthy → operands = [target] →
      target ≤ Compilation.maxWord → Leads exact depths target k → Leads exact depths' target k)
    (h : Fits exact surroundings constants depths p d op operands) :
    Fits exact surroundings constants depths' p d op operands := by
  unfold Fits at h
  split at h
  case h_1 => exact ⟨h.1, h.2.1, hnext _ h.2.2⟩
  case h_2 | h_3 | h_4 => exact hnext _ h
  case h_5 | h_6 | h_7 | h_8 | h_9 | h_10 | h_11 | h_12 | h_13 | h_14 | h_15 =>
    exact ⟨h.1, hnext _ h.2⟩
  -- the two jumps, the only instructions that go on anywhere else than behind themselves
  case h_16 =>
    exact ⟨h.1, hjump _ _ (.inl rfl) rfl h.1 h.2.1, fun hback => hnext _ (h.2.2 hback)⟩
  case h_17 =>
    exact ⟨h.1, h.2.1, hjump _ _ (.inr rfl) rfl h.1 h.2.2.1, hnext _ h.2.2.2⟩
  case h_18 => exact ⟨h.1, hnext _ h.2⟩
  case h_19 => exact ⟨h.1, h.2.1, hnext _ h.2.2⟩
  case h_20 | h_22 => exact ⟨h.1, h.2.1, hnext _ h.2.2⟩
  case h_21 | h_23 => exact ⟨h.1, h.2.1, h.2.2.1, hnext _ h.2.2.2⟩
  case h_24 => exact ⟨h.1, hnext _ h.2⟩
  case h_25 => exact ⟨h.1, h.2.1, hnext _ h.2.2⟩
  case h_26 => exact ⟨h.1, h.2.1, h.2.2.1, hnext _ h.2.2.2⟩
  case h_27 => exact ⟨h.1, h.2.1, hnext _ h.2.2⟩
  case h_28 => exact ⟨h.1, h.2.1, h.2.2.1, hnext _ h.2.2.2⟩
  -- the returns, which do not go on in this code
  case h_29 => exact h
  case h_30 => trivial
  case h_31 => exact absurd h id

/-- **A map may be cut down to the instructions.** What fits at such a position leads to others of
the kind, by one case for each way in which execution goes on. -/
theorem Mapped.restrict (h : Mapped exact surroundings code constants depths)
    (hclosed : Closed code instrs) :
    ∃ depths' : Depths, Mapped exact surroundings code constants depths'
      ∧ depths'.AtStarts code ∧ depths' code.size = depths code.size := by
  classical
  let depths' : Depths := fun p =>
    if p ∈ starts instrs ∨ p = code.size then depths p else none
  have hkept : ∀ p, p ∈ starts instrs ∨ p = code.size → depths' p = depths p :=
    fun p hp => if_pos hp
  have hinstr : ∀ p d, depths' p = some d →
      (p ∈ starts instrs ∨ p = code.size) ∧ depths p = some d := by
    intro p d hd
    by_cases hp : p ∈ starts instrs ∨ p = code.size
    · exact ⟨hp, (hkept p hp).symm.trans hd⟩
    · rw [show depths' p = none from if_neg hp] at hd
      cases hd
  have hleads : ∀ p k, p ∈ starts instrs ∨ p = code.size → Leads exact depths p k →
      Leads exact depths' p k := by
    intro p k hp hlead
    unfold Leads at hlead ⊢
    rwa [hkept p hp]
  refine ⟨depths', ⟨?_, fun p d hd => h.inside p d (hinstr p d hd).2, fun p d hp hd => ?_⟩,
    fun more hmore p d hp hd => ?_, hkept _ (.inr rfl)⟩
  · rw [hkept 0, h.start]
    rcases Nat.eq_zero_or_pos code.size with hzero | hpos
    · exact .inr hzero.symm
    · exact .inl (hclosed.tiles.start_mem hpos)
  · obtain ⟨hstart, hd⟩ := hinstr p d hd
    obtain ⟨i, hi, rfl⟩ := List.mem_map.mp (hstart.resolve_right (Nat.ne_of_lt hp))
    obtain ⟨op, operands, hat, hfits⟩ := h.fits _ d hp hd
    have hat' := hclosed.tiles.instrAt hi
    obtain rfl : i.op = op := hat'.op_eq hat
    refine ⟨i.op, operands, hat, hfits.transfer (fun k => hleads _ k (hclosed.tiles.next hi))
      fun target k hop hoperands hword => hleads _ k (.inl (hclosed.jumps i hi target ?_))⟩
    -- the target is read back as it stands in the row
    have hread := hat'.readBack_eq hat
    rw [hclosed.stored i hi, hoperands] at hread
    have hmod : target % 256 ^ 2 = target := Nat.mod_eq_of_lt (Nat.lt_succ_of_le hword)
    unfold Instruction.target?
    rcases hop with hop | hop
    all_goals
      rw [hop] at hread ⊢
      rw [hread]
      exact congrArg some hmod
  · rw [hmore.starts_eq hclosed.tiles]
    exact (hinstr p d hd).1.resolve_right (Nat.ne_of_lt hp)

end Restrict

/-- The code of a function is a row of instructions. -/
theorem FunctionCode.IsCompiled.closed {exact : Prop} {builtins : Nat} {constants : Array Value}
    {fn : FunctionCode} (h : fn.IsCompiled exact builtins constants) :
    ∃ instrs, Closed fn.code instrs := by
  obtain ⟨params, body, around, inner, h⟩ := h
  obtain ⟨first, last, hlaid⟩ := h.laid
  have hcaptured := h.captured
  rw [Symbols.captured, Array.length_toList] at hcaptured
  have hroom : Room ⟨builtins, fn.locals, fn.captures.length⟩ (topSlots inner.tables)
      ⟨0, around.enterFunction.defineAll params, first⟩ ⟨fn.code.size, inner, last⟩ :=
    ⟨⟨h.locals_le, Nat.le_of_lt h.captures_lt⟩,
      (Symbols.defineAll_evolves builtins _ params).bounded
        (Symbols.bounded_enterFunction h.bounded),
      fun _ => ⟨Nat.le_of_eq h.slots.symm, Nat.le_of_eq hcaptured⟩, Nat.le_refl _⟩
  obtain ⟨instrs, hlisted, -⟩ := BodyAt.listed hroom (fun ending m hm =>
    ⟨StmtsAt.reaches builtins body hm, fun hroom => StmtsAt.lists body hm hroom⟩) hlaid
  exact ⟨instrs, hlisted.tiles, hlisted.stored,
    fun i hi target htarget => (hlisted.jumps i hi target htarget).resolve_right id⟩

/-- The main code of an executable is a row of instructions. -/
theorem Compilation.program_closed {table : BuiltinTable} {prog : Program} {exe : Executable}
    (h : Compilation.program table prog = .ok exe) : ∃ instrs, Closed exe.code instrs := by
  obtain ⟨symbols, -, instrs, hlisted⟩ := Compilation.program_listed h
  exact ⟨instrs, hlisted.tiles, hlisted.stored,
    fun i hi target htarget => (hlisted.jumps i hi target htarget).resolve_right id⟩

/-- **Depth maps of the instructions of an executable.** -/
structure StartMaps (exact : Prop) (builtins : Nat) (exe : Executable) extends
    DepthMaps exact builtins exe where
  main_starts : main.AtStarts exe.code
  inside_starts : ∀ fn : FunctionCode, fn.IsCompiled exact builtins exe.constants →
    (inside fn).AtStarts fn.code

/-- Every executable that the compiler makes has depth maps of its instructions. -/
theorem exists_startMaps (exact : Prop) {table : BuiltinTable} {prog : Program} {exe : Executable}
    (h : Compilation.program table prog = .ok exe) (haligned : exact → prog.aligned = true) :
    Nonempty (StartMaps exact table.length exe) := by
  classical
  obtain ⟨maps⟩ := exists_depthMaps exact h haligned
  obtain ⟨instrs, hclosed⟩ := Compilation.program_closed h
  obtain ⟨main, hmain, hstarts, hend⟩ := maps.main_mapped.restrict hclosed
  have hinside : ∀ fn : FunctionCode, fn.IsCompiled exact table.length exe.constants →
      ∃ depths : Depths,
        Mapped exact ⟨table.length, fn.locals, fn.captures.length⟩ fn.code exe.constants depths
          ∧ depths.AtStarts fn.code ∧ depths fn.code.size = maps.inside fn fn.code.size := by
    intro fn hfn
    obtain ⟨instrs, hclosed⟩ := hfn.closed
    exact (maps.inside_mapped fn hfn).restrict hclosed
  choose! inside hmapped hinside_starts hinside_end using hinside
  exact ⟨⟨⟨main, inside, hmain, hend.trans maps.main_end, hmapped, fun fn hfn =>
    (hinside_end fn hfn).trans (maps.inside_end fn hfn)⟩, hstarts, hinside_starts⟩⟩

end Scriptlet
