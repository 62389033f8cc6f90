import Scriptlet.Proofs.Layout.Emission

/-!
# Patching jumps

A jump is emitted before its target is known. For the two jumps of a condition, `Emits.patched` says
that patching later on is as good as knowing the target at once. A loop patches the jump that leaves
it and all jumps that have been left open in its body; `emits_loop` is the same for these.

Both have to look through the code that was emitted between the jump and the patch. For a condition
this code has its own jumps patched already, except for those out of a loop around the condition,
which stand behind the patched one. For a loop the patched jumps are scattered over the code, so the
proof goes by positions: `Patched` (in `Scriptlet.Proofs.Layout.Bytes`) says which bytes a list of
patches may have changed.
-/

namespace Scriptlet.Compilation

/-! ## A single jump -/

/-- **An emitted jump is sent to its target later on**, and it is as if the target had been known at
once; `P` is what was emitted in between. The jump is not one of the open jumps: it was patched by
the step itself, so it is final from `t` on. -/
theorem Emits.patched {s u t : State} {P : Code → Array Value → Option Exit → Prop} {op : Op}
    (target : Nat) (hop : op.Patchable) (h : Emits (s.emit op [placeholder]) u P)
    (ht : t = u.mapSegment (Segment.patch s.segment.code.size target)) :
    Emits s t fun code constants exit =>
      InstrAt code s.segment.code.size op [target] ∧ P code constants exit := by
  obtain ⟨jumps, hgrows, hlays⟩ := h
  have hstart : (s.emit op [placeholder]).segment.code.size = s.segment.code.size + 3 := by
    rw [State.emit, State.mapSegment, Segment.size_emit, hop.size]
  have hsize : s.segment.code.size + 3 ≤ u.segment.code.size := hstart ▸ hgrows.size
  have hhead : u.segment.code[s.segment.code.size]? = some op.byte := by
    rw [hgrows.code _ (by omega)]
    exact (instrAt_append s.segment.code op [placeholder]).head
  -- the opcode of the jump is still where it was emitted, so it can be patched there
  have hpatched := patched_single target hop hhead hsize
  have hcode : t.segment.code
      = u.segment.code.overwrite s.segment.code.size (op.encode [target]) := by
    rw [ht, State.mapSegment, Segment.patch_code hhead]
  have hloops : t.segment.loops = u.segment.loops := by
    rw [ht, State.mapSegment, Segment.patch_code hhead]
  -- the patch keeps all that `Grows` speaks of: it lies behind `s` and in front of the open jumps
  have hgrows' : Grows s t jumps := by
    refine ⟨?_, ?_, ?_, ?_, fun i hi => ?_, ?_, ?_, fun j hj => ?_, hgrows.apart, fun j hj => ?_⟩
    · rw [ht]
      exact hgrows.enclosing
    · rw [ht]
      exact hgrows.nested
    · rw [ht]
      exact hgrows.constants
    · rw [hcode, hpatched.size]
      omega
    · rw [hcode, hpatched.same i (by simp [IsOperand]; omega), hgrows.code i (by omega)]
      exact Code.getElem?_append_left hi
    · rw [hloops, hgrows.loops]
      rfl
    · exact hgrows.closed
    · have := hgrows.inside j hj
      rw [hcode, hpatched.size]
      omega
    · have := hgrows.inside j hj
      rw [hcode, hpatched.same _ (by simp [IsOperand]; omega)]
      exact hgrows.head j hj
  refine ⟨jumps, hgrows', fun code constants b c hf => ⟨?_, ?_⟩⟩
  · -- the jump itself: its bytes are final, for open jumps only come behind it
    have hinstr := hpatched.target (s.segment.code.size, target) (by simp) op hop hhead
    refine hinstr.congr fun i hi hi' => ?_
    rw [hop.size] at hi'
    rw [hf.bytes i hi (by rw [hcode, hpatched.size]; omega) fun j hj => ?_, hcode]
    have := hgrows.inside j hj
    unfold IsOperand
    omega
  · -- what came behind it: the patch has not touched it
    refine hlays code constants b c ⟨fun i hi hi' hj => ?_, ?_, hf.target, hf.bound⟩
    · rw [hf.bytes i (by omega) (by rw [hcode, hpatched.size]; omega) hj, hcode,
        hpatched.same i (by simp [IsOperand]; omega)]
    · have := hf.constants
      rwa [ht] at this

/-- Emitting behind a jump and patching it can be exchanged. The compiler emits the second jump of a
condition before it patches the first one, and with this lemma the two jumps are dealt with one
after the other. -/
theorem State.patch_emit {s : State} {p target : Nat} {op op' : Op} {operands : List Nat}
    (hop : op.Patchable) (hhead : s.segment.code[p]? = some op.byte)
    (hsize : p + 3 ≤ s.segment.code.size) :
    (s.emit op' operands).mapSegment (Segment.patch p target)
      = (s.mapSegment (Segment.patch p target)).emit op' operands := by
  have hp : p < s.segment.code.size := by omega
  have hhead' : (s.emit op' operands).segment.code[p]? = some op.byte := by
    rw [← hhead]
    exact Code.getElem?_append_left hp
  have happend : Code.overwrite (s.segment.code ++ op'.encode operands) p (op.encode [target])
      = s.segment.code.overwrite p (op.encode [target]) ++ op'.encode operands :=
    Code.overwrite_append (by rw [Op.length_encode, hop.size]; exact hsize)
  simp only [State.mapSegment, State.emit, Segment.patch_code hhead]
  rw [show ((Segment.emit op' operands s.segment).patch p target)
      = _ from Segment.patch_code hhead']
  simp only [Segment.emit, happend, Code.size_overwrite]

/-- Patching changes nothing but the code. -/
theorem Segment.patch_eq (segment : Segment) (p target : Nat) :
    segment.patch p target = { segment with code := (segment.patch p target).code } := by
  obtain ⟨code, last, previous, loops, depth⟩ := segment
  unfold Segment.patch
  simp only
  split <;> rfl

theorem Segment.size_patch (segment : Segment) (p target : Nat) :
    (segment.patch p target).code.size = segment.code.size := by
  obtain ⟨code, last, previous, loops, depth⟩ := segment
  unfold Segment.patch
  simp only
  split
  · exact Code.size_overwrite ..
  · rfl

/-- Patching moves no code. -/
theorem State.point_patch (s : State) (p target : Nat) :
    (s.mapSegment (Segment.patch p target)).point = s.point := by
  rw [State.point, State.mapSegment, Segment.size_patch]
  rfl

/-- **The two jumps of a condition**: from the test to the second branch, and from the end of the
first branch behind it. Each is one use of `Emits.patched`, the second one inside of what is emitted
behind the first. -/
theorem emits_cond {u v w t : State} (d d' : Nat) {P Q : Code → Array Value → Option Exit → Prop}
    (hyes : Emits (u.emit .jumpNotTruthy [placeholder]) v P)
    (hno : Emits (((v.emit .jump [placeholder]).mapSegment
      (Segment.patch u.segment.code.size (v.emit .jump [placeholder]).segment.code.size)).mapSegment
        (Segment.setDepth d)) w Q)
    (ht : t = (w.mapSegment (Segment.patch v.segment.code.size w.segment.code.size)).mapSegment
      (Segment.setDepth d')) :
    Emits u t fun code constants exit =>
      (InstrAt code u.segment.code.size .jumpNotTruthy [v.segment.code.size + Op.jump.size]
        ∧ P code constants exit)
      ∧ InstrAt code v.segment.code.size .jump [w.segment.code.size] ∧ Q code constants exit := by
  have hsize : u.segment.code.size + 3 ≤ v.segment.code.size := by
    have := hyes.size
    rwa [State.emit, State.mapSegment, Segment.size_emit] at this
  have hhead : v.segment.code[u.segment.code.size]? = some Op.jumpNotTruthy.byte := by
    rw [hyes.code (by rw [State.emit, State.mapSegment, Segment.size_emit]; exact
      Nat.lt_add_of_pos_right (Op.size_pos _))]
    exact (instrAt_append u.segment.code .jumpNotTruthy [placeholder]).head
  have hend : (v.emit .jump [placeholder]).segment.code.size
      = v.segment.code.size + Op.jump.size := Segment.size_emit ..
  rw [hend, State.patch_emit Op.patchable_jumpNotTruthy hhead hsize] at hno
  -- the first jump is sent to its target, then the second one is emitted
  have hfirst := Emits.patched (v.segment.code.size + Op.jump.size) Op.patchable_jumpNotTruthy
    hyes rfl
  have hsize' := Segment.size_patch v.segment u.segment.code.size
    (v.segment.code.size + Op.jump.size)
  have hdepth : Emits ((v.mapSegment (Segment.patch u.segment.code.size
      (v.segment.code.size + Op.jump.size))).emit .jump [placeholder]) _ fun _ _ _ => True :=
    emits_same (t := ((v.mapSegment (Segment.patch u.segment.code.size
      (v.segment.code.size + Op.jump.size))).emit .jump [placeholder]).mapSegment
        (Segment.setDepth d)) rfl rfl rfl rfl rfl
  have hsecond := Emits.patched w.segment.code.size Op.patchable_jump (hdepth.seq hno) rfl
  have hreset : Emits (w.mapSegment (Segment.patch v.segment.code.size w.segment.code.size)) t
      fun _ _ _ => True := by
    subst ht
    exact emits_same rfl rfl rfl rfl rfl
  simp only [State.mapSegment, hsize'] at hfirst hsecond hreset
  exact (hfirst.seq (hsecond.seq hreset)).mono fun _ _ _ _ h => ⟨h.1, h.2.1.1, h.2.1.2.2⟩

/-! ## All jumps of a loop

The open jumps of a body are in two lists, each of which is patched from its first jump to its last.
What is needed of them is collected here without any loop: the jumps stand apart
(`pairwise_positions`), so a list of patches is `Patched` (`patchAll_patched`), and so are the three
groups of patches together (`patches_loop`). -/

/-- The state with other code. -/
def State.withCode (s : State) (code : Code) : State :=
  { s with segment := { s.segment with code } }

/-- What two open jumps do not share: a byte. Each takes three. -/
def Apart (p q : Nat) : Prop :=
  p + 3 ≤ q ∨ q + 3 ≤ p

theorem patch_patched {s t : State} {p target : Nat} {op : Op} {r : Unit} (hop : op.Patchable)
    (hhead : s.segment.code[p]? = some op.byte) (hsize : p + 3 ≤ s.segment.code.size)
    (h : patch p target s = .ok r t) :
    target ≤ maxWord ∧ ∃ code, t = s.withCode code ∧ Patched [(p, target)] s.segment.code code := by
  obtain ⟨htarget, rfl⟩ := patch_ok.mp h
  refine ⟨htarget, s.segment.code.overwrite p (op.encode [target]), ?_,
    patched_single target hop hhead hsize⟩
  rw [State.mapSegment, Segment.patch_code hhead]
  rfl

/-- **Patching jumps that stand apart sends each of them to the target.** Induction on the list.
Behind the first patch the others still have the opcode of a jump where they are, which is what the
induction hypothesis asks for. -/
theorem patchAll_patched {s t : State} {jumps : List Nat} {target : Nat} {r : Unit}
    (hheads : ∀ p ∈ jumps, s.segment.code[p]? = some Op.jump.byte ∧ p + 3 ≤ s.segment.code.size)
    (hapart : jumps.Pairwise Apart) (h : patchAll jumps target s = .ok r t) :
    (∀ p ∈ jumps, target ≤ maxWord) ∧ ∃ code, t = s.withCode code
      ∧ Patched (jumps.map fun p => (p, target)) s.segment.code code := by
  induction jumps generalizing s with
  | nil =>
    obtain rfl := forM_nil_ok.mp h
    exact ⟨fun _ hp => absurd hp (by simp), s.segment.code, rfl, patched_nil _⟩
  | cons p jumps ih =>
    obtain ⟨u, hp, h⟩ := forM_cons_ok.mp h
    obtain ⟨happ, hrest⟩ := List.pairwise_cons.mp hapart
    obtain ⟨hhead, hsize⟩ := hheads p (by simp)
    obtain ⟨htarget, code, rfl, hpatched⟩ :=
      patch_patched Op.patchable_jump hhead hsize hp
    have hheads' : ∀ q ∈ jumps, (s.withCode code).segment.code[q]? = some Op.jump.byte
        ∧ q + 3 ≤ (s.withCode code).segment.code.size := by
      intro q hq
      refine hpatched.head (hheads q (List.mem_cons_of_mem _ hq)) fun k hk => ?_
      obtain rfl := List.mem_singleton.mp hk
      exact happ q hq
    obtain ⟨-, code', rfl, hpatched'⟩ := ih hheads' hrest h
    refine ⟨fun _ _ => htarget, code', rfl, ?_⟩
    refine hpatched.append (jumps.map fun p => (p, target)) hpatched' fun j hj k hk => ?_
    obtain rfl : j = (p, target) := by simpa using hj
    obtain ⟨q, hq, rfl⟩ := List.mem_map.mp hk
    exact happ q hq

/-- Open jumps are listed with the last one first and patched in the other order; being apart does
not depend on the order. -/
theorem pairwise_positions {jumps : List OpenJump} (keep : OpenJump → Bool)
    (hapart : jumps.Pairwise fun j k => k.position + Op.jump.size ≤ j.position) :
    ((jumps.filter keep).map OpenJump.position).reverse.Pairwise Apart := by
  rw [List.pairwise_reverse, List.pairwise_map]
  exact (hapart.filter keep).imp fun h => .inl h

/-- Two open jumps of different kinds stand apart. -/
theorem apart_of_mem {jumps : List OpenJump} {j k : OpenJump}
    (hapart : jumps.Pairwise fun j k => k.position + Op.jump.size ≤ j.position)
    (hj : j ∈ jumps) (hk : k ∈ jumps) (hne : j.breaks ≠ k.breaks) :
    Apart j.position k.position := by
  induction jumps with
  | nil => exact absurd hj (by simp)
  | cons i jumps ih =>
    obtain ⟨hi, hrest⟩ := List.pairwise_cons.mp hapart
    rcases List.mem_cons.mp hj with rfl | hj' <;> rcases List.mem_cons.mp hk with rfl | hk'
    · exact absurd rfl hne
    · exact .inr (hi k hk')
    · exact .inl (hi j hj')
    · exact ih hrest hj' hk'

theorem mem_positions {jumps : List OpenJump} {keep : OpenJump → Bool} {p : Nat} :
    p ∈ ((jumps.filter keep).map OpenJump.position).reverse
      ↔ ∃ j ∈ jumps, keep j = true ∧ j.position = p := by
  simp [and_assoc]

/-- One patch for each jump of the kind. -/
theorem mem_patches {jumps : List OpenJump} {keep : OpenJump → Bool} {target : Nat}
    {k : Nat × Nat} :
    k ∈ (((jumps.filter keep).map OpenJump.position).reverse.map fun p => (p, target))
      ↔ ∃ j ∈ jumps, keep j = true ∧ (j.position, target) = k := by
  simp [and_assoc]

/-- **The patches that close a loop**: the jump that leaves it, and then all that its body has left
open. The three steps are made in the order of the compiler, and behind each one the jumps of the
next still look as they did. All three together are one list of patches that sends every open jump
where its kind says. -/
theorem patches_loop {w t₁ t₂ t₃ : State} {leave after next : Nat} (jumps : List OpenJump)
    {r₁ r₂ r₃ : Unit} (hleave : w.segment.code[leave]? = some Op.jumpNotTruthy.byte)
    (hsize : leave + 3 ≤ w.segment.code.size)
    (hheads : ∀ j ∈ jumps, leave + 3 ≤ j.position ∧ j.position + 3 ≤ w.segment.code.size
      ∧ w.segment.code[j.position]? = some Op.jump.byte)
    (hapart : jumps.Pairwise fun j k => k.position + Op.jump.size ≤ j.position)
    (h₁ : patch leave after w = .ok r₁ t₁)
    (h₂ : patchAll ((jumps.filter OpenJump.breaks).map OpenJump.position).reverse after t₁
      = .ok r₂ t₂)
    (h₃ : patchAll ((jumps.filter fun j => !j.breaks).map OpenJump.position).reverse next t₂
      = .ok r₃ t₃) :
    after ≤ maxWord ∧ (∀ j ∈ jumps, j.target after next ≤ maxWord)
      ∧ ∃ patches code, t₃ = w.withCode code ∧ Patched patches w.segment.code code
        ∧ (leave, after) ∈ patches
        ∧ (∀ j ∈ jumps, (j.position, j.target after next) ∈ patches)
        ∧ ∀ k ∈ patches, k.1 = leave ∨ ∃ j ∈ jumps, k.1 = j.position := by
  obtain ⟨hafter, code₁, rfl, hp₁⟩ := patch_patched Op.patchable_jumpNotTruthy hleave hsize h₁
  -- the jump that leaves the loop stands in front of the open ones
  have hheads₁ : ∀ j ∈ jumps, code₁[j.position]? = some Op.jump.byte
      ∧ j.position + 3 ≤ code₁.size := by
    intro j hj
    obtain ⟨hbehind, hinside, hhead⟩ := hheads j hj
    refine hp₁.head ⟨hhead, hinside⟩ fun k hk => ?_
    obtain rfl := List.mem_singleton.mp hk
    exact .inl hbehind
  obtain ⟨hbound₂, code₂, rfl, hp₂⟩ := patchAll_patched (fun p hp => by
    obtain ⟨j, hj, -, rfl⟩ := mem_positions.mp hp
    exact hheads₁ j hj) (pairwise_positions _ hapart) h₂
  -- the breaks that have been patched stand apart from the continues
  have hheads₂ : ∀ j ∈ jumps, j.breaks = false → code₂[j.position]? = some Op.jump.byte
      ∧ j.position + 3 ≤ code₂.size := by
    intro j hj hcontinues
    refine hp₂.head (hheads₁ j hj) fun k hk => ?_
    obtain ⟨i, hi, hbreaks, rfl⟩ := mem_patches.mp hk
    exact apart_of_mem hapart hi hj (by rw [hbreaks, hcontinues]; decide)
  obtain ⟨hbound₃, code₃, rfl, hp₃⟩ := patchAll_patched (fun p hp => by
    obtain ⟨j, hj, hcontinues, rfl⟩ := mem_positions.mp hp
    exact hheads₂ j hj (by simpa using hcontinues)) (pairwise_positions _ hapart) h₃
  -- the three lists of patches as one
  have hp₁₂ := hp₁.append _ hp₂ fun j hj k hk => by
    obtain rfl := List.mem_singleton.mp hj
    obtain ⟨i, hi, -, rfl⟩ := mem_patches.mp hk
    exact .inl (hheads i hi).1
  have hp₁₃ := hp₁₂.append _ hp₃ fun j hj k hk => by
    obtain ⟨i, hi, hcontinues, rfl⟩ := mem_patches.mp hk
    rcases List.mem_append.mp hj with hj | hj
    · obtain rfl := List.mem_singleton.mp hj
      exact .inl (hheads i hi).1
    · obtain ⟨l, hl, hbreaks, rfl⟩ := mem_patches.mp hj
      exact apart_of_mem hapart hl hi (by
        rw [hbreaks, show i.breaks = false by simpa using hcontinues]
        decide)
  refine ⟨hafter, fun j hj => ?_, _, code₃, rfl, hp₁₃, by simp, fun j hj => ?_, fun k hk => ?_⟩
  · cases hbreaks : j.breaks with
    | true => rwa [OpenJump.target, if_pos hbreaks]
    | false =>
      rw [OpenJump.target, if_neg (by simp [hbreaks])]
      exact hbound₃ j.position (mem_positions.mpr ⟨j, hj, by simp [hbreaks], rfl⟩)
  · cases hbreaks : j.breaks with
    | true =>
      rw [OpenJump.target, if_pos hbreaks]
      exact List.mem_append_left _ (List.mem_append_right _
        (mem_patches.mpr ⟨j, hj, hbreaks, rfl⟩))
    | false =>
      rw [OpenJump.target, if_neg (by simp [hbreaks])]
      exact List.mem_append_right _ (mem_patches.mpr ⟨j, hj, by simp [hbreaks], rfl⟩)
  · rcases List.mem_append.mp hk with hk | hk
    · rcases List.mem_append.mp hk with hk | hk
      · obtain rfl := List.mem_singleton.mp hk
        exact .inl rfl
      · obtain ⟨j, hj, -, rfl⟩ := mem_patches.mp hk
        exact .inr ⟨j, hj, rfl⟩
    · obtain ⟨j, hj, -, rfl⟩ := mem_patches.mp hk
      exact .inr ⟨j, hj, rfl⟩

/-! ## The code of a loop

Between the emission of a loop and the moment its jumps are patched lies the whole body, and the
positions that are patched are scattered over it. What is needed of the patched code is little: in
front of the loop and behind its body nothing has changed, in the body nothing but operands of jumps
that were open, and each of these leads where it should. `ClosedLoop` collects the facts from which
this follows, and the two halves of the loop are finished when the whole of it is
(`finished_body`, `finished_rest`). -/

/-- The state at the start of the body of a loop, right behind the jump that leaves the loop. -/
def State.openBody (s : State) : State :=
  (s.emit .jumpNotTruthy [placeholder]).mapSegment Segment.openLoop

theorem State.size_openBody (s : State) :
    s.openBody.segment.code.size = s.segment.code.size + 3 :=
  Segment.size_emit s.segment .jumpNotTruthy [placeholder]

/-- **A loop that has been closed.** Its body leads to `v` and leaves `jumps` open, what stands
behind the body leads to `w` and leaves `more` open, which are jumps out of the loop around. The
patches that make the code at `w` into `code` are those of the jump at the start and of `jumps`. -/
structure ClosedLoop (s v w : State) (jumps more : List OpenJump) (patches : List (Nat × Nat))
    (after next : Nat) (code : Code) : Prop where
  body : Grows s.openBody v jumps
  rest : Grows (v.mapSegment Segment.closeLoop) w more
  patched : Patched patches w.segment.code code
  leave : (s.segment.code.size, after) ∈ patches
  opened : ∀ j ∈ jumps, (j.position, j.target after next) ∈ patches
  only : ∀ k ∈ patches, k.1 = s.segment.code.size ∨ ∃ j ∈ jumps, k.1 = j.position
  bound : ∀ j ∈ jumps, j.target after next ≤ maxWord

namespace ClosedLoop

variable {s v w : State} {jumps more : List OpenJump} {patches : List (Nat × Nat)}
  {after next : Nat} {code : Code}

theorem sizes (h : ClosedLoop s v w jumps more patches after next code) :
    s.segment.code.size + 3 ≤ v.segment.code.size
      ∧ v.segment.code.size ≤ w.segment.code.size ∧ code.size = w.segment.code.size :=
  ⟨s.size_openBody ▸ h.body.size, h.rest.size, h.patched.size⟩

/-- The patches lie between the start of the loop and the end of its body. -/
theorem inside (h : ClosedLoop s v w jumps more patches after next code) {k : Nat × Nat}
    (hk : k ∈ patches) :
    s.segment.code.size ≤ k.1 ∧ k.1 + 3 ≤ v.segment.code.size := by
  obtain ⟨hsize, -⟩ := h.sizes
  rcases h.only k hk with heq | ⟨j, hj, heq⟩
  · omega
  · have := h.body.inside j hj
    have hjump : Op.jump.size = 3 := rfl
    rw [s.size_openBody] at this
    omega

/-- Open jumps of the loop around stand behind the body. -/
theorem behind_body (h : ClosedLoop s v w jumps more patches after next code) {j : OpenJump}
    (hj : j ∈ more) : v.segment.code.size ≤ j.position :=
  (h.rest.inside j hj).1

/-- What the body and the code behind it have appended to is still there. -/
theorem before (h : ClosedLoop s v w jumps more patches after next code) {i : Nat}
    (hi : i < s.segment.code.size) : code[i]? = s.segment.code[i]? := by
  obtain ⟨hsize, -⟩ := h.sizes
  calc code[i]? = w.segment.code[i]? := h.patched.same i fun k hk => by
        have := h.inside hk
        unfold IsOperand
        omega
    _ = v.segment.code[i]? := h.rest.code i (by
        simp only [State.mapSegment, Segment.code_closeLoop]
        omega)
    _ = s.openBody.segment.code[i]? := h.body.code i (by
        rw [s.size_openBody]
        omega)
    _ = s.segment.code[i]? := Code.getElem?_append_left hi

/-- In the body only operands of patched jumps differ from what was emitted. -/
theorem within (h : ClosedLoop s v w jumps more patches after next code) {i : Nat}
    (hi : i < v.segment.code.size) (hk : ∀ k ∈ patches, ¬ IsOperand k.1 i) :
    code[i]? = v.segment.code[i]? :=
  (h.patched.same i hk).trans (h.rest.code i hi)

/-- Behind the body nothing is patched. -/
theorem behind (h : ClosedLoop s v w jumps more patches after next code) {i : Nat}
    (hi : v.segment.code.size ≤ i) : code[i]? = w.segment.code[i]? :=
  h.patched.same i fun k hk => by
    have := h.inside hk
    unfold IsOperand
    omega

/-- Behind the loop the loops around it are what they were in front of it. -/
theorem loops_eq (h : ClosedLoop s v w jumps more patches after next code) :
    (v.mapSegment Segment.closeLoop).segment.loops = s.segment.loops := by
  show v.segment.loops.tail = _
  rw [h.body.loops]
  rfl

/-- A loop that has been closed is an extension of the code in front of it, and leaves open what the
code behind its body has left open. -/
theorem grows (h : ClosedLoop s v w jumps more patches after next code) :
    Grows s (w.withCode code) more where
  enclosing := h.rest.enclosing.trans h.body.enclosing
  nested := h.rest.nested.trans h.body.nested
  constants := h.body.constants.trans h.rest.constants
  size := by
    obtain ⟨hsize, hsize', heq⟩ := h.sizes
    show _ ≤ code.size
    omega
  code i hi := h.before hi
  loops := by
    rw [← h.loops_eq]
    exact h.rest.loops
  closed hloops := h.rest.closed (h.loops_eq.trans hloops)
  inside j hj := by
    obtain ⟨hsize, hsize', heq⟩ := h.sizes
    have hbehind := h.behind_body hj
    have hinside := (h.rest.inside j hj).2
    exact ⟨by omega, Nat.le_trans hinside (Nat.le_of_eq heq.symm)⟩
  apart := h.rest.apart
  head j hj := (h.behind (h.behind_body hj)).trans (h.rest.head j hj)

variable {final : Code} {constants : Array Value} {b c : Nat}

/-- The bytes of a loop are final up to the end of its body. -/
theorem final_eq (h : ClosedLoop s v w jumps more patches after next code)
    (hf : Finished s (w.withCode code) more final constants b c) {i : Nat}
    (hi : s.segment.code.size ≤ i) (hi' : i < v.segment.code.size) : final[i]? = code[i]? := by
  obtain ⟨-, hsize, heq⟩ := h.sizes
  refine hf.bytes i hi (Nat.lt_of_lt_of_le hi' (heq ▸ hsize)) fun j hj => ?_
  have := h.behind_body hj
  unfold IsOperand
  omega

/-- A jump that has been patched leads to its target for ever. -/
theorem sent (h : ClosedLoop s v w jumps more patches after next code)
    (hf : Finished s (w.withCode code) more final constants b c) {k : Nat × Nat}
    (hk : k ∈ patches) {op : Op} (hop : op.Patchable)
    (hhead : v.segment.code[k.1]? = some op.byte) : InstrAt final k.1 op [k.2] := by
  have hinside := h.inside hk
  have hhead' : w.segment.code[k.1]? = some op.byte := (h.rest.code k.1 (by
    simp only [State.mapSegment, Segment.code_closeLoop]
    omega)).trans hhead
  refine (h.patched.target k hk op hop hhead').congr fun i hi hi' => h.final_eq hf ?_ ?_
  · omega
  · rw [hop.size] at hi'
    omega

/-- The jump that leaves the loop leads behind it. -/
theorem leaves (h : ClosedLoop s v w jumps more patches after next code)
    (hf : Finished s (w.withCode code) more final constants b c) :
    InstrAt final s.segment.code.size .jumpNotTruthy [after] := by
  refine h.sent hf h.leave Op.patchable_jumpNotTruthy ?_
  rw [h.body.code _ (by
    rw [s.size_openBody]
    omega)]
  exact (instrAt_append s.segment.code .jumpNotTruthy [placeholder]).head

/-- In a program that contains the loop its body is finished, with the open jumps sent to the ends
of the loop. -/
theorem finished_body (h : ClosedLoop s v w jumps more patches after next code)
    (hf : Finished s (w.withCode code) more final constants b c) :
    Finished s.openBody v jumps final constants after next where
  bytes i hi hi' hj := by
    rw [s.size_openBody] at hi
    rw [h.final_eq hf (by omega) hi', h.within hi' fun k hk => ?_]
    rcases h.only k hk with heq | ⟨j, hmem, heq⟩
    · unfold IsOperand
      omega
    · rw [heq]
      exact hj j hmem
  constants := h.rest.constants.trans hf.constants
  target j hj := h.sent hf (h.opened j hj) Op.patchable_jump (h.body.head j hj)
  bound := h.bound

/-- And so is what stands behind it, whose open jumps are those of the loop around. -/
theorem finished_rest (h : ClosedLoop s v w jumps more patches after next code)
    (hf : Finished s (w.withCode code) more final constants b c) :
    Finished (v.mapSegment Segment.closeLoop) w more final constants b c where
  bytes i hi hi' hj := by
    obtain ⟨hsize, -, heq⟩ := h.sizes
    have hi : v.segment.code.size ≤ i := hi
    rw [hf.bytes i (by omega) (Nat.lt_of_lt_of_eq hi' heq.symm) hj]
    exact h.behind hi
  constants := hf.constants
  target := hf.target
  bound := hf.bound

end ClosedLoop

/-- The patches of the compiler close a loop: it patches the jump at the start of the loop, and then
the jumps that the body has left in the lists of the loop. -/
theorem closedLoop_of_patches {s v w t₁ t₂ t₃ : State} {jumps more : List OpenJump}
    {after next : Nat} {r₁ r₂ r₃ : Unit} (hbody : Grows s.openBody v jumps)
    (hrest : Grows (v.mapSegment Segment.closeLoop) w more)
    (h₁ : patch s.segment.code.size after w = .ok r₁ t₁)
    (h₂ : patchAll (v.segment.loops.headD ⟨0, [], []⟩).breaks.reverse after t₁ = .ok r₂ t₂)
    (h₃ : patchAll (v.segment.loops.headD ⟨0, [], []⟩).continues.reverse next t₂ = .ok r₃ t₃) :
    after ≤ maxWord ∧ ∃ patches code, t₃ = w.withCode code
      ∧ ClosedLoop s v w jumps more patches after next code := by
  have hsize : s.segment.code.size + 3 ≤ v.segment.code.size := s.size_openBody ▸ hbody.size
  have hsize' : v.segment.code.size ≤ w.segment.code.size := hrest.size
  have hcode : ∀ i < v.segment.code.size, w.segment.code[i]? = v.segment.code[i]? :=
    fun i hi => hrest.code i hi
  -- the jumps that the loop has collected are those that its body has left open
  have hloops : v.segment.loops
      = (LoopContext.mk s.openBody.segment.depth [] []).add jumps :: s.segment.loops := hbody.loops
  rw [hloops] at h₂ h₃
  simp only [List.headD_cons, LoopContext.add, List.append_nil] at h₂ h₃
  have hleave : w.segment.code[s.segment.code.size]? = some Op.jumpNotTruthy.byte := by
    rw [hcode _ (by omega), hbody.code _ (by
      rw [s.size_openBody]
      omega)]
    exact (instrAt_append s.segment.code .jumpNotTruthy [placeholder]).head
  have hheads : ∀ j ∈ jumps, s.segment.code.size + 3 ≤ j.position
      ∧ j.position + 3 ≤ w.segment.code.size
      ∧ w.segment.code[j.position]? = some Op.jump.byte := by
    intro j hj
    obtain ⟨hlow, hhigh⟩ := hbody.inside j hj
    rw [s.size_openBody] at hlow
    refine ⟨hlow, Nat.le_trans hhigh hsize', ?_⟩
    rw [hcode _ (Nat.lt_of_lt_of_le (Nat.lt_add_of_pos_right Op.jump.size_pos) hhigh)]
    exact hbody.head j hj
  obtain ⟨hafter, hbound, patches, code, rfl, hpatched, hstart, hopened, honly⟩ :=
    patches_loop jumps hleave (Nat.le_trans hsize hsize') hheads hbody.apart h₁ h₂ h₃
  exact ⟨hafter, patches, code, rfl, hbody, hrest, hpatched, hstart, hopened, honly, hbound⟩

/-- **The body of a loop and what stands behind it** are laid out as they should be, once the loop
has been closed: in every finished program the body is left to `after` and `next`. -/
theorem emits_loop {s v w t₁ t₂ t₃ : State} {after next : Nat} {r₁ r₂ r₃ : Unit}
    {P Q : Code → Array Value → Option Exit → Prop} (hbody : Emits s.openBody v P)
    (hrest : Emits (v.mapSegment Segment.closeLoop) w Q)
    (h₁ : patch s.segment.code.size after w = .ok r₁ t₁)
    (h₂ : patchAll (v.segment.loops.headD ⟨0, [], []⟩).breaks.reverse after t₁ = .ok r₂ t₂)
    (h₃ : patchAll (v.segment.loops.headD ⟨0, [], []⟩).continues.reverse next t₂ = .ok r₃ t₃) :
    after ≤ maxWord ∧ ∃ code, t₃ = w.withCode code ∧ code.size = w.segment.code.size
      ∧ Emits s (w.withCode code) fun code constants exit =>
        InstrAt code s.segment.code.size .jumpNotTruthy [after]
          ∧ P code constants (some ⟨s.openBody.segment.depth, after, next⟩)
          ∧ Q code constants exit := by
  obtain ⟨jumps, hgrows, hlays⟩ := hbody
  obtain ⟨more, hgrows', hlays'⟩ := hrest
  obtain ⟨hafter, patches, code, rfl, h⟩ := closedLoop_of_patches hgrows hgrows' h₁ h₂ h₃
  refine ⟨hafter, code, rfl, h.patched.size, more, h.grows, fun final constants b c hf =>
    ⟨h.leaves hf, hlays final constants after next (h.finished_body hf), ?_⟩⟩
  rw [← h.loops_eq]
  exact hlays' final constants b c (h.finished_rest hf)

end Scriptlet.Compilation
