import Scriptlet.Proofs.Evaluation.Recording
import Scriptlet.Proofs.Machine.Values
import Scriptlet.Proofs.Safety

/-!
# How deep calls may be nested

The evaluation counts the calls that it is inside of; the machine has a frame for each of them, and
one more for the top level. Both compare their number with 1024, so that the evaluation enters one
call more inside of each other than the machine does (`nested_calls`).

How deep a call is nested is not asked of the backends. In an evaluation it is the number that the
event of the call bears, in the machine the number of frames that wait; each is then compared with
what the backend itself counts.
-/

namespace Scriptlet

namespace Evaluation

/-- A call goes on with the body of the function, one call deeper. -/
def Enters (table : BuiltinTable) (callee : Value) (args : List Value) (world : World) : Prop :=
  ∃ id params body env, callee = .function id params body env
    ∧ ∀ fuel, apply table (fuel + 1) callee args world
      = (startCall params args env >>= fun inner =>
          caught (stmts table fuel inner .null body) >>= fun result =>
          setDepth world.depth >>= fun _ => callResult result) world

/-- A call is refused, without any effect. -/
def Refuses (table : BuiltinTable) (callee : Value) (args : List Value) (world : World) : Prop :=
  ∀ fuel, apply table (fuel + 1) callee args world
    = .error (.halted (.fault .stackOverflow)) world

/-- Whether a function is called with as many arguments as it has parameters, as the `nesting`th of
calls inside each other. -/
def Event.calls (nesting : Nat) : Event → Bool
  | .called n (.function _ params _ _) args _ => n = nesting && params.length = args.length
  | _ => false

theorem exists_called {nesting : Nat} {events : List Event}
    (h : events.any (Event.calls nesting) = true) :
    ∃ id params body env args world,
      .called nesting (.function id params body env) args world ∈ events
        ∧ params.length = args.length := by
  obtain ⟨event, hevent, hcalls⟩ := List.any_eq_true.mp h
  unfold Event.calls at hcalls
  split at hcalls
  · rename_i n id params body env args world
    rw [Bool.and_eq_true, decide_eq_true_eq, decide_eq_true_eq] at hcalls
    obtain ⟨rfl, hlength⟩ := hcalls
    exact ⟨id, params, body, env, args, world, hevent, hlength⟩
  · cases hcalls

/-- With no fuel for the body, a call that is entered runs out of it. -/
theorem Enters.not_refuses {table : BuiltinTable} {callee : Value} {args : List Value}
    {world : World} (h : Enters table callee args world) : ¬ Refuses table callee args world := by
  obtain ⟨id, params, body, env, rfl, henters⟩ := h
  intro hrefuses
  obtain ⟨scopes, -, hstart⟩ := startCall_ok params args env world
  have hcall := (henters 0).symm.trans (hrefuses 0)
  rw [bind_of_ok hstart] at hcall
  cases hcall

/-- **Of the calls inside each other, the evaluation enters as many as its limit says.** The event
of a call was recorded where the depth is one less than its number, which is what the check
compares. -/
theorem nested_apply {table : BuiltinTable} {fuel nesting : Nat} {host : Host} {prog : Program}
    {id : Identity} {params : List String} {body : List Stmt} {env : Env} {args : List Value}
    {world : World} (h : .called nesting (.function id params body env) args world
      ∈ programLog table fuel host prog) (hargs : params.length = args.length) :
    (nesting ≤ maxCallDepth → Enters table (.function id params body env) args world)
      ∧ (maxCallDepth < nesting → Refuses table (.function id params body env) args world) := by
  have hdepth := (program_passage table fuel host prog).nested nesting _ args world h
  refine ⟨fun hle => ⟨id, params, body, env, rfl, fun fuel => ?_⟩, fun hlt fuel => ?_⟩
  · rw [apply_function, if_neg (Decidable.not_not.mpr hargs), if_neg (by omega)]
  · rw [apply_function, if_neg (Decidable.not_not.mpr hargs), if_pos (by omega)]
    rfl

end Evaluation

namespace Machine

theorem calling?_eq {m : Machine} {count : Nat} {callee : Value}
    (h : m.calling? = some (count, callee)) :
    InstrAt m.frame.code.code m.frame.position .call [count] ∧ count < Compilation.maxLocals
      ∧ m.stack.read (m.top - (count + 1)) = callee := by
  unfold calling? at h
  split at h
  · rename_i op byte hop hbyte
    split at h
    · rename_i hcall
      obtain ⟨rfl, rfl⟩ := Prod.mk.inj (Option.some.inj h)
      rw [hcall] at hop
      refine ⟨fun k hk => ?_, byte.toNat_lt, rfl⟩
      rcases k with _ | _ | k
      · exact hop
      · rw [hbyte]
        show some byte = some (UInt8.ofNat byte.toNat)
        rw [UInt8.ofNat_toNat]
      · exact absurd hk (by rw [Op.length_encode]; show ¬ k + 2 < 2; omega)
    · cases h
  · cases h

/-- A call finds its operands. -/
theorem Sound.calling {exact : Prop} {table : BuiltinTable} {exe : Executable}
    {maps : DepthMaps exact table.length exe} {m : Machine} (h : Sound maps m) {count : Nat}
    {callee : Value} (hcall : m.calling? = some (count, callee)) :
    count + 1 ≤ m.top ∧ m.top ≤ stackSize := by
  obtain ⟨hinstr, hcount, -⟩ := calling?_eq hcall
  have hsize := hinstr.lt_size
  obtain ⟨d, op, operands, hd, hinstr', hfits⟩ := h.instr (by have := Op.call.size_pos; omega)
  obtain rfl := hinstr.op_eq hinstr'
  match operands, hfits with
  | [count'], hfits =>
    have hread : count % Compilation.maxLocals = count' % Compilation.maxLocals :=
      hinstr.operand_eq rfl hinstr'
    rw [Nat.mod_eq_of_lt hcount, Nat.mod_eq_of_lt hfits.1] at hread
    have htop := hd.top
    have hle := hfits.2.1
    exact ⟨by omega, hd.top_le⟩

/-- The machine goes on with the code of the closure that is called, in a frame of its own. -/
def Enters (m : Machine) : Prop :=
  ∃ count id code cells, m.calling? = some (count, .closure id code cells)
    ∧ step m = .ok () ((m.advance Op.call.size).entered code cells (m.top - count))

/-- The machine stops at the call. -/
def Refuses (m : Machine) : Prop :=
  step m = .error (.halted (.fault .stackOverflow)) (m.advance Op.call.size)

theorem Enters.not_refuses {m : Machine} (h : m.Enters) : ¬ m.Refuses := by
  obtain ⟨count, id, code, cells, -, henters⟩ := h
  intro hrefuses
  cases henters.symm.trans hrefuses

/-- **Of the calls inside each other, the machine enters one less than it has frames.** The check
comes before the frame of the call is added. -/
theorem nested_step {table : BuiltinTable} {prog : Program} {exe : Executable}
    (h : Compilation.program table prog = .ok exe) {host : Host} {k : Nat} {m : Machine}
    (hrun : run k (load exe table host) = (.running, m)) {count : Nat} {id : Identity}
    {code : FunctionCode} {cells : Array CellId}
    (hcall : m.calling? = some (count, .closure id code cells)) (hargs : code.params = count)
    (hroom : m.top - count + code.locals < stackSize) :
    (m.callers.length + 1 < maxFrames → m.Enters)
      ∧ (maxFrames ≤ m.callers.length + 1 → m.Refuses) := by
  obtain ⟨maps⟩ := exists_depthMaps False h False.elim
  have hsound := sound_of_run maps hrun
  obtain ⟨hcount, htop⟩ := hsound.calling hcall
  obtain ⟨hinstr, hlt, hcallee⟩ := calling?_eq hcall
  have hstep : step m = enterClosure code cells count (m.advance Op.call.size) := by
    rw [step_eq_perform hinstr]
    show perform .call [count % Compilation.maxLocals] _ = _
    rw [Nat.mod_eq_of_lt hlt]
    exact call_closure_eq (m := m.advance Op.call.size) hcount htop hcallee
  have hle : count ≤ (m.advance Op.call.size).top := Nat.le_of_succ_le hcount
  have henter := @enterClosure_eq _ code cells count hle
  rw [if_neg (Decidable.not_not.mpr hargs.symm)] at henter
  -- the limit on frames counts the one of the top level as well
  refine ⟨fun hlt => ⟨count, id, code, cells, hcall, ?_⟩, fun hle => ?_⟩
  · have hlimits : ¬ (maxFrames ≤ (m.advance Op.call.size).callers.length + 1
        ∨ stackSize ≤ (m.advance Op.call.size).top - count + code.locals) :=
      not_or.mpr ⟨Nat.not_le_of_lt hlt, Nat.not_le_of_lt hroom⟩
    rw [hstep, henter, if_neg hlimits]
    rfl
  · rw [Refuses, hstep, henter, if_pos (.inl hle)]

end Machine

/-- **The limits on nested calls, for all programs.** A call of a function in the evaluation and one
of a closure in the machine, each as the `nesting`th of calls inside each other, are both entered or
both refused, as long as there is room on the stack; but the 1024th is entered by the evaluation
only, since the frame of the top level is one of the frames of the machine. -/
theorem nested_calls {table : BuiltinTable} {prog : Program} {exe : Executable}
    (hexe : Compilation.program table prog = .ok exe) {host : Host} {nesting : Nat}
    {fuel : Nat} {id : Identity} {params : List String} {body : List Stmt} {env : Env}
    {args : List Value} {world : Evaluation.World}
    (hcalled : .called nesting (.function id params body env) args world
      ∈ Evaluation.programLog table fuel host prog)
    (hargs : params.length = args.length)
    {k : Nat} {m : Machine} (hrun : Machine.run k (.load exe table host) = (.running, m))
    {count : Nat} {id' : Identity} {code : FunctionCode} {cells : Array CellId}
    (hcalling : m.calling? = some (count, .closure id' code cells)) (hcount : code.params = count)
    (hroom : m.top - count + code.locals < Machine.stackSize)
    (hnesting : m.callers.length + 1 = nesting) :
    (nesting ≠ Evaluation.maxCallDepth →
        (Evaluation.Enters table (.function id params body env) args world ↔ m.Enters)
          ∧ (Evaluation.Refuses table (.function id params body env) args world ↔ m.Refuses))
      ∧ (nesting = Evaluation.maxCallDepth →
        Evaluation.Enters table (.function id params body env) args world ∧ m.Refuses) := by
  obtain ⟨happly, happly'⟩ := Evaluation.nested_apply hcalled hargs
  obtain ⟨hstep, hstep'⟩ := Machine.nested_step hexe hrun hcalling hcount hroom
  have hlimits : Machine.maxFrames = Evaluation.maxCallDepth := rfl
  refine ⟨fun hne => ?_, fun heq => ⟨happly (Nat.le_of_eq heq), hstep' (by omega)⟩⟩
  -- away from the limit both go on, or both refuse
  rcases Nat.lt_or_gt_of_ne hne with hlt | hgt
  · have hboth := happly (Nat.le_of_lt hlt)
    have hboth' := hstep (by omega)
    exact ⟨iff_of_true hboth hboth', iff_of_false hboth.not_refuses hboth'.not_refuses⟩
  · have hboth := happly' hgt
    have hboth' := hstep' (by omega)
    exact ⟨iff_of_false (fun h => h.not_refuses hboth) fun h => h.not_refuses hboth',
      iff_of_true hboth hboth'⟩

/-- The program `let f = fn(x) { x }; f(2)`. -/
def callingOnce : Program :=
  [.bind "f" (.fn ["x"] [.expr (.ident "x")]), .expr (.call (.ident "f") [.int 2])]

/-- The only call of `callingOnce`, in the evaluation and before the fifth step of the machine. -/
theorem nested_calls_first : ∃ callee args world, ∃ m : Machine,
    .called 1 callee args world ∈ Evaluation.programLog [] 9 ⟨0, 1, ""⟩ callingOnce
      ∧ (∃ exe, Compilation.program [] callingOnce = .ok exe
        ∧ Machine.run 4 (.load exe [] ⟨0, 1, ""⟩) = (.running, m))
      ∧ (Evaluation.Enters [] callee args world ↔ m.Enters)
      ∧ (Evaluation.Refuses [] callee args world ↔ m.Refuses) := by
  have hcalled : (Evaluation.programLog [] 9 ⟨0, 1, ""⟩ callingOnce).any
      (Evaluation.Event.calls 1) = true := by
    decide +kernel
  have hcalling : ∃ exe, Compilation.program [] callingOnce = .ok exe
      ∧ ∃ m, Machine.run 4 (.load exe [] ⟨0, 1, ""⟩) = (.running, m)
      ∧ ∃ id code cells, m.calling? = some (1, .closure id code cells) ∧ code.params = 1
      ∧ m.top - 1 + code.locals < Machine.stackSize ∧ m.callers.length + 1 = 1 :=
    ⟨_, rfl, _, rfl, _, _, _, rfl, rfl, Nat.le_of_ble_eq_true rfl, rfl⟩
  obtain ⟨id, params, body, env, args, world, hmem, hargs⟩ := Evaluation.exists_called hcalled
  obtain ⟨exe, hexe, m, hrun, id', code, cells, hcall, hcount, hroom, hnesting⟩ := hcalling
  exact ⟨_, args, world, m, hmem, ⟨exe, hexe, hrun⟩,
    (nested_calls hexe hmem hargs hrun hcall hcount hroom hnesting).1 (by decide)⟩

end Scriptlet
