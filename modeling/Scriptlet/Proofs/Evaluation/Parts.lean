import Scriptlet.Proofs.Evaluation.Recording

/-!
# The parts of an evaluation

An evaluation takes a program apart: each of its functions evaluates smaller parts in turn, some of
them only if earlier ones have come to the right value. `Part.inside` lists these parts, each with
the world where its evaluation starts, and `Reaches` goes from part to part. None is missing, and
none is listed that is not evaluated: an evaluation runs out of fuel just if it gets to a part
without any (`runsOut_iff_reaches`).

The call depth is the same behind every part as before it, whatever the part comes to
(`Part.depth_behind`). So only the step from a call to the body of the function adds one, and it is
not taken at the limit: no part is reached at a depth beyond it (`Reaches.depth_le`).

Fuel is what ties the list to the evaluator. A part that was evaluated but not listed would run out
of fuel while none of the listed parts does, and a part that was listed but not evaluated the other
way round. So `Traced` asks of each function of the evaluator that it runs out of fuel just if one
of its listed parts does, and this is proved function by function, along the binds that the function
is made of.
-/

namespace Scriptlet.Evaluation

/-- The world behind a computation, whatever it comes to. -/
def behind {α : Type} (x : Eval α) (world : World) : World :=
  match x world with
  | .ok _ world' | .error _ world' => world'

/-- **Something that is evaluated by itself**: the arguments of one of the functions of the
evaluator. -/
inductive Part where
  | stmt (env : Env) (s : Stmt)
  | stmts (env : Env) (last : Value) (body : List Stmt)
  | iterate (env : Env) (test : Expr) (post : Stmt) (body : List Stmt)
  | expr (env : Env) (e : Expr)
  | exprs (env : Env) (read : List Value) (es : List Expr)
  | pairs (env : Env) (entries : List (Entry Value)) (unread : List (Expr × Expr))
  | call (callee : Value) (args : List Value)

namespace Part

/-- What a part comes to. -/
abbrev Result : Part → Type
  | stmt _ _ | stmts _ _ _ | iterate _ _ _ _ | expr _ _ | call _ _ => Value
  | exprs _ _ _ => List Value
  | pairs _ _ _ => List (Entry Value)

/-- Evaluates a part. -/
def eval (table : BuiltinTable) (fuel : Nat) : (p : Part) → Eval p.Result
  | stmt env s => Evaluation.stmt table fuel env s
  | stmts env last body => Evaluation.stmts table fuel env last body
  | iterate env test post body => Evaluation.iterate table fuel env test post body
  | expr env e => Evaluation.expr table fuel env e
  | exprs env read es => Evaluation.exprs table fuel env read es
  | pairs env entries unread => Evaluation.pairsFrom table fuel env entries unread
  | call callee args => Evaluation.apply table fuel callee args

end Part

/-- The parts that a computation evaluates itself, each with the world where it starts. Which ones
these are may depend on what the earlier ones have come to, so it is a function of the world. -/
abbrev Inside := World → List (Part × World)

namespace Inside

/-- No parts. -/
def nothing : Inside := fun _ => []

/-- A part alone. -/
def only (p : Part) : Inside := fun world => [(p, world)]

/-- The parts of a computation, and then those of what goes on with its value. Nothing goes on
behind a signal. -/
def andThen {α : Type} (first : Inside) (x : Eval α) (rest : α → Inside) : Inside := fun world =>
  first world ++ match x world with
    | .ok a world => rest a world
    | .error _ _ => []

/-- A part, and then those of what goes on with its value. -/
def part (table : BuiltinTable) (fuel : Nat) (p : Part) (rest : p.Result → Inside) : Inside :=
  (only p).andThen (p.eval table fuel) rest

end Inside

open Inside

/-- **The parts that a part evaluates**, which has one unit of fuel more than they. This follows the
evaluator equation by equation, with all that decides about parts — which branch is taken, whether a
key is hashable, whether a call is refused — and nothing else. -/
def Part.inside (table : BuiltinTable) (fuel : Nat) : Part → Inside
  | stmt env s =>
    match s with
    | .expr value | .bind _ value | .assign _ value | .ret value => only (.expr env value)
    | .block body => nothing.andThen (enter env false) fun env => only (.stmts env .null body)
    | .loop init test post body =>
      nothing.andThen (enter env true) fun env =>
        part table fuel (.stmt env init) fun _ => only (.iterate env test post body)
    -- they leave by a signal or a fault, and evaluate nothing
    | .breakLoop | .continueLoop => nothing
  | stmts _ _ [] => nothing
  | stmts env _ (s :: rest) =>
    part table fuel (.stmt env s) fun value => only (.stmts env value rest)
  | iterate env test post body =>
    part table fuel (.expr env test) fun holds =>
      if holds.truthy then
        (only (.stmts env .null body)).andThen
          -- any other signal of the body leaves the loop
          (caught (Evaluation.stmts table fuel env .null body)) fun
          | .ok _ | .error .continueLoop =>
            part table fuel (.stmt env post) fun _ => only (.iterate env test post body)
          | _ => nothing
      else nothing
  | expr env e =>
    match e with
    | .array elements => only (.exprs env [] elements)
    | .hash entries => only (.pairs env [] entries)
    | .prefixOp _ operand => only (.expr env operand)
    | .infixOp left _ right | .index left right =>
      part table fuel (.expr env left) fun _ => only (.expr env right)
    | .cond test yes no =>
      part table fuel (.expr env test) fun holds =>
        if holds.truthy then only (.stmts env .null yes)
        else
          match no with
          | some no => only (.stmts env .null no)
          | none => nothing
    | .call callee args =>
      -- what is quoted is no part
      nothing.andThen (isQuote env callee) fun
        | true => nothing
        | false =>
          part table fuel (.expr env callee) fun callee =>
            part table fuel (.exprs env [] args) fun args => only (.call callee args)
    | .int _ | .float _ | .str _ | .bool _ | .ident _ | .fn _ _ => nothing
  | exprs _ _ [] => nothing
  | exprs env read (e :: rest) =>
    part table fuel (.expr env e) fun value => only (.exprs env (value :: read) rest)
  | pairs _ _ [] => nothing
  | pairs env entries ((shown, value) :: rest) =>
    part table fuel (.expr env shown) fun shown =>
      match shown.key? with
      -- a key that cannot be used ends the hash before its value
      | none => nothing
      | some key =>
        part table fuel (.expr env value) fun value =>
          only (.pairs env (Entry.insert ⟨key, shown, value⟩ entries) rest)
  | call (.function _ params body env) args => fun world =>
    -- a call that is refused has no parts, and this is where the depth is looked at
    if params.length ≠ args.length ∨ maxCallDepth ≤ world.depth then []
    else nothing.andThen (startCall params args env) (fun env => only (.stmts env .null body)) world
  | call _ _ => nothing

/-- **An evaluation gets from a part to another one.** With so much fuel, the evaluation of the
first part in a world gets to the second one, with the fuel that is left for it and the world where
it starts. -/
inductive Reaches (table : BuiltinTable) : (fuel : Nat) → Part → World → (fuel' : Nat) → Part →
    World → Prop
  | here (fuel : Nat) (p : Part) (world : World) : Reaches table fuel p world fuel p world
  | inside {fuel fuel' : Nat} {p q r : Part} {world world' world'' : World}
      (hq : (q, world') ∈ p.inside table fuel world)
      (hr : Reaches table fuel q world' fuel' r world'') :
      Reaches table (fuel + 1) p world fuel' r world''

/-! ## The depth behind a part

That the depth is restored is part of what the recording of events says (`Records`), so it is read
off there. -/

section

variable {α β : Type} {table : BuiltinTable} {fuel nesting : Nat} {x : Eval α} {f : α → Eval β}
  {rest : α → Inside} {inside : Inside} {world : World}

theorem hereditary_true : Value.Hereditary fun _ => True := by
  refine ⟨fun _ _ => trivial, fun v _ => ?_⟩
  cases v
  all_goals simp [Value.Parts]

theorem behind_of_ok {a : α} {world' : World} (h : x world = .ok a world') :
    behind x world = world' := by
  rw [behind, h]

/-- A recorded computation ends as deep as it has started. -/
theorem Records.depth_behind {log : Log} {post : α → Prop}
    (h : Records (fun _ => True) world.depth x log post) :
    (behind x world).depth = world.depth := by
  have hx := h world rfl (fun _ _ _ _ => trivial) (fun _ _ _ => trivial)
  unfold behind
  cases hr : x world with
  | ok a world' =>
    rw [hr] at hx
    exact hx.1.depth
  | error signal world' =>
    rw [hr] at hx
    exact hx.1.depth

/-- **Behind a part, the depth is what it was**, whatever the part has come to. -/
theorem Part.depth_behind (table : BuiltinTable) (fuel : Nat) (p : Part) (world : World) :
    (behind (p.eval table fuel) world).depth = world.depth := by
  have h := recorded hereditary_true table fuel
  cases p with
  | stmt env s => exact (h.stmt world.depth env s).depth_behind
  | stmts env last body => exact (h.stmts world.depth env last body trivial).depth_behind
  | iterate env test post body => exact (h.iterate world.depth env test post body).depth_behind
  | expr env e => exact (h.expr world.depth env e).depth_behind
  | exprs env read es => exact (h.exprs world.depth env read es fun _ _ => trivial).depth_behind
  | pairs env entries unread =>
    exact (h.pairsFrom world.depth env entries unread fun _ _ => ⟨trivial, trivial⟩).depth_behind
  | call callee args =>
    exact (h.apply world.depth callee args trivial fun _ _ => trivial).depth_behind

/-! ## Computations without parts

Most of what an evaluation is made of never runs out of fuel: it looks at the world, changes it or
fails. Such computations have no parts, and disappear from `Traced`. -/

/-- A computation runs out of fuel. -/
def RunsOut (x : Eval α) (world : World) : Prop :=
  ∃ world', x world = .error .outOfFuel world'

/-- A computation does not run out of fuel. -/
def Fueled (x : Eval α) : Prop :=
  ∀ world, ¬ RunsOut x world

theorem exists_ok {a : α} {q : α → World → Prop} :
    (∃ a' world', (.ok a world : EStateM.Result Signal World α) = .ok a' world' ∧ q a' world')
      ↔ q a world := by
  constructor
  · rintro ⟨a', world', heq, hq⟩
    cases heq
    exact hq
  · exact fun hq => ⟨a, world, rfl, hq⟩

theorem runsOut_bind :
    RunsOut (x >>= f) world
      ↔ RunsOut x world ∨ ∃ a world', x world = .ok a world' ∧ RunsOut (f a) world' := by
  unfold RunsOut
  cases hx : x world with
  | ok a world₁ =>
    rw [bind_of_ok hx, exists_ok]
    simp
  | error signal world₁ =>
    rw [bind_of_error hx]
    simp

theorem runsOut_bind_of_ok {a : α} {world' : World} (hx : x world = .ok a world') :
    RunsOut (x >>= f) world ↔ RunsOut (f a) world' := by
  unfold RunsOut
  rw [bind_of_ok hx]

theorem runsOut_throw (world : World) : RunsOut (throw .outOfFuel : Eval α) world :=
  ⟨world, rfl⟩

theorem fueled_of_ok (h : ∀ world, ∃ a world', x world = .ok a world') : Fueled x := by
  rintro world ⟨world', hout⟩
  obtain ⟨a, world₁, hx⟩ := h world
  rw [hx] at hout
  cases hout

theorem fueled_pure (a : α) : Fueled (pure a : Eval α) :=
  fueled_of_ok fun world => ⟨a, world, rfl⟩

theorem fueled_throw {signal : Signal} (h : signal ≠ .outOfFuel) :
    Fueled (throw signal : Eval α) := by
  rintro world ⟨world', heq⟩
  have heq : EStateM.Result.error (α := α) signal world = .error .outOfFuel world' := heq
  cases heq
  exact h rfl

theorem fueled_fault (f : Fault) : Fueled (fault f : Eval α) :=
  fueled_throw Signal.noConfusion

theorem fueled_ofExcept (result : Except Fault α) : Fueled (ofExcept result) := by
  cases result with
  | ok a => exact fueled_pure a
  | error f => exact fueled_fault f

theorem Fueled.bind (h : Fueled x) (hf : ∀ a, Fueled (f a)) : Fueled (x >>= f) := by
  intro world hruns
  rcases runsOut_bind.mp hruns with hruns | ⟨a, world', -, hruns⟩
  · exact h world hruns
  · exact hf a world' hruns

theorem fueled_get : Fueled (get : Eval World) :=
  fueled_of_ok fun world => ⟨world, world, rfl⟩

theorem fueled_onScopes (change : Scopes → Scopes) : Fueled (onScopes change) :=
  fueled_of_ok fun _ => ⟨(), _, rfl⟩

theorem fueled_setDepth (depth : Nat) : Fueled (setDepth depth) :=
  fueled_of_ok fun _ => ⟨(), _, rfl⟩

theorem fueled_enter (env : Env) (inLoop : Bool) : Fueled (enter env inLoop) :=
  fueled_of_ok fun _ => ⟨_, _, rfl⟩

/-- The surroundings end a program by a fault or an exit at most. -/
theorem fueled_onHost (action : HostM α) : Fueled (onHost action) := by
  rintro ⟨host, scopes, depth⟩ ⟨world', heq⟩
  simp only [onHost] at heq
  split at heq
  · cases heq
  · cases heq

theorem fueled_lookup (env : Env) (name : String) : Fueled (lookup? env name) :=
  fueled_get.bind fun _ => fueled_pure _

theorem fueled_isQuote (env : Env) (callee : Expr) : Fueled (isQuote env callee) := by
  unfold isQuote
  split
  · exact (fueled_lookup env _).bind fun _ => fueled_pure _
  · exact fueled_pure _

theorem fueled_identifier (table : BuiltinTable) (env : Env) (name : String) :
    Fueled (identifier table env name) := by
  refine (fueled_lookup env name).bind fun found => ?_
  cases found with
  | some value => exact fueled_pure value
  | none =>
    dsimp only
    split
    · exact fueled_pure _
    · exact fueled_fault _

theorem fueled_quote (args : List Expr) : Fueled (quote args) := by
  unfold quote
  split
  · exact (fueled_onHost _).bind fun _ => fueled_pure _
  · exact fueled_fault _

/-- A call runs out of fuel only if the body of the function does. -/
theorem fueled_callResult {result : Except Signal Value} (h : result ≠ .error .outOfFuel) :
    Fueled (callResult result) := by
  cases result with
  | ok value => exact fueled_pure value
  | error signal =>
    cases signal with
    | returned value => exact fueled_pure value
    | breakLoop => exact fueled_fault _
    | continueLoop => exact fueled_fault _
    | halted halt => exact fueled_throw Signal.noConfusion
    | outOfFuel => exact absurd rfl h

/-! ## Computations and their parts

The calculus of `Traced` has three rules: a part alone, a computation without parts, and a bind.
Each function of the evaluator is put together by them. -/

/-- **The list of the parts of a computation is right.** They start at no depth beyond the limit,
unless the computation does, and the computation runs out of fuel just if one of them does. -/
structure Traced (table : BuiltinTable) (fuel : Nat) (x : Eval α) (inside : Inside) : Prop where
  depth_le (world : World) : ∀ q ∈ inside world, q.2.depth ≤ max world.depth maxCallDepth
  runsOut (world : World) :
    RunsOut x world ↔ ∃ q ∈ inside world, RunsOut (q.1.eval table fuel) q.2

theorem Fueled.traced (h : Fueled x) : Traced table fuel x nothing := by
  refine ⟨fun _ _ hq => absurd hq List.not_mem_nil, fun world => ?_⟩
  refine iff_of_false (h world) ?_
  rintro ⟨q, hq, -⟩
  exact absurd hq List.not_mem_nil

theorem traced_only (p : Part) : Traced table fuel (p.eval table fuel) (only p) := by
  refine ⟨fun world q hq => ?_, fun world => ?_⟩
  · obtain rfl := List.mem_singleton.mp hq
    exact Nat.le_max_left _ _
  · simp [only]

theorem mem_andThen {first : Inside} {q : Part × World} : q ∈ first.andThen x rest world
    ↔ q ∈ first world ∨ ∃ a world', x world = .ok a world' ∧ q ∈ rest a world' := by
  unfold Inside.andThen
  rw [List.mem_append]
  cases x world with
  | ok a world' => rw [exists_ok]
  | error signal world' => simp

/-- The limit holds on in what goes on with the value of a computation that keeps the depth. -/
theorem depth_le_andThen {first : Inside} {limit : Nat}
    (hfirst : ∀ q ∈ first world, q.2.depth ≤ max world.depth limit)
    (hdepth : (behind x world).depth = world.depth)
    (h : ∀ a world', ∀ q ∈ rest a world', q.2.depth ≤ max world'.depth limit) :
    ∀ q ∈ first.andThen x rest world, q.2.depth ≤ max world.depth limit := by
  intro q hq
  rcases mem_andThen.mp hq with hq | ⟨a, world', hx, hq⟩
  · exact hfirst q hq
  · rw [← hdepth, behind_of_ok hx]
    exact h a world' q hq

/-- **A bind.** Its parts are those of the first computation, and those of the second in the world
that the first has left. The depth must be kept by the first, so that the limit there is the one
here. -/
theorem Traced.andThen {first : Inside} (hx : Traced table fuel x first)
    (hdepth : ∀ world, (behind x world).depth = world.depth)
    (h : ∀ a, Traced table fuel (f a) (rest a)) :
    Traced table fuel (x >>= f) (first.andThen x rest) := by
  refine ⟨fun world => depth_le_andThen (hx.depth_le world) (hdepth world) fun a => (h a).depth_le,
    fun world => ?_⟩
  rw [runsOut_bind, hx.runsOut]
  constructor
  · rintro (⟨q, hq, hruns⟩ | ⟨a, world', heq, hruns⟩)
    · exact ⟨q, mem_andThen.mpr (.inl hq), hruns⟩
    · obtain ⟨q, hq, hruns⟩ := ((h a).runsOut world').mp hruns
      exact ⟨q, mem_andThen.mpr (.inr ⟨a, world', heq, hq⟩), hruns⟩
  · rintro ⟨q, hq, hruns⟩
    rcases mem_andThen.mp hq with hq | ⟨a, world', heq, hq⟩
    · exact .inl ⟨q, hq, hruns⟩
    · exact .inr ⟨a, world', heq, ((h a).runsOut world').mpr ⟨q, hq, hruns⟩⟩

/-- A part comes first, and something goes on with its value. -/
theorem traced_part (p : Part) {g : p.Result → Eval β} {rest : p.Result → Inside}
    (h : ∀ a, Traced table fuel (g a) (rest a)) :
    Traced table fuel (p.eval table fuel >>= g) (part table fuel p rest) :=
  (traced_only p).andThen (p.depth_behind table fuel) h

/-- Nothing that could run out of fuel goes on with the value of a part. -/
theorem traced_last (p : Part) {g : p.Result → Eval β} (h : ∀ a, Fueled (g a)) :
    Traced table fuel (p.eval table fuel >>= g) (only p) := by
  have hpart : Traced table fuel (p.eval table fuel >>= g)
      (part table fuel p fun _ => nothing) := traced_part p fun a => (h a).traced
  have honly : part table fuel p (fun _ => nothing) = only p := by
    funext world
    show only p world ++ _ = only p world
    split
    · exact List.append_nil _
    · exact List.append_nil _
  rwa [honly] at hpart

theorem Records.depth_kept {log : Log} {post : α → Prop}
    (h : ∀ nesting, Records (fun _ => True) nesting x log post) (world : World) :
    (behind x world).depth = world.depth :=
  (h world.depth).depth_behind

theorem caught_ok (x : Eval α) (world : World) :
    ∃ result, caught x world = .ok result (behind x world)
      ∧ (result = .error .outOfFuel ↔ RunsOut x world) := by
  unfold caught behind RunsOut
  cases x world with
  | ok a world' => exact ⟨.ok a, rfl, by simp⟩
  | error signal world' => exact ⟨.error signal, rfl, by simp⟩

/-- **The body of a loop comes first.** What it comes to is caught, unless it runs out of fuel: that
alone is handed on, so that catching does not hide a part which has run out. -/
theorem traced_caught (env : Env) (body : List Stmt) {g : Except Signal Value → Eval β}
    {rest : Except Signal Value → Inside}
    (h : ∀ result, result ≠ .error .outOfFuel → Traced table fuel (g result) (rest result))
    (hg : g (.error .outOfFuel) = throw .outOfFuel) (hrest : rest (.error .outOfFuel) = nothing) :
    Traced table fuel (caught (stmts table fuel env .null body) >>= g)
      ((only (.stmts env .null body)).andThen (caught (stmts table fuel env .null body)) rest) := by
  have hfirst : Traced table fuel (stmts table fuel env .null body)
      (only (.stmts env .null body)) := traced_only (.stmts env .null body)
  have hdepth := Part.depth_behind table fuel (.stmts env .null body)
  refine ⟨fun world => ?_, fun world => ?_⟩
  · obtain ⟨result, hcaught, -⟩ := caught_ok (stmts table fuel env .null body) world
    refine depth_le_andThen (hfirst.depth_le world) ?_ fun result => ?_
    · rw [behind_of_ok hcaught]
      exact hdepth world
    · by_cases hresult : result = .error .outOfFuel
      · rw [hresult, hrest]
        exact fun _ _ hq => absurd hq List.not_mem_nil
      · exact (h result hresult).depth_le
  · obtain ⟨result, hcaught, hbody⟩ := caught_ok (stmts table fuel env .null body) world
    rw [runsOut_bind_of_ok hcaught]
    by_cases hresult : result = .error .outOfFuel
    · rw [hresult, hg]
      exact iff_of_true (runsOut_throw _)
        ⟨_, mem_andThen.mpr (.inl (List.mem_singleton_self _)), hbody.mp hresult⟩
    · rw [(h result hresult).runsOut]
      constructor
      · rintro ⟨q, hq, hruns⟩
        exact ⟨q, mem_andThen.mpr (.inr ⟨result, _, hcaught, hq⟩), hruns⟩
      · rintro ⟨q, hq, hruns⟩
        rcases mem_andThen.mp hq with hq | ⟨result', world', hcaught', hq⟩
        · obtain rfl := List.mem_singleton.mp hq
          exact absurd (hbody.mpr hruns) hresult
        · rw [hcaught] at hcaught'
          cases hcaught'
          exact ⟨q, hq, hruns⟩

/-! ## All parts

One lemma for each kind of part, with one case for each equation of the evaluator. -/

namespace Part

theorem traced_stmt (env : Env) (s : Stmt) :
    Traced table fuel ((stmt env s).eval table (fuel + 1)) ((stmt env s).inside table fuel) := by
  have hjump : ∀ (signal : Signal) (stray : Fault), signal ≠ .outOfFuel →
      Fueled (do if (← get).scopes.inLoop env then throw signal else fault stray : Eval Value) := by
    intro signal stray hsignal
    refine fueled_get.bind fun world => ?_
    split
    · exact fueled_throw hsignal
    · exact fueled_fault stray
  have henter : ∀ inLoop world, (behind (enter env inLoop) world).depth = world.depth :=
    fun inLoop => Records.depth_kept fun _ => records_enter inLoop
  cases s with
  | expr value =>
    simp only [eval, Evaluation.stmt, inside]
    exact traced_only (.expr env value)
  | bind name value =>
    simp only [eval, Evaluation.stmt, inside]
    exact traced_last (.expr env value) fun v =>
      (fueled_onScopes _).bind fun _ => fueled_pure _
  | assign name value =>
    simp only [eval, Evaluation.stmt, inside]
    exact traced_last (.expr env value) fun v =>
      (fueled_onScopes _).bind fun _ => fueled_pure _
  | ret value =>
    simp only [eval, Evaluation.stmt, inside]
    exact traced_last (.expr env value) fun v => fueled_throw Signal.noConfusion
  | block body =>
    simp only [eval, Evaluation.stmt, inside]
    exact (fueled_enter env false).traced.andThen (henter false) fun inner =>
      traced_only (.stmts inner .null body)
  | loop init test post body =>
    simp only [eval, Evaluation.stmt, inside]
    exact (fueled_enter env true).traced.andThen (henter true) fun inner =>
      traced_part (.stmt inner init) fun _ => traced_only (.iterate inner test post body)
  | breakLoop =>
    simp only [eval, Evaluation.stmt, inside]
    exact (hjump .breakLoop _ Signal.noConfusion).traced
  | continueLoop =>
    simp only [eval, Evaluation.stmt, inside]
    exact (hjump .continueLoop _ Signal.noConfusion).traced

theorem traced_stmts (env : Env) (last : Value) (body : List Stmt) :
    Traced table fuel ((stmts env last body).eval table (fuel + 1))
      ((stmts env last body).inside table fuel) := by
  cases body with
  | nil =>
    simp only [eval, Evaluation.stmts, inside]
    exact (fueled_pure last).traced
  | cons s body =>
    simp only [eval, Evaluation.stmts, inside]
    exact traced_part (.stmt env s) fun value => traced_only (.stmts env value body)

theorem traced_iterate (env : Env) (test : Expr) (post : Stmt) (body : List Stmt) :
    Traced table fuel ((iterate env test post body).eval table (fuel + 1))
      ((iterate env test post body).inside table fuel) := by
  simp only [eval, Evaluation.iterate, inside]
  refine traced_part (.expr env test) fun holds => ?_
  split
  · refine traced_caught env body (fun result hresult => ?_) rfl rfl
    have hnext : Traced table fuel
        ((stmt env post).eval table fuel >>= fun _ =>
          Evaluation.iterate table fuel env test post body)
        (part table fuel (.stmt env post) fun _ => only (.iterate env test post body)) :=
      traced_part (.stmt env post) fun _ => traced_only (.iterate env test post body)
    cases result with
    | ok value => exact hnext
    | error signal =>
      cases signal with
      | continueLoop => exact hnext
      | breakLoop => exact (fueled_pure _).traced
      -- a signal that leaves the loop comes from the body, and is no part by itself
      | returned value =>
        have hthrow : Fueled (throw (.returned value) : Eval Value) :=
          fueled_throw Signal.noConfusion
        exact hthrow.traced
      | halted halt =>
        have hthrow : Fueled (throw (.halted halt) : Eval Value) :=
          fueled_throw Signal.noConfusion
        exact hthrow.traced
      | outOfFuel => exact absurd rfl hresult
  · exact (fueled_pure _).traced

theorem traced_expr (env : Env) (e : Expr) :
    Traced table fuel ((expr env e).eval table (fuel + 1)) ((expr env e).inside table fuel) := by
  cases e with
  | int _ | float _ | str _ | bool _ =>
    simp only [eval, Evaluation.expr, inside]
    exact (fueled_pure _).traced
  | ident name =>
    simp only [eval, Evaluation.expr, inside]
    exact (fueled_identifier table env name).traced
  | array elements =>
    simp only [eval, Evaluation.expr, inside]
    exact traced_last (.exprs env [] elements) fun _ => fueled_onHost _
  | hash entries =>
    simp only [eval, Evaluation.expr, inside]
    exact traced_last (.pairs env [] entries) fun _ => fueled_onHost _
  | prefixOp op operand =>
    simp only [eval, Evaluation.expr, inside]
    exact traced_last (.expr env operand) fun _ => fueled_ofExcept _
  | infixOp left op right =>
    simp only [eval, Evaluation.expr, inside]
    exact traced_part (.expr env left) fun _ => traced_last (.expr env right) fun _ =>
      fueled_ofExcept _
  | cond test yes no =>
    simp only [eval, Evaluation.expr, inside]
    refine traced_part (.expr env test) fun holds => ?_
    split
    · exact traced_only (.stmts env .null yes)
    · cases no with
      | some no => exact traced_only (.stmts env .null no)
      | none => exact (fueled_pure _).traced
  | fn params body =>
    simp only [eval, Evaluation.expr, inside]
    exact ((fueled_onHost _).bind fun _ => fueled_pure _).traced
  | call callee args =>
    simp only [eval, Evaluation.expr, inside]
    have hdepth : ∀ world, (behind (isQuote env callee) world).depth = world.depth :=
      Records.depth_kept fun _ => records_isQuote callee
    refine (fueled_isQuote env callee).traced.andThen hdepth fun quotes => ?_
    cases quotes with
    | true => exact (fueled_quote args).traced
    | false =>
      exact traced_part (.expr env callee) fun callee =>
        traced_part (.exprs env [] args) fun args => traced_only (.call callee args)
  | index left subscript =>
    simp only [eval, Evaluation.expr, inside]
    exact traced_part (.expr env left) fun _ => traced_last (.expr env subscript) fun _ =>
      fueled_ofExcept _

theorem traced_exprs (env : Env) (read : List Value) (es : List Expr) :
    Traced table fuel ((exprs env read es).eval table (fuel + 1))
      ((exprs env read es).inside table fuel) := by
  cases es with
  | nil =>
    simp only [eval, Evaluation.exprs, inside]
    exact (fueled_pure read.reverse).traced
  | cons e es =>
    simp only [eval, Evaluation.exprs, inside]
    exact traced_part (.expr env e) fun value => traced_only (.exprs env (value :: read) es)

theorem traced_pairs (env : Env) (entries : List (Entry Value)) (unread : List (Expr × Expr)) :
    Traced table fuel ((pairs env entries unread).eval table (fuel + 1))
      ((pairs env entries unread).inside table fuel) := by
  rcases unread with _ | ⟨⟨shown, value⟩, unread⟩
  · simp only [eval, Evaluation.pairsFrom, inside]
    exact (fueled_pure entries).traced
  · simp only [eval, Evaluation.pairsFrom, inside]
    refine traced_part (.expr env shown) fun shown => ?_
    cases hkey : shown.key? with
    | none => exact (fueled_fault _).traced
    | some key =>
      exact traced_part (.expr env value) fun value =>
        traced_only (.pairs env (Entry.insert ⟨key, shown, value⟩ entries) unread)

theorem runsOut_callResult {result : Except Signal Value} {depth : Nat} {world : World} :
    RunsOut (setDepth depth >>= fun _ => callResult result) world ↔ result = .error .outOfFuel := by
  by_cases h : result = .error .outOfFuel
  · rw [h]
    exact iff_of_true ⟨_, rfl⟩ rfl
  · exact iff_of_false ((fueled_setDepth depth).bind (fun _ => fueled_callResult h) world) h

/-- **A call is refused, or goes on with the body of the function, one call deeper.** A refused call
has no parts and does not run out of fuel. The depth is raised for the body only, and the check
stands in front of it. -/
theorem call_cases (id : Identity) (params : List String) (body : List Stmt) (env : Env)
    (args : List Value) (world : World) :
    ((call (.function id params body env) args).inside table fuel world = []
        ∧ ¬ RunsOut ((call (.function id params body env) args).eval table (fuel + 1)) world)
      ∨ world.depth < maxCallDepth ∧ ∃ q : Part × World, q.2.depth = world.depth + 1
        ∧ (call (.function id params body env) args).inside table fuel world = [q]
        ∧ (RunsOut ((call (.function id params body env) args).eval table (fuel + 1)) world
          ↔ RunsOut (q.1.eval table fuel) q.2) := by
  simp only [inside, eval, RunsOut, apply_function]
  by_cases hargs : params.length = args.length
  · by_cases hdepth : maxCallDepth ≤ world.depth
    · left
      rw [if_pos (.inr hdepth), if_neg (Decidable.not_not.mpr hargs), if_pos hdepth]
      exact ⟨rfl, fueled_fault _ world⟩
    · right
      have hentered : ¬(params.length ≠ args.length ∨ maxCallDepth ≤ world.depth) := by
        simp [hargs, hdepth]
      -- neither check refuses the call, so its one part is the body, in the world behind the check
      obtain ⟨scopes, -, hstart⟩ := startCall_ok params args env world
      obtain ⟨result, hcaught, hbody⟩ :=
        caught_ok (Evaluation.stmts table fuel (world.scopes.next :: env) .null body)
          { world with scopes, depth := world.depth + 1 }
      refine ⟨Nat.lt_of_not_le hdepth, (.stmts (world.scopes.next :: env) .null body,
        { world with scopes, depth := world.depth + 1 }), rfl, ?_, ?_⟩
      · rw [if_neg hentered, Inside.andThen, hstart]
        rfl
      · rw [if_neg (Decidable.not_not.mpr hargs), if_neg hdepth, bind_of_ok hstart,
          bind_of_ok hcaught]
        exact runsOut_callResult.trans hbody
  · left
    rw [if_pos (.inl hargs), if_pos hargs]
    exact ⟨rfl, fueled_fault _ world⟩

theorem traced_function (id : Identity) (params : List String) (body : List Stmt) (env : Env)
    (args : List Value) :
    Traced table fuel ((call (.function id params body env) args).eval table (fuel + 1))
      ((call (.function id params body env) args).inside table fuel) := by
  refine ⟨fun world => ?_, fun world => ?_⟩
  · rcases call_cases id params body env args world with ⟨hinside, -⟩ | ⟨hlt, q, hq, hinside, -⟩
    · rw [hinside]
      exact fun _ hq => absurd hq List.not_mem_nil
    · rw [hinside]
      intro q' hq'
      obtain rfl := List.mem_singleton.mp hq'
      -- the limit has not been reached, so that it is kept one call deeper
      omega
  · rcases call_cases id params body env args world with
      ⟨hinside, hruns⟩ | ⟨-, q, -, hinside, hruns⟩
    · rw [hinside]
      exact iff_of_false hruns (by simp)
    · rw [hinside, hruns]
      simp

theorem traced_call (callee : Value) (args : List Value) :
    Traced table fuel ((call callee args).eval table (fuel + 1))
      ((call callee args).inside table fuel) := by
  cases callee with
  | function id params body env => exact traced_function id params body env args
  | builtin b =>
    simp only [eval, Evaluation.apply, inside]
    exact (fueled_onHost _).traced
  | _ =>
    simp only [eval, Evaluation.apply, inside]
    exact (fueled_fault _).traced

/-- **The parts of every part are listed right.** -/
theorem traced (p : Part) : Traced table fuel (p.eval table (fuel + 1)) (p.inside table fuel) := by
  cases p with
  | stmt env s => exact traced_stmt env s
  | stmts env last body => exact traced_stmts env last body
  | iterate env test post body => exact traced_iterate env test post body
  | expr env e => exact traced_expr env e
  | exprs env read es => exact traced_exprs env read es
  | pairs env entries unread => exact traced_pairs env entries unread
  | call callee args => exact traced_call callee args

end Part

end

/-! ## From part to part

Both theorems are an induction, the first along the way from part to part, the second on the
fuel. -/

section

variable {table : BuiltinTable} {fuel fuel' : Nat} {p q : Part} {world world' : World}

/-- **No part is reached at a depth beyond the limit.** Each step keeps below the limit what starts
there. -/
theorem Reaches.depth_le (h : Reaches table fuel p world fuel' q world')
    (hdepth : world.depth ≤ maxCallDepth) : world'.depth ≤ maxCallDepth := by
  induction h with
  | here => exact hdepth
  | inside hq _ ih =>
    have hle := (Part.traced _).depth_le _ _ hq
    rw [Nat.max_eq_right hdepth] at hle
    exact ih hle

/-- **An evaluation runs out of fuel just if it gets to a part without any.** With no fuel at all
the part itself is such a part, and the evaluator says so at once; with more, it runs out just if
one of its parts does. -/
theorem runsOut_iff_reaches :
    RunsOut (p.eval table fuel) world ↔ ∃ q world', Reaches table fuel p world 0 q world' := by
  induction fuel generalizing p world with
  | zero =>
    refine iff_of_true ⟨world, ?_⟩ ⟨p, world, .here 0 p world⟩
    cases p <;> rfl
  | succ fuel ih =>
    rw [p.traced.runsOut]
    constructor
    · rintro ⟨⟨q, world₁⟩, hq, hruns⟩
      obtain ⟨r, world₂, hreaches⟩ := ih.mp hruns
      exact ⟨r, world₂, .inside hq hreaches⟩
    · rintro ⟨r, world₂, hreaches⟩
      cases hreaches with
      | inside hq hreaches => exact ⟨_, hq, ih.mpr ⟨r, world₂, hreaches⟩⟩

end

end Scriptlet.Evaluation
