import Scriptlet.Proofs.Scopes

/-!
# Trees of environments

Environments share their outer scopes, so what is stored through one of them may be seen through any
number of others. A `Forest` is what building environments and storing values through them leads to,
in any order. Beside it a `Journal` is kept, which has no maps: it lists the scopes of every
environment and every value that has ever been stored, with the scope it was stored in.

A name means what the journal says: the value that was stored last in the nearest scope with a value
for it. An assignment is seen only where that scope is the one that it stored in
(`Forest.nearest_binding`).

The journal says where something is stored without reading what has been stored there before.
`Keeps` ties the two together, an action at a time (`Keeps.perform`), and so for any number of
actions (`keeps_run`).
-/

namespace Scriptlet

namespace Scopes

variable {scopes : Scopes} {id : ScopeId} {name name' : String} {value : Value} {env : Env}

/-! ## Chains of scopes

Where an assignment is seen. It may give a name to a scope that had none, and so become the nearest
binding of environments that went further out before; the scope that holds the name afterwards is
what tells. -/

/-- Names other than the one that is bound mean what they did. -/
theorem lookup?_bind_name (hname : name' ≠ name) (env : Env) :
    (scopes.bind id name value).lookup? name' env = scopes.lookup? name' env := by
  simp only [lookup?_eq, holder?, bound?_bind_name hname]

/-- The name itself means what it did where the nearest scope that holds it is another one. -/
theorem lookup?_bind_other (hid : id < scopes.size)
    (h : (scopes.bind id name value).holder? name env ≠ some id) :
    (scopes.bind id name value).lookup? name env = scopes.lookup? name env := by
  induction env with
  | nil => rfl
  | cons scope env ih =>
    by_cases hscope : scope = id
    · subst hscope
      exact absurd (holder?_cons_of_bound (by simp [bound?_bind_self hid])) h
    · have hsame : (scopes.bind id name value).bound? scope name = scopes.bound? scope name :=
        bound?_bind_other hscope
      cases hbound : scopes.bound? scope name with
      | none =>
        rw [holder?_cons_of_unbound (hsame.trans hbound)] at h
        rw [lookup?_cons_of_unbound (hsame.trans hbound), lookup?_cons_of_unbound hbound, ih h]
      | some v =>
        rw [lookup?_cons_of_bound (hsame.trans hbound), lookup?_cons_of_bound hbound]

/-- What an assignment stores in is the nearest scope that holds the name afterwards. -/
theorem holder?_bind_target (hid : id < scopes.size)
    (htarget : (scopes.holder? name env).or env.getLast? = some id) :
    (scopes.bind id name value).holder? name env = some id := by
  induction env with
  | nil => cases htarget
  | cons scope env ih =>
    by_cases hscope : scope = id
    · subst hscope
      exact holder?_cons_of_bound (by simp [bound?_bind_self hid])
    · cases hbound : scopes.bound? scope name with
      | none =>
        have hsame : (scopes.bind id name value).bound? scope name = none :=
          (bound?_bind_other hscope).trans hbound
        rw [holder?_cons_of_unbound hsame]
        rw [holder?_cons_of_unbound hbound] at htarget
        cases env with
        | nil => exact absurd (Option.some.inj htarget) hscope
        | cons next env => exact ih htarget
      | some v =>
        rw [holder?_cons_of_bound (by simp [hbound])] at htarget
        exact absurd (Option.some.inj htarget) hscope

end Scopes

/-! ## Building environments and storing through them

Four actions, on environments that are known by their numbers. An environment that has not been
built has no scopes, so that nothing can be read or stored through it. -/

/-- What can be done with environments, which are numbered in the order in which they are built. -/
inductive EnvAction where
  | root
  | enclosed (outer : Nat) (inLoop : Bool)
  | set (env : Nat) (name : String) (value : Value)
  | assign (env : Nat) (name : String) (value : Value)

/-- **The scopes and the environments that have been built.** -/
structure Forest where
  scopes : Scopes
  envs : Array Env

namespace Forest

/-- An environment by its number. What has not been built has no scopes. -/
def env (forest : Forest) (e : Nat) : Env :=
  forest.envs[e]?.getD []

/-- A new environment around which stands another one. -/
def enclose (forest : Forest) (outer : Env) (inLoop : Bool) : Forest :=
  ⟨forest.scopes.add inLoop, forest.envs.push (forest.scopes.next :: outer)⟩

def get? (forest : Forest) (e : Nat) (name : String) : Option Value :=
  forest.scopes.lookup? name (forest.env e)

def perform (forest : Forest) : EnvAction → Forest
  | .root => forest.enclose [] false
  | .enclosed outer inLoop => forest.enclose (forest.env outer) inLoop
  | .set e name value => { forest with scopes := forest.scopes.define (forest.env e) name value }
  | .assign e name value => { forest with scopes := forest.scopes.assign name value (forest.env e) }

/-- What so many actions, one after the other, lead to. -/
def run (actions : List EnvAction) : Forest :=
  actions.foldl perform ⟨#[], #[]⟩

end Forest

/-! ## The journal

The same actions on lists. -/

/-- A value that has been stored in a scope. -/
structure Stored where
  scope : ScopeId
  name : String
  value : Value

/-- **The scopes of every environment**, innermost first, **and all that has been stored**, the
latest first. -/
structure Journal where
  envs : Array Env
  stored : List Stored

namespace Journal

/-- An environment by its number. -/
def env (journal : Journal) (e : Nat) : Env :=
  journal.envs[e]?.getD []

/-- The value that was stored last for a name in a scope. -/
def last? (journal : Journal) (scope : ScopeId) (name : String) : Option Value :=
  (journal.stored.find? fun s => s.scope = scope ∧ s.name = name).map Stored.value

/-- The nearest scope of an environment that has a value for a name. -/
def holder? (journal : Journal) (e : Nat) (name : String) : Option ScopeId :=
  (journal.env e).find? fun scope => (journal.last? scope name).isSome

/-- Where an assignment stores: in the nearest scope that has a value for the name, or else in the
outermost one. -/
def target? (journal : Journal) (e : Nat) (name : String) : Option ScopeId :=
  (journal.holder? e name).or (journal.env e).getLast?

def store (journal : Journal) (scope : Option ScopeId) (name : String) (value : Value) : Journal :=
  scope.elim journal fun scope => { journal with stored := ⟨scope, name, value⟩ :: journal.stored }

theorem last?_store (journal : Journal) (scope other : ScopeId) (name name' : String)
    (value : Value) : (journal.store (some scope) name value).last? other name'
      = if other = scope ∧ name' = name then some value else journal.last? other name' := by
  unfold last?
  rw [store, Option.elim_some]
  split
  · rename_i h
    rw [List.find?_cons_of_pos (by simp [h.1, h.2]), Option.map_some]
  · rename_i h
    rw [List.find?_cons_of_neg]
    exact fun hs => h ((of_decide_eq_true hs).imp Eq.symm Eq.symm)

/-- Every environment has a scope of its own, with the same number. -/
def perform (journal : Journal) : EnvAction → Journal
  | .root => { journal with envs := journal.envs.push [journal.envs.size] }
  | .enclosed outer _ =>
    { journal with envs := journal.envs.push (journal.envs.size :: journal.env outer) }
  | .set e name value => journal.store (journal.env e).head? name value
  | .assign e name value => journal.store (journal.target? e name) name value

def run (actions : List EnvAction) : Journal :=
  actions.foldl perform ⟨#[], []⟩

end Journal

namespace Forest

/-- **A forest in which every scope holds what was stored last in it.** The chains are those of the
journal, and none of their scopes is missing. -/
structure Keeps (forest : Forest) (journal : Journal) : Prop where
  envs : forest.envs = journal.envs
  size : forest.scopes.size = forest.envs.size
  chains : ∀ env ∈ forest.envs, env ≠ [] ∧ ∀ scope ∈ env, scope < forest.scopes.size
  values : ∀ scope name, forest.scopes.bound? scope name = journal.last? scope name

namespace Keeps

variable {forest : Forest} {journal : Journal}

theorem env_eq (h : Keeps forest journal) (e : Nat) : forest.env e = journal.env e := by
  rw [Forest.env, Journal.env, h.envs]

theorem scope_lt (h : Keeps forest journal) {e : Nat} {scope : ScopeId}
    (hscope : scope ∈ forest.env e) : scope < forest.scopes.size := by
  unfold Forest.env at hscope
  cases henv : forest.envs[e]? with
  | none => rw [henv] at hscope; cases hscope
  | some env =>
    rw [henv] at hscope
    exact (h.chains env (Array.mem_of_getElem? henv)).2 scope hscope

theorem holder?_eq (h : Keeps forest journal) (e : Nat) (name : String) :
    forest.scopes.holder? name (forest.env e) = journal.holder? e name := by
  simp only [Scopes.holder?, Journal.holder?, h.values, h.env_eq]

theorem target?_eq (h : Keeps forest journal) (e : Nat) (name : String) :
    (forest.scopes.holder? name (forest.env e)).or (forest.env e).getLast?
      = journal.target? e name := by
  rw [h.holder?_eq, h.env_eq, Journal.target?]

theorem target_lt (h : Keeps forest journal) {e : Nat} {name : String} {scope : ScopeId}
    (htarget : journal.target? e name = some scope) : scope < forest.scopes.size := by
  rw [← h.target?_eq] at htarget
  rcases Option.or_eq_some_iff.mp htarget with hholder | ⟨-, hroot⟩
  · exact h.scope_lt (List.mem_of_find?_eq_some hholder)
  · exact h.scope_lt (List.mem_of_getLast? hroot)

/-- An environment that has been built has a root to store in. -/
theorem exists_target (h : Keeps forest journal) {e : Nat} (he : e < forest.envs.size)
    (name : String) : ∃ scope, journal.target? e name = some scope := by
  have henv : forest.env e = forest.envs[e] := by
    rw [Forest.env, Array.getElem?_eq_getElem he, Option.getD_some]
  have hne : forest.env e ≠ [] := henv ▸ (h.chains _ (Array.getElem_mem he)).1
  rw [← h.target?_eq, List.getLast?_eq_some_getLast hne]
  cases forest.scopes.holder? name (forest.env e) with
  | none => exact ⟨_, rfl⟩
  | some scope => exact ⟨_, rfl⟩

/-- What a name means is the value that was stored last in the nearest scope that has one. -/
theorem get?_eq (h : Keeps forest journal) (e : Nat) (name : String) :
    forest.get? e name = (journal.holder? e name).bind fun scope => journal.last? scope name := by
  rw [get?, Scopes.lookup?_eq, h.holder?_eq]
  simp only [h.values]

/-! ### What an action preserves -/

theorem enclose (h : Keeps forest journal) {outer : Env}
    (houter : ∀ scope ∈ outer, scope < forest.scopes.size) (inLoop : Bool) :
    Keeps (forest.enclose outer inLoop)
      { journal with envs := journal.envs.push (journal.envs.size :: outer) } where
  envs := by
    rw [Forest.enclose, Scopes.next, h.size, h.envs]
  size := by
    rw [Forest.enclose, Scopes.size_add, Array.size_push, h.size]
  chains env henv := by
    rw [Forest.enclose, Scopes.size_add]
    rcases Array.mem_push.mp henv with henv | rfl
    · exact ⟨(h.chains env henv).1, fun scope hscope =>
        Nat.lt_succ_of_lt ((h.chains env henv).2 scope hscope)⟩
    · refine ⟨List.cons_ne_nil _ _, List.forall_mem_cons.mpr ⟨Nat.lt_succ_self _, ?_⟩⟩
      exact fun scope hscope => Nat.lt_succ_of_lt (houter scope hscope)
  values scope name := (Scopes.bound?_add_eq inLoop scope name).trans (h.values scope name)

theorem store (h : Keeps forest journal) {scope : Option ScopeId}
    (hscope : ∀ id ∈ scope, id < forest.scopes.size) (name : String) (value : Value) :
    Keeps { forest with scopes := forest.scopes.bindAt scope name value }
      (journal.store scope name value) := by
  cases scope with
  | none => exact h
  | some id =>
    refine ⟨h.envs, ?_, ?_, fun other name' => ?_⟩
    · exact (Scopes.size_bind ..).trans h.size
    · intro env henv
      show _ ∧ ∀ scope ∈ env, scope < (forest.scopes.bind id name value).size
      rw [Scopes.size_bind]
      exact h.chains env henv
    · show (forest.scopes.bind id name value).bound? other name' = _
      rw [Scopes.bound?_bind (hscope id rfl), h.values, Journal.last?_store]

theorem perform (h : Keeps forest journal) (action : EnvAction) :
    Keeps (forest.perform action) (journal.perform action) := by
  cases action with
  | root => exact h.enclose (fun _ hscope => absurd hscope List.not_mem_nil) false
  | enclosed outer inLoop =>
    rw [Forest.perform, Journal.perform, ← h.env_eq]
    exact h.enclose (fun _ hscope => h.scope_lt hscope) inLoop
  | set e name value =>
    rw [Forest.perform, Journal.perform, Scopes.define_eq, ← h.env_eq]
    exact h.store (fun id hid => h.scope_lt (List.mem_of_mem_head? hid)) name value
  | assign e name value =>
    rw [Forest.perform, Journal.perform, Scopes.assign_eq, h.target?_eq]
    exact h.store (fun id hid => h.target_lt hid) name value

end Keeps

theorem run_concat (actions : List EnvAction) (action : EnvAction) :
    run (actions ++ [action]) = (run actions).perform action := by
  rw [run, List.foldl_append]
  rfl

/-- **Whatever is done, every scope holds what was stored last in it.** Induction on the actions. -/
theorem keeps_run (actions : List EnvAction) : Keeps (run actions) (Journal.run actions) := by
  have hrun : ∀ {forest journal}, Keeps forest journal →
      Keeps (actions.foldl perform forest) (actions.foldl Journal.perform journal) := by
    induction actions with
    | nil => exact id
    | cons action actions ih => exact fun h => ih (h.perform action)
  exact hrun ⟨rfl, rfl, fun env henv => absurd henv (Array.not_mem_empty env), fun _ _ => rfl⟩

/-- **A name means its nearest binding, and an assignment changes that one.** In every environment
of a forest a name means the value that was stored last in the nearest scope that has one for it. An
assignment stores in that scope, or in the root if there is none, and in no other. Afterwards the
name means the value in the environment that it was assigned in. No other name means anything else
than before, and nor does the name itself where its nearest scope is then a different one. -/
theorem nearest_binding (actions : List EnvAction) (e : Nat) (name : String) (value : Value)
    (he : e < (run actions).envs.size) :
    (∀ e' name', (run actions).get? e' name'
        = ((Journal.run actions).holder? e' name').bind fun scope =>
          (Journal.run actions).last? scope name')
      ∧ ∃ target, (Journal.run actions).target? e name = some target
        ∧ (∀ scope name', (run (actions ++ [.assign e name value])).scopes.bound? scope name'
          = if scope = target ∧ name' = name then some value
            else (run actions).scopes.bound? scope name')
        ∧ (run (actions ++ [.assign e name value])).get? e name = some value
        ∧ (∀ e' name', name' ≠ name →
          (run (actions ++ [.assign e name value])).get? e' name' = (run actions).get? e' name')
        ∧ ∀ e',
          (Journal.run (actions ++ [.assign e name value])).holder? e' name ≠ some target →
          (run (actions ++ [.assign e name value])).get? e' name = (run actions).get? e' name := by
  have hkeeps := keeps_run actions
  have hkeeps' := keeps_run (actions ++ [.assign e name value])
  obtain ⟨target, htarget⟩ := hkeeps.exists_target he name
  have hlt := hkeeps.target_lt htarget
  -- an assignment is a binding in one scope, and makes no environment
  have hafter : run (actions ++ [.assign e name value])
      = { run actions with scopes := (run actions).scopes.bind target name value } := by
    rw [run_concat, perform, Scopes.assign_eq, hkeeps.target?_eq, htarget]
    rfl
  have henv (e' : Nat) :
      (run (actions ++ [.assign e name value])).env e' = (run actions).env e' := by
    rw [hafter]
    rfl
  have hscopes := congrArg Forest.scopes hafter
  refine ⟨hkeeps.get?_eq, target, htarget, fun scope name' => ?_, ?_, fun e' name' hname => ?_,
    fun e' hholder => ?_⟩
  · rw [hscopes, Scopes.bound?_bind hlt]
  · rw [get?, henv, hscopes, Scopes.lookup?_eq,
      Scopes.holder?_bind_target hlt ((hkeeps.target?_eq e name).trans htarget), Option.bind_some,
      Scopes.bound?_bind_self hlt]
  · rw [get?, henv, hscopes, Scopes.lookup?_bind_name hname, get?]
  · rw [← hkeeps'.holder?_eq, henv, hscopes] at hholder
    rw [get?, henv, hscopes, Scopes.lookup?_bind_other hlt hholder, get?]

/-- A loop that hides a name of the root around it, an environment inside the loop and one beside
it, and another root. -/
def besideLoop : List EnvAction :=
  [.root, .set 0 "a" (.int 1), .enclosed 0 true, .set 1 "a" (.int 2), .enclosed 1 false,
    .enclosed 0 false, .root]

/-- What is assigned inside the loop is seen there, and not beside it or from the other root. -/
theorem nearest_binding_besideLoop :
    2 < (run besideLoop).envs.size
      ∧ (run (besideLoop ++ [.assign 2 "a" (.int 5)])).get? 2 "a" = some (.int 5)
      ∧ (run (besideLoop ++ [.assign 2 "a" (.int 5)])).get? 3 "a" = some (.int 1)
      ∧ (run (besideLoop ++ [.assign 2 "a" (.int 5)])).get? 4 "a" = none := by
  have he : 2 < (run besideLoop).envs.size := by decide +kernel
  obtain ⟨hget, target, htarget, -, hself, -, hother⟩ :=
    nearest_binding besideLoop 2 "a" (.int 5) he
  have hloop : (Journal.run besideLoop).target? 2 "a" = some 1 := by decide +kernel
  obtain rfl : 1 = target := Option.some.inj (hloop.symm.trans htarget)
  refine ⟨he, hself, (hother 3 (by decide +kernel)).trans ?_,
    (hother 4 (by decide +kernel)).trans ?_⟩
  · have hholder : (Journal.run besideLoop).holder? 3 "a" = some 0 := by decide +kernel
    rw [hget, hholder]
    rfl
  · have hholder : (Journal.run besideLoop).holder? 4 "a" = none := by decide +kernel
    rw [hget, hholder]
    rfl

end Forest

end Scriptlet
