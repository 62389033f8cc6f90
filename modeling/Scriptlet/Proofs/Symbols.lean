import Scriptlet.Proofs.Layout

/-!
# Symbol tables under the steps of a compilation

What defining, resolving and capturing names do to the tables of the functions around. There are two
recursions in them, and both go outwards from the innermost function: `defineLast`, to bind a name
at the top level, and `resolveIn`, to find one and capture it on the way back. Each fact about the
tables is therefore proved for these two by induction on the functions around, and carried over to
the steps of the compiler from there.
-/

namespace Scriptlet

namespace Symbols

/-! ## Nesting

Only entering and leaving a function changes how many functions are open. -/

theorem length_defineLast (name : String) (table : FunctionTable) (outer : List FunctionTable) :
    (defineLast name table outer).2.2.length = outer.length := by
  induction outer generalizing table with
  | nil => rfl
  | cons next outer ih =>
    simp only [defineLast, List.length_cons]
    rw [ih]

theorem length_resolveIn {name : String} {table table' : FunctionTable}
    {outer outer' : List FunctionTable} {symbol : Symbol}
    (h : resolveIn name table outer = some (symbol, table', outer')) :
    outer'.length = outer.length := by
  induction outer generalizing table table' outer' symbol with
  | nil =>
    rw [resolveIn] at h
    split at h
    · cases h
      rfl
    · cases h
  | cons next outer ih =>
    rw [resolveIn] at h
    split at h
    · cases h
      rfl
    · simp only at h
      split at h
      · cases h
      · rename_i around next' outer'' hnext
        have := ih hnext
        split at h <;> (cases h; rw [List.length_cons, List.length_cons, this])

@[simp] theorem length_outer_define (symbols : Symbols) (name : String) :
    (symbols.define name).2.outer.length = symbols.outer.length := by
  obtain ⟨table, outer, globals⟩ := symbols
  unfold define
  simp only
  split <;> rfl

@[simp] theorem length_outer_defineGlobal (symbols : Symbols) (name : String) :
    (symbols.defineGlobal name).2.outer.length = symbols.outer.length := by
  obtain ⟨table, outer, globals⟩ := symbols
  exact length_defineLast name table outer

@[simp] theorem length_outer_resolve (symbols : Symbols) (name : String) :
    (symbols.resolve name).2.outer.length = symbols.outer.length := by
  obtain ⟨table, outer, globals⟩ := symbols
  unfold resolve
  simp only
  split
  · rfl
  · rename_i h
    exact length_resolveIn h

@[simp] theorem length_outer_require (symbols : Symbols) (name : String) :
    (symbols.require name).2.outer.length = symbols.outer.length := by
  have h := length_outer_resolve symbols name
  unfold require
  split <;> simp_all

@[simp] theorem length_outer_quotes (symbols : Symbols) (callee : Expr) :
    (symbols.quotes callee).2.outer.length = symbols.outer.length := by
  unfold quotes
  split <;> simp

@[simp] theorem length_outer_defineAll (symbols : Symbols) (names : List String) :
    (symbols.defineAll names).outer.length = symbols.outer.length := by
  induction names generalizing symbols with
  | nil => rfl
  | cons name names ih => rw [defineAll, ih, length_outer_define]

@[simp] theorem length_outer_enterBlock (symbols : Symbols) :
    symbols.enterBlock.outer.length = symbols.outer.length := rfl

/-- The built-in functions are defined one after the other. -/
theorem ofBuiltins_eq (names : List String) : ofBuiltins names = names.zipIdx.foldl
    (fun symbols pair => (symbols.defineBuiltin pair.2 pair.1).2) .empty := rfl

/-- **What holds of the empty tables and is kept by defining a built-in function** holds before
anything is compiled. -/
theorem ofBuiltins_induction {motive : Symbols → Prop} (names : List String)
    (hempty : motive .empty) (hdefine : ∀ symbols index name, motive symbols →
      motive (symbols.defineBuiltin index name).2) : motive (ofBuiltins names) := by
  rw [ofBuiltins_eq]
  generalize names.zipIdx = pairs
  generalize empty = symbols at hempty
  induction pairs generalizing symbols with
  | nil => exact hempty
  | cons pair pairs ih => exact ih _ (hdefine symbols pair.2 pair.1 hempty)

theorem outer_ofBuiltins (names : List String) : (ofBuiltins names).outer = [] :=
  ofBuiltins_induction (motive := fun symbols => symbols.outer = []) names rfl fun _ _ _ h => h

theorem blocks_ofBuiltins (names : List String) : (ofBuiltins names).table.blocks = [] :=
  ofBuiltins_induction (motive := fun symbols => symbols.table.blocks = []) names rfl
    fun _ _ _ h => h

end Symbols

end Scriptlet
