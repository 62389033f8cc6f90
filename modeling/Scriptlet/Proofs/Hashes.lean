import Mathlib.Data.List.Find
import Mathlib.Data.List.Induction
import Scriptlet.Proofs.Evaluation.Effects
import Scriptlet.Proofs.Agreement.Steps

/-!
# Hashes

A hash literal makes a map in which the last pair with a key wins, in evaluation and on the machine
alike: `hash_lastWins`. What the entries hold is said by the equality of the language alone
(`LastWins`); that there is one for each key comes from their order.

A key stands for its kind and sixty-four bits (`Key.code`): those of an integer, or a digest of a
text. As long as no two of the texts have one digest, a map from codes is the same map
(`Represents.codedMap_eq`).

There are three descriptions of one map, and the proof goes from one to the next. The pairs in the
order of the text are what the program says. The sorted list of entries is what both backends build.
The map from codes is what a table of digests would hold. `Represents` is the invariant between the
first two, kept by putting in one pair (`Represents.insert`).
-/

namespace Scriptlet

/-! ## Keys

Keys are ordered by kind and then by what they hold. The order is a lawful one, so that two keys
compare as equal only if they are. -/

namespace Key

instance : Std.OrientedCmp Key.order where
  eq_swap {a b} := by
    cases a <;> cases b <;> simp only [order] <;> exact Std.OrientedOrd.eq_swap

instance : Std.LawfulEqCmp Key.order where
  eq_of_compare {a b} h := by
    cases a <;> cases b <;> simp only [order, rank] at h
    all_goals first
      | exact congrArg _ (Std.LawfulEqOrd.eq_of_compare h)
      | exact absurd h (by decide)
  compare_self {a} := by
    cases a <;> simp only [order] <;> exact Std.ReflOrd.compare_self

instance : Std.TransCmp Key.order where
  isLE_trans {a b c} hab hbc := by
    cases a <;> cases b <;> cases c <;> simp only [order, rank] at hab hbc ⊢
    all_goals first
      | exact Std.TransOrd.isLE_trans hab hbc
      | rfl
      | exact absurd hab (by decide)
      | exact absurd hbc (by decide)

/-- A key as its kind and sixty-four bits. -/
def code (digest : String → UInt64) : Key → Nat × UInt64
  | int bits => (0, bits)
  | float text => (1, digest text)
  | bool value => (2, if value then 1 else 0)
  | str text => (3, digest text)

end Key

/-! ## Lists of entries

Entries are kept in ascending order of keys. An entry that is put in takes the place of one with its
key, or goes where it belongs. -/

namespace Entry

variable {α : Type} {new e : Entry α} {entries : List (Entry α)}

/-- The keys are in ascending order. -/
def Sorted (entries : List (Entry α)) : Prop :=
  entries.Pairwise fun e e' => e.key.order e'.key = .lt

theorem mem_insert (h : e ∈ insert new entries) : e = new ∨ e ∈ entries := by
  induction entries with
  | nil => exact .inl (List.mem_singleton.mp h)
  | cons first rest ih =>
    unfold insert at h
    split at h
    · exact List.mem_cons.mp h
    · exact (List.mem_cons.mp h).imp_right (List.mem_cons_of_mem _)
    · rcases List.mem_cons.mp h with rfl | h
      · exact .inr List.mem_cons_self
      · exact (ih h).imp_right (List.mem_cons_of_mem _)

theorem sorted_insert (h : Sorted entries) : Sorted (insert new entries) := by
  induction entries with
  | nil => exact List.pairwise_singleton _ _
  | cons first rest ih =>
    obtain ⟨hfirst, hrest⟩ := List.pairwise_cons.mp h
    unfold insert
    split
    · rename_i horder
      refine List.pairwise_cons.mpr ⟨fun e he => ?_, h⟩
      rcases List.mem_cons.mp he with rfl | he
      · exact horder
      · exact Std.TransCmp.lt_trans horder (hfirst e he)
    · rename_i horder
      have hkey : new.key = first.key := Std.LawfulEqCmp.eq_of_compare horder
      exact List.pairwise_cons.mpr ⟨fun e he => hkey ▸ hfirst e he, hrest⟩
    · rename_i horder
      refine List.pairwise_cons.mpr ⟨fun e he => ?_, ih hrest⟩
      rcases mem_insert he with rfl | he
      · exact Std.OrientedCmp.gt_iff_lt.mp horder
      · exact hfirst e he

/-- **An entry that is put in is found under its key, and nothing else changes.** This alone says
what the list is as a map; its order is needed only for there being one entry for each key. -/
theorem find?_insert (key : Key) : (insert new entries).find? (fun e => e.key = key)
    = if new.key = key then some new else entries.find? fun e => e.key = key := by
  induction entries with
  | nil => by_cases h : new.key = key <;> simp [insert, h]
  | cons first rest ih =>
    unfold insert
    split
    · by_cases h : new.key = key <;> simp [h]
    · rename_i horder
      have hkey : new.key = first.key := Std.LawfulEqCmp.eq_of_compare horder
      by_cases h : new.key = key <;> simp [← hkey, h]
    · rename_i horder
      have hne : first.key ≠ new.key := by
        intro hkey
        have hself : new.key.order new.key = .eq := Std.ReflCmp.compare_self
        rw [hkey, hself] at horder
        cases horder
      by_cases h : new.key = key
      · subst h
        simp [hne, ih]
      · by_cases h' : first.key = key <;> simp [h, h', ih]

/-- An entry is found under its own key. -/
theorem find?_eq_of_mem (h : Sorted entries) (he : e ∈ entries) :
    entries.find? (fun e' => e'.key = e.key) = some e := by
  induction entries with
  | nil => cases he
  | cons first rest ih =>
    obtain ⟨hfirst, hrest⟩ := List.pairwise_cons.mp h
    rcases List.mem_cons.mp he with rfl | he
    · simp
    · have hne : first.key ≠ e.key := by
        intro hkey
        have horder := hfirst e he
        have hself : e.key.order e.key = .eq := Std.ReflCmp.compare_self
        rw [hkey, hself] at horder
        cases horder
      simp [hne, ih hrest he]

end Entry

/-! ## Values as keys

The language compares values by `identical`, a hash by keys. For integers, truth values and texts
that is the same; a float is a key by its rounded text, so it is left out. -/

namespace Value

/-- A value that is a key by exactly what it holds: floats are rounded. -/
def IsExactKey : Value → Prop
  | int _ | bool _ | str _ => True
  | _ => False

theorem IsExactKey.key? {v : Value} (h : v.IsExactKey) : ∃ key, v.key? = some key := by
  cases v <;> first | exact ⟨_, rfl⟩ | cases h

/-- The keys of two values are the same where the language has the values for equal. -/
theorem IsExactKey.identical_iff {a b : Value} (ha : a.IsExactKey) (hb : b.IsExactKey) :
    a.identical b = true ↔ a.key? = b.key? := by
  cases a <;> cases ha <;> cases b <;> cases hb
  case int.intro.int.intro i j =>
    -- an integer is its bits
    cases i
    cases j
    simp [identical, same, Value.key?]
  all_goals simp [identical, same, Value.key?]

end Value

/-! ## What pairs make

`LastWins` speaks of pairs and the equality of the language, and of entries only as a list of
pairs. -/

/-- The last of some pairs of keys and values whose key equals `k`. -/
def lastPair? (pairs : List (Value × Value)) (k : Value) : Option (Value × Value) :=
  pairs.reverse.find? fun pair => pair.1.identical k

/-- The value of the last pair whose key equals `k`, or `null` if there is none. -/
def lastValue (pairs : List (Value × Value)) (k : Value) : Value :=
  ((lastPair? pairs k).map Prod.snd).getD .null

/-- **The entries of a hash are the last pairs of the keys that there are.** No two of them have
equal keys, each is the last pair with its key, none is missing, and a subscript gives the value of
the last pair or `null`. -/
structure LastWins (pairs : List (Value × Value)) (entries : List (Entry Value)) : Prop where
  distinct : entries.Pairwise fun e e' => e.shown.identical e'.shown = false
  last : ∀ e ∈ entries, lastPair? pairs e.shown = some (e.shown, e.value)
  covers : ∀ pair ∈ pairs, ∃ e ∈ entries, e.shown.identical pair.1 = true
  subscript : ∀ id k, k.IsExactKey →
    (Value.hash id entries).subscript k = .ok (lastValue pairs k)

/-- Puts pairs into the entries of a hash in turn. -/
def Value.insertPairs (entries : List (Entry Value)) (pairs : List (Value × Value)) :
    Except Fault (List (Entry Value)) :=
  pairs.foldlM (fun entries pair => insertPair entries pair.1 pair.2) entries

/-- A map from codes of keys, into which pairs are put in turn. -/
def codedMap (digest : String → UInt64) (pairs : List (Value × Value)) :
    Std.TreeMap (Nat × UInt64) (Value × Value)
      (compareLex (compareOn Prod.fst) (compareOn Prod.snd)) :=
  pairs.foldl (fun map pair =>
    match pair.1.key? with
    | some key => map.insert (key.code digest) pair
    | none => map) ∅

/-- No two of the texts among some values have the same digest. -/
def Separates (digest : String → UInt64) (values : List Value) : Prop :=
  ∀ s t, .str s ∈ values → .str t ∈ values → digest s = digest t → s = t

theorem Separates.mono {digest : String → UInt64} {values values' : List Value}
    (h : Separates digest values) (hsub : values' ⊆ values) : Separates digest values' :=
  fun s t hs ht => h s t (hsub hs) (hsub ht)

/-- **Entries that have been made of some pairs**, said by their keys. What is found under a key is
the last pair with that key. -/
structure Represents (pairs : List (Value × Value)) (entries : List (Entry Value)) : Prop where
  sorted : Entry.Sorted entries
  exact : ∀ e ∈ entries, e.shown.IsExactKey ∧ e.shown.key? = some e.key
  find : ∀ key, (entries.find? fun e => e.key = key).map (fun e => (e.shown, e.value))
    = pairs.reverse.find? fun pair => pair.1.key? = some key

namespace Represents

variable {pairs : List (Value × Value)} {entries : List (Entry Value)}

theorem nil : Represents [] [] :=
  ⟨.nil, fun _ he => absurd he List.not_mem_nil, fun _ => rfl⟩

theorem insert (h : Represents pairs entries) {k value : Value} {key : Key} (hk : k.IsExactKey)
    (hkey : k.key? = some key) :
    Represents (pairs ++ [(k, value)]) (Entry.insert ⟨key, k, value⟩ entries) where
  sorted := Entry.sorted_insert h.sorted
  exact e he := by
    rcases Entry.mem_insert he with rfl | he
    · exact ⟨hk, hkey⟩
    · exact h.exact e he
  find key' := by
    rw [Entry.find?_insert, List.reverse_append, List.reverse_singleton, List.singleton_append,
      List.find?_cons, ← h.find key']
    by_cases heq : key = key' <;> simp [hkey, heq]

/-- Pairs with exact keys can always be put in. -/
theorem insertPairs (h : Represents pairs entries) {new : List (Value × Value)}
    (hnew : ∀ pair ∈ new, pair.1.IsExactKey) :
    ∃ entries', Value.insertPairs entries new = .ok entries'
      ∧ Represents (pairs ++ new) entries' := by
  induction new generalizing pairs entries with
  | nil => exact ⟨entries, rfl, by rwa [List.append_nil]⟩
  | cons pair new ih =>
    obtain ⟨k, value⟩ := pair
    have hk : k.IsExactKey := hnew _ List.mem_cons_self
    obtain ⟨key, hkey⟩ := hk.key?
    obtain ⟨entries', heq, hrep⟩ := ih (h.insert hk hkey)
      fun pair hpair => hnew pair (List.mem_cons_of_mem _ hpair)
    have hfirst : Value.insertPair entries k value
        = .ok (Entry.insert ⟨key, k, value⟩ entries) := by
      unfold Value.insertPair
      rw [hkey]
    refine ⟨entries', ?_, by rwa [List.append_assoc] at hrep⟩
    unfold Value.insertPairs at heq ⊢
    rw [List.foldlM_cons, hfirst]
    exact heq

/-- The pair of a key is found by the equality of the language. -/
theorem lastPair?_eq (h : Represents pairs entries) (hpairs : ∀ pair ∈ pairs, pair.1.IsExactKey)
    {k : Value} {key : Key} (hk : k.IsExactKey) (hkey : k.key? = some key) :
    lastPair? pairs k
      = (entries.find? fun e => e.key = key).map fun e => (e.shown, e.value) := by
  rw [h.find key, lastPair?]
  refine List.find?_congr fun pair hpair => ?_
  have hexact := hpairs pair (List.mem_reverse.mp hpair)
  rw [Bool.eq_iff_iff, hexact.identical_iff hk, hkey, decide_eq_true_iff]

/-- **Entries that represent some pairs are the last pairs of the keys that there are.** Keys are
exchanged for the equality of the language, which is possible as they are exact. -/
theorem lastWins (h : Represents pairs entries) (hpairs : ∀ pair ∈ pairs, pair.1.IsExactKey) :
    LastWins pairs entries where
  distinct := by
    refine h.sorted.imp_of_mem fun {e e'} he he' horder => ?_
    obtain ⟨hexact, hkey⟩ := h.exact e he
    obtain ⟨hexact', hkey'⟩ := h.exact e' he'
    rw [Bool.eq_false_iff]
    intro hidentical
    have hsame := (hexact.identical_iff hexact').mp hidentical
    rw [hkey, hkey', Option.some.injEq] at hsame
    have hself : e'.key.order e'.key = .eq := Std.ReflCmp.compare_self
    rw [hsame, hself] at horder
    cases horder
  last e he := by
    obtain ⟨hexact, hkey⟩ := h.exact e he
    rw [h.lastPair?_eq hpairs hexact hkey, Entry.find?_eq_of_mem h.sorted he, Option.map_some]
  covers pair hpair := by
    have hexact := hpairs pair hpair
    obtain ⟨key, hkey⟩ := hexact.key?
    -- the pair itself has the key, so that there is a last one
    have hsome : (lastPair? pairs pair.1).isSome := by
      rw [lastPair?, List.find?_isSome]
      exact ⟨pair, List.mem_reverse.mpr hpair, (hexact.identical_iff hexact).mpr rfl⟩
    rw [h.lastPair?_eq hpairs hexact hkey, Option.isSome_map, Option.isSome_iff_exists] at hsome
    obtain ⟨e, he⟩ := hsome
    have hmem := List.mem_of_find?_eq_some he
    obtain ⟨hshown, hkey'⟩ := h.exact e hmem
    have hfound : e.key = key := by simpa using List.find?_some he
    exact ⟨e, hmem, (hshown.identical_iff hexact).mpr (by rw [hkey', hkey, hfound])⟩
  subscript id k hk := by
    obtain ⟨key, hkey⟩ := hk.key?
    simp only [Value.subscript, hkey]
    rw [lastValue, h.lastPair?_eq hpairs hk hkey, Option.map_map]
    rfl

end Represents

/-! ## Keys by their codes

A code may stand for two texts, if they have one digest. Where the texts that occur are told apart
by their digests, codes are as good as keys. -/

theorem lastPair?_append (pairs : List (Value × Value)) (pair : Value × Value) (k : Value) :
    lastPair? (pairs ++ [pair]) k
      = if pair.1.identical k then some pair else lastPair? pairs k := by
  unfold lastPair?
  rw [List.reverse_append, List.reverse_singleton, List.singleton_append, List.find?_cons]
  cases pair.1.identical k <;> rfl

/-- The codes of two keys are the same where the language has the values for equal. -/
theorem Value.IsExactKey.code_eq_iff {a b : Value} {key key' : Key} {digest : String → UInt64}
    (ha : a.IsExactKey) (hb : b.IsExactKey) (hkey : a.key? = some key) (hkey' : b.key? = some key')
    (hdigest : ∀ s t, a = .str s → b = .str t → digest s = digest t → s = t) :
    key.code digest = key'.code digest ↔ a.identical b = true := by
  rw [ha.identical_iff hb, hkey, hkey', Option.some.injEq]
  refine ⟨fun hcode => ?_, congrArg _⟩
  cases a <;> cases ha <;> cases b <;> cases hb <;> cases hkey <;> cases hkey'
  case str.intro.str.intro.refl.refl s t =>
    exact congrArg _ (hdigest s t rfl rfl (Prod.mk.inj hcode).2)
  case bool.intro.bool.intro.refl.refl b b' =>
    cases b <;> cases b' <;> first | rfl | exact absurd hcode (by simp [Key.code])
  all_goals simp_all [Key.code]

theorem compareLex_eq_iff (code code' : Nat × UInt64) :
    compareLex (compareOn Prod.fst) (compareOn Prod.snd) code code' = .eq ↔ code = code' := by
  simp only [compareLex_eq_eq, compareOn, Std.LawfulEqOrd.compare_eq_iff_eq, Prod.ext_iff]

/-- **As long as no two texts have one digest, codes of keys do as well as keys.** Induction on the
pairs from the last one backwards, as the last one with a key wins on both sides. -/
theorem codedMap_eq (digest : String → UInt64) {pairs : List (Value × Value)}
    (hpairs : ∀ pair ∈ pairs, pair.1.IsExactKey)
    {k : Value} {key : Key} (hk : k.IsExactKey) (hkey : k.key? = some key)
    (hdigest : Separates digest (k :: pairs.map Prod.fst)) :
    (codedMap digest pairs)[key.code digest]? = lastPair? pairs k := by
  -- the map grows at the end of the pairs
  induction pairs using List.reverseRecOn with
  | nil => rfl
  | append_singleton pairs pair ih =>
    obtain ⟨key', hkey'⟩ := (hpairs pair (by simp)).key?
    have hstep : codedMap digest (pairs ++ [pair])
        = (codedMap digest pairs).insert (key'.code digest) pair := by
      simp only [codedMap, List.foldl_append, List.foldl_cons, List.foldl_nil, hkey']
    have hrest := ih (fun p hp => hpairs p (List.mem_append_left _ hp)) <|
      hdigest.mono (List.cons_subset_cons _ (List.map_subset _ (List.subset_append_left _ _)))
    have hcode := (hpairs pair (by simp)).code_eq_iff hk hkey' hkey fun s t hs ht =>
      hdigest s t (by simp [hs]) (by simp [ht])
    rw [hstep, Std.TreeMap.getElem?_insert, lastPair?_append, hrest]
    simp only [compareLex_eq_iff, hcode]

/-! ## Evaluation

The evaluator reads the pairs in the order of the text and puts each of them in as soon as it has
come to its value. -/

namespace Evaluation

/-- Pairs of expressions are evaluated in turn, each key before its value, to pairs of values. -/
inductive PairsEvaluate (table : BuiltinTable) (env : Env) :
    (fuel : Nat) → World → List (Expr × Expr) → List (Value × Value) → World → Prop
  | nil {fuel : Nat} {world : World} : PairsEvaluate table env (fuel + 1) world [] [] world
  | cons {fuel : Nat} {world world₁ world₂ world₃ : World} {key value : Expr} {k v : Value}
      {rest : List (Expr × Expr)} {values : List (Value × Value)}
      (hkey : expr table fuel env key world = .ok k world₁)
      (hvalue : expr table fuel env value world₁ = .ok v world₂)
      (hrest : PairsEvaluate table env fuel world₂ rest values world₃) :
      PairsEvaluate table env (fuel + 1) world ((key, value) :: rest) ((k, v) :: values) world₃

/-- What indexing a value by a key gives, wherever the two come from. -/
def Indexes (table : BuiltinTable) (container k result : Value) : Prop :=
  ∀ (fuel : Nat) (env : Env) (left subscript : Expr) (world world₁ world₂ : World),
    expr table fuel env left world = .ok container world₁ →
    expr table fuel env subscript world₁ = .ok k world₂ →
    expr table (fuel + 1) env (.index left subscript) world = .ok result world₂

variable {table : BuiltinTable} {env : Env} {fuel : Nat} {world world' : World}

theorem indexes {container k result : Value} (h : container.subscript k = .ok result) :
    Indexes table container k result := by
  intro fuel env left subscript world world₁ world₂ hleft hsubscript
  rw [expr, bind_of_ok hleft, bind_of_ok hsubscript, ofExcept_ok h]

theorem pairsFrom_eq {pairs : List (Expr × Expr)} {values : List (Value × Value)}
    (h : PairsEvaluate table env fuel world pairs values world')
    {entries entries' : List (Entry Value)}
    (hentries : Value.insertPairs entries values = .ok entries') :
    pairsFrom table fuel env entries pairs world = .ok entries' world' := by
  induction h generalizing entries with
  | nil =>
    cases hentries
    rw [pairsFrom]
    rfl
  | @cons fuel world world₁ world₂ world₃ key value k v rest values hkey hvalue _ ih =>
    rw [pairsFrom, bind_of_ok hkey]
    unfold Value.insertPairs at hentries
    rw [List.foldlM_cons] at hentries
    cases hk : k.key? with
    | none =>
      simp only [Value.insertPair, hk] at hentries
      cases hentries
    | some key' =>
      simp only [Value.insertPair, hk] at hentries
      show (expr table fuel env value >>= fun value => _) world₁ = _
      rw [bind_of_ok hvalue]
      exact ih hentries

end Evaluation

/-! ## The machine

The machine has all keys and values on the stack first, and puts in the pairs from the bottom up. -/

namespace Machine

variable {m : Machine}

/-- What indexing a value by a key gives, wherever the two come from. -/
def Indexes (container k result : Value) : Prop :=
  ∀ m : Machine, InstrAt m.frame.code.code m.frame.position .index [] → 2 ≤ m.top →
    m.stackTop = k → m.popped.stackTop = container →
    step m = push result (m.advance Op.index.size).popped.popped

theorem indexes {container k result : Value} (h : container.subscript k = .ok result) :
    Indexes container k result := by
  intro m hinstr htop hk hcontainer
  have hfirst : pop (m.advance Op.index.size) = .ok k (m.advance Op.index.size).popped := by
    rw [← hk]
    exact pop_eq (show 0 < m.top by omega)
  have hsecond : pop (m.advance Op.index.size).popped
      = .ok container (m.advance Op.index.size).popped.popped := by
    rw [← hcontainer]
    exact pop_eq (show 0 < m.top - 1 by omega)
  rw [step_eq_perform hinstr]
  show (pop >>= fun subscript => pop >>= fun container =>
    ofExcept (container.subscript subscript) >>= push) _ = _
  rw [bind_ok hfirst, bind_ok hsecond, bind_ok (ofExcept_ok h)]

theorem insertPairs_flatMap {values : List (Value × Value)} {entries entries' : List (Entry Value)}
    (hentries : Value.insertPairs entries values = .ok entries') :
    insertPairs entries (values.flatMap fun pair => [pair.1, pair.2]) m = .ok entries' m := by
  induction values generalizing entries with
  | nil =>
    cases hentries
    rfl
  | cons pair values ih =>
    unfold Value.insertPairs at hentries
    rw [List.foldlM_cons] at hentries
    cases hpair : Value.insertPair entries pair.1 pair.2 with
    | error fault =>
      rw [hpair] at hentries
      cases hentries
    | ok entries₁ =>
      rw [hpair] at hentries
      show (ofExcept (Value.insertPair entries pair.1 pair.2) >>= fun entries =>
        insertPairs entries _) m = _
      rw [bind_ok (ofExcept_ok hpair)]
      exact ih hentries

theorem length_flatMap_pair (values : List (Value × Value)) :
    (values.flatMap fun pair => [pair.1, pair.2]).length = 2 * values.length := by
  induction values with
  | nil => rfl
  | cons pair values ih =>
    rw [List.flatMap_cons, List.length_append, ih]
    simp only [List.length_cons, List.length_nil]
    omega

/-- The hash of pairs on top of the stack takes their place. -/
theorem step_hash {values : List (Value × Value)} {entries : List (Entry Value)}
    (hinstr : InstrAt m.frame.code.code m.frame.position .hash [2 * values.length])
    (htop : m.top ≤ stackSize)
    (hslots : m.slots (m.top - 2 * values.length)
      = values.flatMap fun pair => [pair.1, pair.2])
    (hentries : Value.insertPairs [] values = .ok entries) :
    step m = push (.hash m.host.fresh entries)
      (((m.advance Op.hash.size).withHost { m.host with fresh := m.host.fresh + 1 }).withTop
        (m.top - 2 * values.length)) := by
  -- the pairs are on the stack, so their number is within the limits of the stack and of the
  -- operand
  have hcount : 2 * values.length ≤ m.top := by
    have hlength := congrArg List.length hslots
    rw [length_slots, length_flatMap_pair] at hlength
    omega
  have hword : 2 * values.length < 65536 := by
    unfold stackSize at htop
    omega
  have hbelow : below (2 * values.length) (m.advance Op.hash.size)
      = .ok (m.top - 2 * values.length) (m.advance Op.hash.size) := below_eq hcount
  have hpairs : pairValues (m.top - 2 * values.length) (m.advance Op.hash.size)
      = .ok (values.flatMap fun pair => [pair.1, pair.2]) (m.advance Op.hash.size) := by
    rw [← hslots]
    exact pairValues_eq (show (m.top - (m.top - 2 * values.length)) % 2 = 0 by omega)
  rw [step_eq_perform hinstr]
  show perform .hash (readBack [2] [2 * values.length]) _ = _
  rw [readBack_word hword]
  show (below (2 * values.length) >>= fun start => pairValues start >>= fun values =>
    insertPairs [] values >>= fun entries => onHost (HostM.hash entries) >>= fun value =>
      setTop start >>= fun _ => push value) _ = _
  rw [bind_ok hbelow, bind_ok hpairs, bind_ok (insertPairs_flatMap hentries)]
  rfl

end Machine

/-! ## Both ways

The entries are computed by the same function from the same pairs, so what has been shown of them
holds of both. -/

/-- **A hash literal makes the same hash in evaluation and on the machine**, from pairs whose keys
are integers, truth values or strings. It has one entry for each key, the last pair with it, and is
indexed accordingly. -/
theorem hash_lastWins {table : BuiltinTable} {env : Env} {fuel : Nat}
    {world world' : Evaluation.World} {exprs : List (Expr × Expr)}
    {pairs : List (Value × Value)} {m : Machine}
    (heval : Evaluation.PairsEvaluate table env fuel world exprs pairs world')
    (hinstr : InstrAt m.frame.code.code m.frame.position .hash [2 * pairs.length])
    (htop : m.top ≤ Machine.stackSize)
    (hslots : m.slots (m.top - 2 * pairs.length) = pairs.flatMap fun pair => [pair.1, pair.2])
    (hpairs : ∀ pair ∈ pairs, pair.1.IsExactKey) :
    ∃ entries, LastWins pairs entries
      ∧ Evaluation.expr table (fuel + 1) env (.hash exprs) world
        = .ok (.hash world'.host.fresh entries)
          { world' with host := { world'.host with fresh := world'.host.fresh + 1 } }
      ∧ Machine.step m = Machine.push (.hash m.host.fresh entries)
        (((m.advance Op.hash.size).withHost { m.host with fresh := m.host.fresh + 1 }).withTop
          (m.top - 2 * pairs.length))
      ∧ (∀ id k, k.IsExactKey →
        Evaluation.Indexes table (.hash id entries) k (lastValue pairs k)
          ∧ Machine.Indexes (.hash id entries) k (lastValue pairs k))
      ∧ ∀ digest k key, k.IsExactKey → k.key? = some key →
        Separates digest (k :: pairs.map Prod.fst) →
        (codedMap digest pairs)[key.code digest]? = lastPair? pairs k := by
  obtain ⟨entries, hentries, hrep⟩ := Represents.nil.insertPairs hpairs
  have hlast := hrep.lastWins hpairs
  refine ⟨entries, hlast, ?_, Machine.step_hash hinstr htop hslots hentries,
    fun id k hk => ?_, fun digest _ _ hk hkey hdigest => codedMap_eq digest hpairs hk hkey hdigest⟩
  · rw [Evaluation.expr, Evaluation.bind_of_ok (Evaluation.pairsFrom_eq heval hentries)]
    rfl
  · exact ⟨Evaluation.indexes (hlast.subscript id k hk), Machine.indexes (hlast.subscript id k hk)⟩

/-- The literal `{1: 10, true: 20, -1: 30, 1: 40}`: the last value of `1` replaces the first, and
`true` is another key. -/
theorem hash_lastWins_replaced :
    ∃ (m : Machine) (entries : List (Entry Value)),
      m.slots 0 = [.int 1, .int 10, .bool true, .int 20, .int (-1), .int 30, .int 1, .int 40]
      ∧ Machine.step m = Machine.push (.hash 0 entries)
        (((m.advance Op.hash.size).withHost ⟨0, 1, ""⟩).withTop 0)
      ∧ Evaluation.expr [] 6 [] (.hash [(.int 1, .int 10), (.bool true, .int 20),
          (.prefixOp .minus (.int 1), .int 30), (.int 1, .int 40)])
          (Evaluation.World.initial ⟨0, 0, ""⟩)
        = .ok (.hash 0 entries) (Evaluation.World.initial ⟨0, 1, ""⟩)
      ∧ Machine.Indexes (.hash 0 entries) (.int 1) (.int 40)
      ∧ Machine.Indexes (.hash 0 entries) (.bool true) (.int 20)
      ∧ Machine.Indexes (.hash 0 entries) (.int 2) .null := by
  have heval : Evaluation.PairsEvaluate [] [] 5 (Evaluation.World.initial ⟨0, 0, ""⟩)
      [(.int 1, .int 10), (.bool true, .int 20), (.prefixOp .minus (.int 1), .int 30),
        (.int 1, .int 40)]
      [(.int 1, .int 10), (.bool true, .int 20), (.int (-1), .int 30), (.int 1, .int 40)]
      (Evaluation.World.initial ⟨0, 0, ""⟩) :=
    .cons rfl rfl <| .cons rfl rfl <| .cons rfl rfl <| .cons rfl rfl .nil
  let m : Machine :=
    { Machine.load ⟨Code.ofInstructions [(.hash, [8])], #[], #[], 0⟩ [] ⟨0, 0, ""⟩ with
      stack := ⟨.null, #[.int 1, .int 10, .bool true, .int 20, .int (-1), .int 30, .int 1, .int 40]⟩
      top := 8 }
  have hinstr : InstrAt m.frame.code.code m.frame.position .hash [8] := by
    unfold InstrAt
    decide
  obtain ⟨entries, -, hexpr, hstep, hindex, -⟩ := hash_lastWins heval hinstr
    (show 8 ≤ Machine.stackSize by decide) rfl (by simp [Value.IsExactKey])
  exact ⟨m, entries, rfl, hstep, hexpr, (hindex 0 (.int 1) trivial).2,
    (hindex 0 (.bool true) trivial).2, (hindex 0 (.int 2) trivial).2⟩

end Scriptlet
