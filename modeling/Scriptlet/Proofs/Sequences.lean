import Scriptlet.Evaluation
import Scriptlet.Proofs.Machine.Effects

/-!
# Taking sequences apart and building them up

`first` and `rest` take an array or a string apart, `push` builds one up, and `len` counts. The loop
`shifts` moves the elements of a sequence over to another one by these functions. It loses nothing:
when it is through, the one sequence is empty and the other has become what the first one was, and
all the way `len` agrees with what has been moved (`Rebuilds`). For an array it counts elements, for
a string bytes, although a string is taken apart by characters.

Evaluation and the machine call the functions each in its own way. All that counts is that a way of
calling does on the host what the functions do (`Caller.Follows`): from that it follows what a step
moves and, by induction on the number of steps, what a run moves (`Caller.Follows.rebuilds`).

The invariant of the loop is the same for both kinds of sequences: behind `k` steps the first `k`
elements have been moved, in their order, and the others are left.
-/

namespace Scriptlet

/-- A way of calling built-in functions. -/
abbrev Caller (ε σ : Type) := Builtin → List Value → EStateM ε σ Value

/-- The host when so many identities more are in use. -/
def Host.drawn (host : Host) (count : Nat) : Host :=
  { host with fresh := host.fresh + count }

theorem Host.drawn_drawn (host : Host) (count count' : Nat) :
    (host.drawn count).drawn count' = host.drawn (count + count') := by
  rw [drawn, drawn, drawn, Nat.add_assoc]

namespace Caller

/-! ## The loop

A program of three calls, written once for every way of calling. -/

section

variable {ε σ : Type}

/-- Pushes the first element of the second sequence onto the first one, and goes on to the rest of
the second one. -/
def shift (call : Caller ε σ) : Value × Value → EStateM ε σ (Value × Value)
  | (built, left) => do
    let head ← call .first [left]
    let built ← call .push [built, head]
    let left ← call .rest [left]
    return (built, left)

/-- So many steps. -/
def shifts (call : Caller ε σ) : (count : Nat) → Value × Value → EStateM ε σ (Value × Value)
  | 0, pair => return pair
  | count + 1, pair => do
    let pair ← shifts call count pair
    shift call pair

/-- A call gives a value and leads to a state that is kept in order. -/
def Gives (call : Caller ε σ) (Kept : σ → Prop) (s : σ) (b : Builtin) (args : List Value)
    (value : Value) : Prop :=
  ∃ s', call b args s = .ok value s' ∧ Kept s'

/-- **From a state on, the functions take sequences apart and build them up without loss**, through
states that are all kept in order. -/
structure Rebuilds (call : Caller ε σ) (Kept : σ → Prop) (s : σ) : Prop where
  /-- An array of the same elements is built, which nothing tells apart from the one taken apart but
  its identity. -/
  array (id id' : Identity) (elements : List Value) :
    ∃ i j s',
      shifts call elements.length (.array id' [], .array id elements) s
          = .ok (.array i elements, .array j []) s'
        ∧ Kept s' ∧ ∀ v, (Value.array i elements).same v = (Value.array id elements).same v
  /-- Each step pushes the next element, and makes the rest shorter by one. The last one to be
  pushed is the last element of the array. -/
  arrayStep (id id' : Identity) (elements : List Value) (k : Nat) (hk : k < elements.length) :
    ∃ built left s' built' left' s'',
      shifts call k (.array id' [], .array id elements) s = .ok (built, left) s' ∧ Kept s'
        ∧ shift call (built, left) s' = .ok (built', left') s'' ∧ Kept s''
        ∧ Gives call Kept s' .first [left] elements[k]
        ∧ (k + 1 = elements.length → Gives call Kept s' .last [.array id elements] elements[k])
        ∧ ∃ length : Int64, length = .ofNat (elements.length - k)
          ∧ Gives call Kept s' .len [left] (.int length)
          ∧ Gives call Kept s'' .len [left'] (.int (length - 1))
  /-- The same text is built. -/
  string (text : String) :
    ∃ s', shifts call text.toList.length (.str "", .str text) s = .ok (.str text, .str "") s'
      ∧ Kept s'
  /-- Each step pushes the next character. Its bytes and those of the rest are as many as before.
  The last character to be pushed is the last of the text. -/
  stringStep (text : String) (k : Nat) (hk : k < text.toList.length) :
    ∃ built left s' built' left' s'' head,
      shifts call k (.str "", .str text) s = .ok (built, .str left) s' ∧ Kept s'
        ∧ shift call (built, .str left) s' = .ok (built', .str left') s'' ∧ Kept s''
        ∧ head = text.toList[k].toString ∧ Gives call Kept s' .first [.str left] (.str head)
        ∧ (k + 1 = text.toList.length → Gives call Kept s' .last [.str text] (.str head))
        ∧ head.utf8ByteSize + left'.utf8ByteSize = left.utf8ByteSize
        ∧ ∃ ofHead ofRest : Int64,
          Gives call Kept s' .len [.str head] (.int ofHead)
            ∧ Gives call Kept s'' .len [.str left'] (.int ofRest)
            ∧ Gives call Kept s' .len [.str left] (.int (ofHead + ofRest))
            ∧ ofHead = .ofNat head.utf8ByteSize ∧ ofRest = .ofNat left'.utf8ByteSize

end

/-! ## The functions

What each call of the loop does on the host, at the place that the loop has come to. -/

section

variable {host : Host} {k : Nat}

/-! Arrays give up their elements one by one. -/

section

variable {vs : List Value} (id : Identity)

theorem first_drop (hk : k < vs.length) :
    Builtin.call .first [.array id (vs.drop k)] host = .ok vs[k] host := by
  rw [List.drop_eq_getElem_cons hk]
  rfl

theorem rest_drop (hk : k < vs.length) :
    Builtin.call .rest [.array id (vs.drop k)] host
      = .ok (.array host.fresh (vs.drop (k + 1))) (host.drawn 1) := by
  rw [List.drop_eq_getElem_cons hk]
  rfl

theorem push_take (hk : k < vs.length) :
    Builtin.call .push [.array id (vs.take k), vs[k]] host
      = .ok (.array host.fresh (vs.take (k + 1))) (host.drawn 1) := by
  rw [List.take_succ_eq_append_getElem hk]
  rfl

theorem len_drop :
    Builtin.call .len [.array id (vs.drop k)] host = .ok (.int (.ofNat (vs.length - k))) host := by
  rw [← List.length_drop]
  rfl

theorem last_array {hk : k < vs.length} (hlast : k + 1 = vs.length) :
    Builtin.call .last [.array id vs] host = .ok vs[k] host := by
  show EStateM.Result.ok (vs.getLastD .null) host = _
  obtain rfl : k = vs.length - 1 := by omega
  rw [List.getLastD_eq_getLast?, List.getLast?_eq_getElem?, List.getElem?_eq_getElem hk]
  rfl

/-- Arrays of the same elements are told apart by nothing but their identity. -/
theorem same_array (id' : Identity) (v : Value) :
    (Value.array id vs).same v = (Value.array id' vs).same v := by
  cases v
  all_goals rfl

/-- One element fewer is left. -/
theorem ofNat_sub_one {n : Nat} (hk : k < n) :
    Int64.ofNat (n - k) - 1 = Int64.ofNat (n - (k + 1)) := by
  have hmore : n - k = n - (k + 1) + 1 := by omega
  rw [hmore, Int64.ofNat_add]
  exact Int64.add_sub_cancel _ _

end

/-! Strings give up their characters one by one. -/

section

variable {cs : List Char}

theorem toList_drop (hk : k < cs.length) :
    (String.ofList (cs.drop k)).toList = cs[k] :: cs.drop (k + 1) := by
  rw [String.toList_ofList, List.drop_eq_getElem_cons hk]

theorem first_string (hk : k < cs.length) :
    Builtin.call .first [.str (.ofList (cs.drop k))] host = .ok (.str cs[k].toString) host := by
  show Builtin.callOne .first (.str (.ofList (cs.drop k))) host = _
  rw [Builtin.callOne, toList_drop hk]
  rfl

theorem rest_string (hk : k < cs.length) :
    Builtin.call .rest [.str (.ofList (cs.drop k))] host
      = .ok (.str (.ofList (cs.drop (k + 1)))) host := by
  show Builtin.callOne .rest (.str (.ofList (cs.drop k))) host = _
  rw [Builtin.callOne, toList_drop hk]
  rfl

theorem push_string (hk : k < cs.length) :
    Builtin.call .push [.str (.ofList (cs.take k)), .str cs[k].toString] host
      = .ok (.str (.ofList (cs.take (k + 1)))) host := by
  have htext : (Value.str cs[k].toString).text = cs[k].toString := rfl
  show EStateM.Result.ok
    (Value.str (String.ofList (cs.take k) ++ (Value.str cs[k].toString).text)) host = _
  rw [htext, List.take_succ_eq_append_getElem hk, String.ofList_append]
  rfl

theorem len_string (text : String) :
    Builtin.call .len [.str text] host = .ok (.int (.ofNat text.utf8ByteSize)) host := rfl

theorem last_string {text : String} {hk : k < text.toList.length}
    (hlast : k + 1 = text.toList.length) :
    Builtin.call .last [.str text] host = .ok (.str text.toList[k].toString) host := by
  have hgetLast : text.toList.getLast? = some text.toList[k] := by
    obtain rfl : k = text.toList.length - 1 := by omega
    rw [List.getLast?_eq_getElem?, List.getElem?_eq_getElem hk]
  show Builtin.callOne .last (.str text) host = _
  rw [Builtin.callOne, hgetLast]
  rfl

/-- The bytes of a text are those of its first character and of the others. -/
theorem utf8ByteSize_drop (hk : k < cs.length) :
    cs[k].toString.utf8ByteSize + (String.ofList (cs.drop (k + 1))).utf8ByteSize
      = (String.ofList (cs.drop k)).utf8ByteSize := by
  have happend : String.ofList (cs.drop k)
      = cs[k].toString ++ String.ofList (cs.drop (k + 1)) := by
    rw [List.drop_eq_getElem_cons hk]
    show String.ofList ([cs[k]] ++ cs.drop (k + 1)) = _
    rw [String.ofList_append]
    rfl
  rw [happend, String.utf8ByteSize_append]

end

end

/-! ## Callers

The step lemma and the run lemma, each for arrays and for strings. -/

section

variable {ε σ : Type} {call : Caller ε σ} {s s' s'' s₁ s₂ : σ} {pair pair' pair'' : Value × Value}

theorem shift_ok {built left head built' left' : Value}
    (hfirst : call .first [left] s = .ok head s₁)
    (hpush : call .push [built, head] s₁ = .ok built' s₂)
    (hrest : call .rest [left] s₂ = .ok left' s') :
    shift call (built, left) s = .ok (built', left') s' := by
  show EStateM.bind (call .first [left]) _ s = _
  rw [EStateM.bind, hfirst]
  show EStateM.bind (call .push [built, head]) _ s₁ = _
  rw [EStateM.bind, hpush]
  show EStateM.bind (call .rest [left]) _ s₂ = _
  rw [EStateM.bind, hrest]
  rfl

theorem shifts_succ {count : Nat} (h : shifts call count pair s = .ok pair' s')
    (hshift : shift call pair' s' = .ok pair'' s'') :
    shifts call (count + 1) pair s = .ok pair'' s'' := by
  show EStateM.bind (shifts call count pair) _ s = _
  rw [EStateM.bind, h]
  exact hshift

/-- **A way of calling does what the functions do on the host that a state shows**, if they have no
more than two arguments. -/
structure Follows (call : Caller ε σ) (Shows : σ → Host → Prop) : Prop where
  call_ok {b : Builtin} {args : List Value} {value : Value} {s : σ} {host host' : Host}
    (hs : Shows s host) (hcall : b.call args host = .ok value host') (hargs : args.length ≤ 2) :
    ∃ s', call b args s = .ok value s' ∧ Shows s' host'

namespace Follows

variable {Shows : σ → Host → Prop} {host : Host}

/-- One more element of an array is moved. -/
theorem shift_array (h : Follows call Shows) (hs : Shows s host) (i j : Identity)
    {vs : List Value} {k : Nat} (hk : k < vs.length) :
    ∃ s', shift call (.array i (vs.take k), .array j (vs.drop k)) s
        = .ok (.array host.fresh (vs.take (k + 1)), .array (host.fresh + 1) (vs.drop (k + 1))) s'
      ∧ Shows s' (host.drawn 2) := by
  obtain ⟨s₁, hfirst, h₁⟩ := h.call_ok hs (first_drop j hk) (Nat.le_succ 1)
  obtain ⟨s₂, hpush, h₂⟩ := h.call_ok h₁ (push_take i hk) (Nat.le_refl 2)
  obtain ⟨s₃, hrest, h₃⟩ := h.call_ok h₂ (rest_drop j hk) (Nat.le_succ 1)
  exact ⟨s₃, shift_ok hfirst hpush hrest, h₃⟩

/-- After so many steps that many elements have been moved. -/
theorem shifts_array (h : Follows call Shows) (hs : Shows s host) (id id' : Identity)
    {vs : List Value} {count : Nat} (hcount : count ≤ vs.length) :
    ∃ i j s', shifts call count (.array id' [], .array id vs) s
        = .ok (.array i (vs.take count), .array j (vs.drop count)) s'
      ∧ Shows s' (host.drawn (2 * count)) := by
  induction count with
  | zero => exact ⟨id', id, s, rfl, hs⟩
  | succ count ih =>
    obtain ⟨i, j, s', hshifts, hs'⟩ := ih (Nat.le_of_succ_le hcount)
    obtain ⟨s'', hshift, hs''⟩ := h.shift_array hs' i j hcount
    rw [Host.drawn_drawn] at hs''
    exact ⟨_, _, s'', shifts_succ hshifts hshift, hs''⟩

/-- One more character of a string is moved. -/
theorem shift_string (h : Follows call Shows) (hs : Shows s host) {cs : List Char} {k : Nat}
    (hk : k < cs.length) :
    ∃ s', shift call (.str (.ofList (cs.take k)), .str (.ofList (cs.drop k))) s
        = .ok (.str (.ofList (cs.take (k + 1))), .str (.ofList (cs.drop (k + 1)))) s'
      ∧ Shows s' host := by
  obtain ⟨s₁, hfirst, h₁⟩ := h.call_ok hs (first_string hk) (Nat.le_succ 1)
  obtain ⟨s₂, hpush, h₂⟩ := h.call_ok h₁ (push_string hk) (Nat.le_refl 2)
  obtain ⟨s₃, hrest, h₃⟩ := h.call_ok h₂ (rest_string hk) (Nat.le_succ 1)
  exact ⟨s₃, shift_ok hfirst hpush hrest, h₃⟩

/-- After so many steps that many characters have been moved. -/
theorem shifts_string (h : Follows call Shows) (hs : Shows s host) (text : String) {count : Nat}
    (hcount : count ≤ text.toList.length) :
    ∃ s', shifts call count (.str "", .str text) s
        = .ok (.str (.ofList (text.toList.take count)), .str (.ofList (text.toList.drop count))) s'
      ∧ Shows s' host := by
  induction count with
  | zero =>
    rw [List.drop_zero, String.ofList_toList]
    exact ⟨s, rfl, hs⟩
  | succ count ih =>
    obtain ⟨s', hshifts, hs'⟩ := ih (Nat.le_of_succ_le hcount)
    obtain ⟨s'', hshift, hs''⟩ := h.shift_string hs' hcount
    exact ⟨s'', shifts_succ hshifts hshift, hs''⟩

/-- A function that leaves the host as it is gives its value. -/
theorem gives (h : Follows call Shows) {b : Builtin} {args : List Value} {value : Value}
    {count : Nat} (hs : Shows s (host.drawn count))
    (hcall : ∀ host, b.call args host = .ok value host) (hargs : args.length ≤ 2) :
    Gives call (fun s' => ∃ count, Shows s' (host.drawn count)) s b args value := by
  obtain ⟨s', hs', hshows⟩ := h.call_ok hs (hcall (host.drawn count)) hargs
  exact ⟨s', hs', count, hshows⟩

/-- **Whoever follows the functions rebuilds sequences by them**, and draws identities at most. -/
theorem rebuilds (h : Follows call Shows) (hs : Shows s host) :
    Rebuilds call (fun s' => ∃ count, Shows s' (host.drawn count)) s where
  array id id' elements := by
    obtain ⟨i, j, s', hshifts, hs'⟩ := h.shifts_array hs id id' (Nat.le_refl elements.length)
    rw [List.take_length, List.drop_length] at hshifts
    exact ⟨i, j, s', hshifts, ⟨_, hs'⟩, fun v => same_array i id v⟩
  arrayStep id id' elements k hk := by
    obtain ⟨i, j, s', hshifts, hs'⟩ := h.shifts_array hs id id' (Nat.le_of_lt hk)
    -- the state after `k` steps, and the one after the next
    obtain ⟨s'', hshift, hs''⟩ := h.shift_array hs' i j hk
    rw [Host.drawn_drawn] at hs''
    refine ⟨_, _, s', _, _, s'', hshifts, ⟨_, hs'⟩, hshift, ⟨_, hs''⟩, ?first, ?last, _, rfl,
      ?before, ?behind⟩
    case first => exact h.gives hs' (fun _ => first_drop j hk) (Nat.le_succ 1)
    case last => exact fun hlast => h.gives hs' (fun _ => last_array id hlast) (Nat.le_succ 1)
    case before => exact h.gives hs' (fun _ => len_drop j) (Nat.le_succ 1)
    case behind =>
      rw [ofNat_sub_one hk]
      exact h.gives hs'' (fun _ => len_drop _) (Nat.le_succ 1)
  string text := by
    obtain ⟨s', hshifts, hs'⟩ := h.shifts_string hs text (Nat.le_refl _)
    rw [List.take_length, List.drop_length, String.ofList_toList] at hshifts
    exact ⟨s', hshifts, 0, hs'⟩
  stringStep text k hk := by
    obtain ⟨s', hshifts, hs'⟩ := h.shifts_string hs text (Nat.le_of_lt hk)
    obtain ⟨s'', hshift, hs''⟩ := h.shift_string hs' hk
    have hs' : Shows s' (host.drawn 0) := hs'
    have hs'' : Shows s'' (host.drawn 0) := hs''
    refine ⟨_, _, s', _, _, s'', _, hshifts, ⟨0, hs'⟩, hshift, ⟨0, hs''⟩, rfl, ?first, ?last,
      utf8ByteSize_drop hk, _, _, ?ofHead, ?ofRest, ?ofBoth, rfl, rfl⟩
    case first => exact h.gives hs' (fun _ => first_string hk) (Nat.le_succ 1)
    case last => exact fun hlast => h.gives hs' (fun _ => last_string hlast) (Nat.le_succ 1)
    case ofHead => exact h.gives hs' (fun _ => len_string _) (Nat.le_succ 1)
    case ofRest => exact h.gives hs'' (fun _ => len_string _) (Nat.le_succ 1)
    case ofBoth =>
      rw [← Int64.ofNat_add, utf8ByteSize_drop hk]
      exact h.gives hs' (fun _ => len_string _) (Nat.le_succ 1)

end Follows

end

end Caller

open Caller

/-! ## Evaluation

The evaluator calls a built-in function by `apply`, which changes nothing but the host. -/

namespace Evaluation

/-- Calls a built-in function as any other function. -/
def callBuiltin (table : BuiltinTable) (fuel : Nat) : Caller Signal World := fun b args =>
  apply table (fuel + 1) (.builtin b) args

theorem follows_callBuiltin (table : BuiltinTable) (fuel : Nat) (scopes : Scopes) (depth : Nat) :
    Caller.Follows (callBuiltin table fuel) fun world host => world = ⟨host, scopes, depth⟩ := by
  constructor
  rintro b args value _ host host' rfl hcall -
  refine ⟨_, ?_, rfl⟩
  show onHost (b.call args) ⟨host, scopes, depth⟩ = _
  rw [onHost, hcall]

end Evaluation

/-! ## The machine

The machine needs room for the function and its arguments, and leaves them behind above the top of
the stack. So it shows the same host and differs in slots that are not in use. -/

namespace Machine

/-- Calls a built-in function on the stack: the function and its arguments are pushed, and the
result that takes their place is popped. -/
def callBuiltin : Caller Stop Machine := fun b args => do
  push (.builtin b)
  args.forM push
  call args.length
  pop

/-- **A machine in other surroundings than `m`**, that has used slots above the top of its stack.
All else is as in `m`. -/
def Beside (m : Machine) (host : Host) (m' : Machine) : Prop :=
  ∃ stack, m' = { m with stack, host } ∧ ∀ i < m.top, stack.read i = m.stack.read i

variable {m : Machine}

theorem Beside.refl (m : Machine) : m.Beside m.host m :=
  ⟨m.stack, rfl, fun _ _ => rfl⟩

/-- Values are pushed one above the other. -/
theorem forM_push (vs : List Value) {m : Machine} (h : m.top + vs.length ≤ stackSize) :
    ∃ stack, (vs.forM push : Step Unit) m = .ok () { m with stack, top := m.top + vs.length }
      ∧ (∀ i < m.top, stack.read i = m.stack.read i)
      ∧ ∀ i (hi : i < vs.length), stack.read (m.top + i) = vs[i] := by
  induction vs generalizing m with
  | nil => exact ⟨m.stack, rfl, fun _ _ => rfl, fun i hi => absurd hi (Nat.not_lt_zero i)⟩
  | cons v vs ih =>
    rw [List.length_cons] at h
    have hroom : m.top < stackSize := by omega
    have hrest : (m.pushed v).top + vs.length ≤ stackSize := by
      show m.top + 1 + vs.length ≤ stackSize
      omega
    -- the first value lies below the others, which leave it alone
    obtain ⟨stack, hpushes, hbelow, habove⟩ := ih hrest
    have hwrite : ∀ i, (m.pushed v).stack.read i = if i = m.top then v else m.stack.read i :=
      fun i => m.stack.read_write m.top i v
    refine ⟨stack, ?_, fun i hi => ?_, fun i hi => ?_⟩
    · show (push v >>= fun _ => (vs.forM push : Step Unit)) m = _
      rw [bind_ok (push_eq hroom), hpushes]
      show EStateM.Result.ok () { m with stack, top := m.top + 1 + vs.length } = _
      rw [List.length_cons, Nat.add_assoc, Nat.add_comm 1]
    · rw [hbelow i (Nat.lt_succ_of_lt hi), hwrite, if_neg (Nat.ne_of_lt hi)]
    · cases i with
      | zero =>
        show stack.read m.top = v
        rw [hbelow m.top (Nat.lt_succ_self m.top), hwrite, if_pos rfl]
      | succ i =>
        have hread := habove i (Nat.lt_of_succ_lt_succ hi)
        rw [show (m.pushed v).top + i = m.top + (i + 1) by show m.top + 1 + i = _; omega] at hread
        exact hread

theorem call_builtin {b : Builtin} {args : List Value} {value : Value} {host : Host}
    {callee : Nat} (htop : m.top = callee + 1 + args.length) (hroom : m.top ≤ stackSize)
    (hcallee : m.stack.read callee = .builtin b) (hargs : m.slots (callee + 1) = args)
    (hcall : b.call args m.host = .ok value host) :
    call args.length m = .ok () (((m.withHost host).withTop callee).pushed value) := by
  have hbelow : below (args.length + 1) m = .ok callee m := by
    rw [below_eq (by omega), htop]
    congr
    omega
  have hslot : slot callee m = .ok (.builtin b) m := by
    rw [slot_eq (by omega), hcallee]
  unfold call
  rw [bind_ok hbelow, bind_ok hslot]
  dsimp only
  rw [bind_ok valuesFrom_eq, hargs, bind_ok (onHost_ok hcall)]
  exact push_eq (show callee < stackSize by omega)

/-- Three slots are enough for a function and its arguments. -/
theorem follows_callBuiltin (h : m.top + 3 ≤ stackSize) :
    Caller.Follows callBuiltin fun m' host => m.Beside host m' := by
  constructor
  rintro b args value _ host host' ⟨stack, rfl, hkept⟩ hcall hargs
  -- the function is pushed
  let called : Machine := Machine.pushed { m with stack, host } (.builtin b)
  have hpush : push (.builtin b) { m with stack, host } = .ok () called :=
    push_eq (show m.top < stackSize by omega)
  have hwrite : ∀ i, called.stack.read i = if i = m.top then .builtin b else stack.read i :=
    fun i => stack.read_write m.top i (.builtin b)
  -- its arguments are
  obtain ⟨stack', hpushes, hbelow, habove⟩ := forM_push args (m := called)
    (show m.top + 1 + args.length ≤ stackSize by omega)
  let ready : Machine := { called with stack := stack', top := called.top + args.length }
  have hcallee : ready.stack.read m.top = .builtin b := by
    rw [hbelow m.top (Nat.lt_succ_self m.top), hwrite, if_pos rfl]
  have hslots : ready.slots (m.top + 1) = args := slots_eq rfl habove
  -- the result takes the place of both, and is popped
  have hresult : call args.length ready
      = .ok () (((ready.withHost host').withTop m.top).pushed value) :=
    call_builtin rfl (show m.top + 1 + args.length ≤ stackSize by omega) hcallee hslots hcall
  refine ⟨{ m with stack := stack'.write m.top value, host := host' }, ?_, _, rfl, fun i hi => ?_⟩
  · unfold callBuiltin
    rw [bind_ok hpush, bind_ok hpushes, bind_ok hresult, pop_eq (Nat.succ_pos m.top),
      stackTop_pushed]
    rfl
  · have hi' : i ≠ m.top := Nat.ne_of_lt hi
    rw [Memory.read_write, if_neg hi', hbelow i (Nat.lt_succ_of_lt hi), hwrite, if_neg hi',
      hkept i hi]

end Machine

/-! ## Nothing is lost

All three ways at once. -/

/-- **Sequences are taken apart and built up again without loss**, by the functions by themselves,
in evaluation and on the machine. All that they change is which identities are in use; the machine
also needs three slots of the stack, and leaves something behind in them. So the variables, in
scopes, in cells and on the stack, hold what they held, and nothing has happened to the sequence nor
to anything that is reached from it. -/
theorem sequences_rebuilt :
    (∀ host : Host, Rebuilds Builtin.call (fun host' => ∃ count, host' = host.drawn count) host)
      ∧ (∀ (table : BuiltinTable) (fuel : Nat) (world : Evaluation.World),
        Rebuilds (Evaluation.callBuiltin table fuel)
          (fun world' => ∃ count, world' = { world with host := world.host.drawn count }) world)
      ∧ ∀ m : Machine, m.top + 3 ≤ Machine.stackSize →
        Rebuilds Machine.callBuiltin (fun m' => ∃ count, m.Beside (m.host.drawn count) m') m := by
  refine ⟨fun host => ?_, fun table fuel world => ?_, fun m hroom => ?_⟩
  · have hfollows : Caller.Follows Builtin.call fun host host' => host = host' := by
      constructor
      rintro b args value _ host host' rfl hcall -
      exact ⟨host', hcall, rfl⟩
    exact hfollows.rebuilds rfl
  · exact (Evaluation.follows_callBuiltin table fuel world.scopes world.depth).rebuilds rfl
  · exact (Machine.follows_callBuiltin hroom).rebuilds (.refl m)

/-- A machine without a program has room for the calls. -/
theorem sequences_rebuilt_idle :
    (Machine.load ⟨#[], #[], #[], 0⟩ .standard ⟨0, 2, ""⟩).top + 3 ≤ Machine.stackSize
      ∧ ∃ i j m', shifts Machine.callBuiltin 2 (.array 0 [], .array 1 [.int 5, .str "é"])
          (Machine.load ⟨#[], #[], #[], 0⟩ .standard ⟨0, 2, ""⟩)
        = .ok (.array i [.int 5, .str "é"], .array j []) m' := by
  have hroom : (Machine.load ⟨#[], #[], #[], 0⟩ .standard ⟨0, 2, ""⟩).top + 3
      ≤ Machine.stackSize := by decide
  obtain ⟨i, j, m', hshifts, -⟩ :=
    (sequences_rebuilt.2.2 _ hroom).array 1 0 [.int 5, .str "é"]
  exact ⟨hroom, i, j, m', hshifts⟩

end Scriptlet
