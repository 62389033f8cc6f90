import Scriptlet.Ast
import Scriptlet.Builtin
import Scriptlet.Bytecode.Code
import Scriptlet.Decimal
import Scriptlet.Fault

/-!
# Values

The values of the language, for evaluation and for the machine alike. Containers, functions and
quoted expressions have an identity, which is drawn afresh whenever such a value is made and stays
with it however it is passed on. The language compares them by it (`Value.identical`);
`Value.same` looks into containers instead.

A hash is a list of entries in ascending order of their keys, so equal hashes are equal lists.
-/

namespace Scriptlet

/-- What tells apart two values that are made at different times. -/
abbrev Identity := Nat

/-- The number of a scope in the heap of scopes. -/
abbrev ScopeId := Nat

/-- The number of a cell, the memory of a captured variable. -/
abbrev CellId := Nat

/-- What a hash looks an entry up by. Integers and truth values are never the same key. Floats are
told apart by their text with fifteen places. -/
inductive Key where
  | int (bits : UInt64)
  | float (text : String)
  | bool (value : Bool)
  | str (text : String)
deriving DecidableEq, Repr

namespace Key

/-- The position of a key's kind among the kinds. -/
def rank : Key → Nat
  | int _ => 0
  | float _ => 1
  | bool _ => 2
  | str _ => 3

/-- The order of keys: by kind, integers by their bits without sign, so that negative ones come
last, and texts by their characters. -/
def order : Key → Key → Ordering
  | int a, int b => compare a b
  | float a, float b => compare a b
  | bool a, bool b => compare a b
  | str a, str b => compare a b
  | a, b => compare a.rank b.rank

end Key

/-- One entry of a hash: its key, the value that the key was made from, and the value stored. -/
structure Entry (α : Type) where
  key : Key
  shown : α
  value : α

namespace Entry

/-- Puts an entry into a list of entries in ascending order; an entry with the same key is replaced
altogether. -/
def insert {α : Type} (new : Entry α) : List (Entry α) → List (Entry α)
  | [] => [new]
  | e :: rest =>
    match new.key.order e.key with
    | .lt => new :: e :: rest
    | .eq => new :: rest
    | .gt => e :: insert new rest

/-- The value stored under a key. -/
def find? {α : Type} (key : Key) (entries : List (Entry α)) : Option α :=
  (entries.find? fun e => e.key = key).map Entry.value

end Entry

/-- A value. -/
inductive Value where
  | int (value : Int64)
  | float (value : Float)
  | bool (value : Bool)
  | str (value : String)
  | null
  | error (message : String)
  | array (id : Identity) (elements : List Value)
  | hash (id : Identity) (entries : List (Entry Value))
  /-- A function of the evaluator, with the scopes around it, innermost first. -/
  | function (id : Identity) (params : List String) (body : List Stmt) (env : List ScopeId)
  | compiled (id : Identity) (code : FunctionCode)
  /-- A function of the machine, with the cells of the variables that it has captured. -/
  | closure (id : Identity) (code : FunctionCode) (cells : Array CellId)
  | builtin (builtin : Builtin)
  | quote (id : Identity) (expr : Expr)

instance : Inhabited Value := ⟨.null⟩

namespace Value

/-- The kind of a value. -/
def kind : Value → Kind
  | int _ => .int
  | float _ => .float
  | bool _ => .bool
  | str _ => .str
  | null => .null
  | error _ => .error
  | array _ _ => .array
  | hash _ _ => .hash
  | function _ _ _ _ => .function
  | compiled _ _ => .compiled
  | closure _ _ _ => .closure
  | builtin _ => .builtin
  | quote _ _ => .quote

/-- Whether a value lets a condition hold: `true` and the positive integers do, nothing else. -/
def truthy : Value → Bool
  | bool b => b
  | int i => 0 < i
  | _ => false

/-- The key of a value, for those that can be one. -/
def key? : Value → Option Key
  | int i => some (.int i.toUInt64)
  | float x => some (.float (Decimal.fixed 15 x))
  | bool b => some (.bool b)
  | str s => some (.str s)
  | _ => none

mutual

/-- Equality that looks into containers, quoted expressions and compiled code. Functions and
closures are equal only to themselves. -/
def same : Value → Value → Bool
  | int a, int b => a == b
  | float a, float b => a == b
  | bool a, bool b => a == b
  | str a, str b => a == b
  | null, null => true
  | error a, error b => a == b
  | array _ as, array _ bs => sameList as bs
  | hash _ as, hash _ bs => sameEntries as bs
  | function i _ _ _, function j _ _ _ => i == j
  | compiled _ a, compiled _ b => a == b
  | closure i _ _, closure j _ _ => i == j
  | builtin a, builtin b => a == b
  | quote _ a, quote _ b => a.same b
  | _, _ => false

/-- Whether two lists of values agree element by element. -/
def sameList : List Value → List Value → Bool
  | [], [] => true
  | a :: as, b :: bs => a.same b && sameList as bs
  | _, _ => false

/-- Whether two lists of entries agree entry by entry. -/
def sameEntries : List (Entry Value) → List (Entry Value) → Bool
  | [], [] => true
  | ⟨k, a, c⟩ :: as, ⟨l, b, d⟩ :: bs => k == l && a.same b && c.same d && sameEntries as bs
  | _, _ => false

end

/-- Equality as the language sees it: values with an identity are equal only to themselves, all
others by what they hold. -/
def identical : Value → Value → Bool
  | array i _, array j _ => i == j
  | hash i _, hash j _ => i == j
  | function i _ _ _, function j _ _ _ => i == j
  | compiled i _, compiled j _ => i == j
  | closure i _ _, closure j _ _ => i == j
  | quote i _, quote j _ => i == j
  | a, b => a.same b

end Value

end Scriptlet
