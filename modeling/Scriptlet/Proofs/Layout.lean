import Scriptlet.Compilation

/-!
# The layout of compiled code

A declarative reading of finished code: `ExprAt` and `StmtAt` say that the bytes of some code from
one position to another are the code of an expression or a statement, with every jump at its final
target. Nothing in them speaks of emitting or patching; that the compiler meets them is
`Proofs/Layout/Compiled.lean`, and every later statement about code is proved from the layout.

Three things that the compiler keeps as it goes are explicit here:

* a `Point` is a position together with the symbols known and the number of constants made there,
  so a layout leads from one point to another and fixes how each name is resolved on the way and
  which constants are its own;
* the depth `d` is the number of operands that the compiler counts at a position. A jump out of a
  loop drops it to the depth of the loop (`Stmt.depthAfter`), also where the code behind the jump
  is reached in another way;
* an `Ending` says what has become of the last `pop` of a list of statements: it stays, a branch
  has removed it to keep the value, or a function returns the value instead.
-/

namespace Scriptlet

/-! ## Instructions in code -/

/-- The bytes of one instruction stand at `p`. -/
def InstrAt (code : Code) (p : Nat) (op : Op) (operands : List Nat) : Prop :=
  ∀ k < (op.encode operands).length, code[p + k]? = (op.encode operands)[k]?

/-- How many bytes an instruction takes. -/
def Op.size (op : Op) : Nat :=
  1 + op.operandSize

/-! ## What the last instruction of a statement is -/

/-- How the code of statements ends: with the `pop` of a value, with the return of one, with
another instruction, or it has no code at all. -/
inductive Closing where
  | value
  | returned
  | other
  | nothing
deriving DecidableEq, Repr

mutual

/-- How the code of a statement ends. -/
def Stmt.closing : Stmt → Closing
  | .expr _ | .loop _ _ _ _ => .value
  | .ret _ => .returned
  | .block body => Stmt.closingList body
  | _ => .other

/-- How the code of a list of statements ends: the last one that has code decides. -/
def Stmt.closingList : List Stmt → Closing
  | [] => .nothing
  | s :: rest => if Stmt.closingList rest = .nothing then s.closing else Stmt.closingList rest

end

mutual

/-- Whether a statement leaves the loop around it by a jump of its own, outside of all expressions.
The compiler then counts operands as the loop does, whatever stands behind. -/
def Stmt.exits : Stmt → Bool
  | .breakLoop | .continueLoop => true
  | .block body => Stmt.exitsAny body
  | .loop init _ post _ => init.exits || post.exits
  | _ => false

/-- Whether one of the statements leaves the loop around them. -/
def Stmt.exitsAny : List Stmt → Bool
  | [] => false
  | s :: rest => s.exits || Stmt.exitsAny rest

end

/-! ## Points, exits and endings -/

/-- A position in code, with the symbols known and the number of constants made there. -/
structure Point where
  position : Nat
  symbols : Symbols
  constants : Nat

/-- The same position with other symbols. -/
def Point.withSymbols (a : Point) (symbols : Symbols) : Point :=
  ⟨a.position, symbols, a.constants⟩

/-- A position further on with the same symbols. -/
def Point.skip (a : Point) (bytes : Nat) : Point :=
  ⟨a.position + bytes, a.symbols, a.constants⟩

/-- The same position after one more constant has been made. -/
def Point.addConstant (a : Point) : Point :=
  ⟨a.position, a.symbols, a.constants + 1⟩

/-- The innermost loop around some code: the depth of its body and the targets of the jumps that
leave the body. -/
structure Exit where
  depth : Nat
  onBreak : Nat
  onContinue : Nat

/-- The depth behind a statement. -/
def Stmt.depthAfter (s : Stmt) (exit : Option Exit) (d : Nat) : Nat :=
  if s.exits then (exit.map Exit.depth).getD d else d

/-- What has become of the `pop` that ends the code of statements. -/
inductive Ending where
  | drop
  | keep
  | give
deriving DecidableEq, Repr

/-- One instruction leads from `a` to `b`. -/
def OpAt (code : Code) (op : Op) (operands : List Nat) (a b : Point) : Prop :=
  InstrAt code a.position op operands ∧ b = a.skip op.size

/-- The end of a statement that has a value. -/
def EndAt (code : Code) : Ending → Point → Point → Prop
  | .drop, a, b => OpAt code .pop [] a b
  | .keep, a, b => b = a
  | .give, a, b => OpAt code .returnValue [] a b

/-- So many `pop` instructions lead from `a` to `b`. -/
def PopsAt (code : Code) : (count : Nat) → Point → Point → Prop
  | 0, a, b => b = a
  | count + 1, a, b => ∃ m, OpAt code .pop [] a m ∧ PopsAt code count m b

/-- A constant is made and put on the stack. -/
def ConstAt (code : Code) (constants : Array Value) (value : Value) (a b : Point) : Prop :=
  a.constants < Compilation.maxConstants ∧ constants[a.constants]? = some value
    ∧ OpAt code .constant [a.constants] a.addConstant b

/-! ## Names -/

/-- The symbol of a name, which becomes a global if it is not defined. -/
def Symbols.require (symbols : Symbols) (name : String) : Symbol × Symbols :=
  match symbols.resolve name with
  | (some symbol, symbols) => (symbol, symbols)
  | (none, symbols) => symbols.defineGlobal name

/-- Whether a callee means `quote`; asking for it may capture a variable of that name. -/
def Symbols.quotes (symbols : Symbols) : (callee : Expr) → Bool × Symbols
  | .ident "quote" => ((symbols.resolve "quote").1.isNone, (symbols.resolve "quote").2)
  | _ => (false, symbols)

/-- Parameters are defined one after the other. -/
def Symbols.defineAll (symbols : Symbols) : (names : List String) → Symbols
  | [] => symbols
  | name :: names => (symbols.define name).2.defineAll names

/-- The value of a symbol is put on the stack. -/
def LoadAt (code : Code) (symbol : Symbol) (a b : Point) : Prop :=
  match symbol.kind with
  | .global => symbol.index < Compilation.maxGlobals ∧ OpAt code .getGlobal [symbol.index] a b
  | .slot => OpAt code .getLocal [symbol.index] a b
  | .builtin => OpAt code .getBuiltin [symbol.index] a b
  | .free => OpAt code .getFree [symbol.index] a b

/-- An operand is stored as the value of a symbol; a built-in function is hidden by a global. -/
def StoreAt (code : Code) (symbol : Symbol) (a b : Point) : Prop :=
  match symbol.kind with
  | .global => symbol.index < Compilation.maxGlobals ∧ OpAt code .setGlobal [symbol.index] a b
  | .slot => symbol.index < Compilation.maxLocals ∧ OpAt code .setLocal [symbol.index] a b
  | .free => OpAt code .setFree [symbol.index] a b
  | .builtin =>
    let (cover, symbols) := a.symbols.defineGlobal symbol.name
    cover.index < Compilation.maxGlobals
      ∧ OpAt code .setGlobal [cover.index] (a.withSymbols symbols) b

/-! ## Parts of expressions and statements

Each is given the layout of the statements inside it as a parameter, so that the recursion below
stays on the syntax. -/

/-- A branch of a condition, which leaves the value of its last statement or else `null`. -/
def BranchAt (code : Code) (closing : Closing) (body : Ending → Point → Point → Prop)
    (a b : Point) : Prop :=
  if closing = .value then body .keep a b
  else ∃ m, body .drop a m ∧ OpAt code .pushNull [] m b

/-- A condition with its two branches. -/
def CondAt (code : Code) (test yes no : Point → Point → Prop) (a b : Point) : Prop :=
  ∃ m n : Point, test a m
    ∧ OpAt code .jumpNotTruthy [n.position + Op.jump.size] m (m.skip Op.jumpNotTruthy.size)
    -- the first jump leads behind the second one, and that one to the end
    ∧ yes (m.skip Op.jumpNotTruthy.size) n
    ∧ OpAt code .jump [b.position] n (n.skip Op.jump.size)
    ∧ n.position + Op.jump.size ≤ Compilation.maxWord ∧ b.position ≤ Compilation.maxWord
    ∧ no (n.skip Op.jump.size) b

/-- The whole code of a function, which returns the value of its last statement or else `null`. -/
def BodyAt (code : Code) (closing : Closing) (body : Ending → Point → Point → Prop)
    (a b : Point) : Prop :=
  match closing with
  | .value => body .give a b
  | .returned => body .drop a b
  | _ => ∃ m, body .drop a m ∧ OpAt code .returnNull [] m b

/-- A function is made: its code is a constant behind those that the code itself refers to, `body`
is the layout of that code. -/
def FunctionAt (code : Code) (constants : Array Value) (params : List String)
    (body : Code → Point → Point → Prop) (a b : Point) : Prop :=
  ∃ (i : Nat) (id : Identity) (fn : FunctionCode) (inner : Symbols),
    i < Compilation.maxConstants ∧ constants[i]? = some (.compiled id fn)
      ∧ body fn.code ⟨0, a.symbols.enterFunction.defineAll params, a.constants⟩
        ⟨fn.code.size, inner, i⟩
      -- what the code has come to when its symbols are known
      ∧ fn.locals = inner.slots ∧ fn.locals ≤ Compilation.maxLocals
      ∧ fn.params = params.length
      ∧ fn.captures = inner.captured.map Compilation.captureOf
      ∧ fn.captures.length < Compilation.maxLocals
      -- the symbols around are those that the function has left, with what it has captured of them
      ∧ ∃ symbols, inner.leaveFunction? = some symbols
        ∧ OpAt code .closure [i, fn.captures.length] ⟨a.position, symbols, i + 1⟩ b

/-- A jump out of the innermost loop, behind the operands that the loop does not know of. -/
def ExitAt (code : Code) (target : Exit → Nat) (exit : Option Exit) (d : Nat) (a b : Point) :
    Prop :=
  -- `d` is the depth that the compiler counts, and need not be the one of the stack
  ∃ (exit' : Exit) (m : Point), exit = some exit' ∧ PopsAt code (d - exit'.depth) a m
    ∧ OpAt code .jump [target exit'] m b ∧ target exit' ≤ Compilation.maxWord

/-- A loop, up to the value that it leaves; `body` is given the targets of the jumps that leave the
body. -/
def LoopAt (code : Code) (init test post : Point → Point → Prop)
    (body : (onBreak onContinue : Nat) → Point → Point → Prop) (a b : Point) : Prop :=
  ∃ m₁ m₂ m₃ m₄ : Point, init a m₁ ∧ test m₁ m₂
    ∧ OpAt code .jumpNotTruthy [m₄.position + Op.jump.size] m₂ (m₂.skip Op.jumpNotTruthy.size)
    -- a `break` leads behind the jump back, a `continue` to the third part
    ∧ body (m₄.position + Op.jump.size) m₃.position (m₂.skip Op.jumpNotTruthy.size) m₃
    ∧ post m₃ m₄ ∧ OpAt code .jump [m₁.position] m₄ (m₄.skip Op.jump.size)
    ∧ m₁.position ≤ Compilation.maxWord ∧ m₄.position + Op.jump.size ≤ Compilation.maxWord
    ∧ OpAt code .pushNull [] (m₄.skip Op.jump.size) b

/-! ## The layout -/

mutual

/-- The code of an expression leads from `a` to `b`, starting with `d` operands. -/
def ExprAt (code : Code) (constants : Array Value) (exit : Option Exit) (d : Nat) :
    Expr → (a b : Point) → Prop
  | .int i, a, b => ConstAt code constants (.int i) a b
  | .float x, a, b => ConstAt code constants (.float x) a b
  | .str s, a, b => ConstAt code constants (.str s) a b
  | .bool v, a, b => OpAt code (if v then .pushTrue else .pushFalse) [] a b
  | .ident name, a, b =>
    LoadAt code (a.symbols.require name).1 (a.withSymbols (a.symbols.require name).2) b
  -- the right operand of `<` comes first
  | .infixOp left op right, a, b =>
    if op = .lt then
      ∃ m n, ExprAt code constants exit d right a m ∧ ExprAt code constants exit (d + 1) left m n
        ∧ OpAt code .greaterThan [] n b
    else
      ∃ o m n, Compilation.infixOp? op = some o ∧ ExprAt code constants exit d left a m
        ∧ ExprAt code constants exit (d + 1) right m n ∧ OpAt code o [] n b
  | .prefixOp op operand, a, b =>
    ∃ o m, Compilation.prefixOp? op = some o ∧ ExprAt code constants exit d operand a m
      ∧ OpAt code o [] m b
  | .cond test yes no, a, b =>
    CondAt code (fun a b => ExprAt code constants exit d test a b)
      (BranchAt code (Stmt.closingList yes)
        fun ending a b => StmtsAt code constants exit ending d yes a b)
      (match no with
        | some no =>
          BranchAt code (Stmt.closingList no)
            fun ending a b => StmtsAt code constants exit ending d no a b
        | none => OpAt code .pushNull [])
      a b
  | .array elements, a, b =>
    ∃ m, ExprsAt code constants exit d elements a m ∧ elements.length ≤ Compilation.maxWord
      ∧ OpAt code .array [elements.length] m b
  | .hash pairs, a, b =>
    ∃ m, PairsAt code constants exit d pairs a m ∧ 2 * pairs.length ≤ Compilation.maxWord
      ∧ OpAt code .hash [2 * pairs.length] m b
  | .index left subscript, a, b =>
    ∃ m n, ExprAt code constants exit d left a m
      ∧ ExprAt code constants exit (d + 1) subscript m n ∧ OpAt code .index [] n b
  | .fn params body, a, b =>
    FunctionAt code constants params
      (fun code => BodyAt code (Stmt.closingList body)
        -- no loop is open in a function, and its operands are counted from zero
        fun ending a b => StmtsAt code constants none ending 0 body a b) a b
  | .call callee args, a, b =>
    -- asking for `quote` may capture it, so the symbols are those behind the question
    match a.symbols.quotes callee with
    | (true, symbols) =>
      ∃ id e, args = [e] ∧ ConstAt code constants (.quote id e) (a.withSymbols symbols) b
    | (false, symbols) =>
      ∃ m n, ExprAt code constants exit d callee (a.withSymbols symbols) m
        ∧ ExprsAt code constants exit (d + 1) args m n ∧ args.length < Compilation.maxLocals
        ∧ OpAt code .call [args.length] n b

/-- The code of expressions in turn; each leaves one operand. -/
def ExprsAt (code : Code) (constants : Array Value) (exit : Option Exit) (d : Nat) :
    List Expr → (a b : Point) → Prop
  | [], a, b => b = a
  | e :: rest, a, b =>
    ∃ m, ExprAt code constants exit d e a m ∧ ExprsAt code constants exit (d + 1) rest m b

/-- The code of the pairs of a hash in turn; each leaves two operands. -/
def PairsAt (code : Code) (constants : Array Value) (exit : Option Exit) (d : Nat) :
    List (Expr × Expr) → (a b : Point) → Prop
  | [], a, b => b = a
  | (key, value) :: rest, a, b =>
    ∃ m n, ExprAt code constants exit d key a m ∧ ExprAt code constants exit (d + 1) value m n
      ∧ PairsAt code constants exit (d + 2) rest n b

/-- The code of a statement leads from `a` to `b`. -/
def StmtAt (code : Code) (constants : Array Value) (exit : Option Exit) (ending : Ending)
    (d : Nat) : Stmt → (a b : Point) → Prop
  | .expr value, a, b => ∃ m, ExprAt code constants exit d value a m ∧ EndAt code ending m b
  | .bind name (.fn params body), a, b =>
    ∃ m, FunctionAt code constants params
        (fun code => BodyAt code (Stmt.closingList body)
          fun ending a b => StmtsAt code constants none ending 0 body a b)
        (a.withSymbols (a.symbols.define name).2) m
      ∧ StoreAt code (a.symbols.define name).1 m b
  | .bind name value, a, b =>
    ∃ m, ExprAt code constants exit d value a m
      ∧ StoreAt code (m.symbols.define name).1 (m.withSymbols (m.symbols.define name).2) b
  | .assign name value, a, b =>
    ∃ m, ExprAt code constants exit d value a m
      ∧ StoreAt code (m.symbols.require name).1 (m.withSymbols (m.symbols.require name).2) b
  | .ret value, a, b =>
    ∃ m, ExprAt code constants exit d value a m ∧ OpAt code .returnValue [] m b
  | .block body, a, b =>
    ∃ m : Point, StmtsAt code constants exit ending d body
        (a.withSymbols a.symbols.enterBlock) m
      ∧ b = m.withSymbols m.symbols.leaveBlock
  | .loop init test post body, a, b =>
    ∃ m : Point,
      -- a jump in the first part sets the depth for all that comes behind it
      LoopAt code (fun a b => StmtAt code constants exit .drop d init a b)
          (fun a b => ExprAt code constants exit (init.depthAfter exit d) test a b)
          (fun a b => StmtAt code constants exit .drop (init.depthAfter exit d) post a b)
          (fun onBreak onContinue a b =>
            StmtsAt code constants (some ⟨init.depthAfter exit d, onBreak, onContinue⟩) .drop
              (init.depthAfter exit d) body a b)
          (a.withSymbols a.symbols.enterBlock) m
        ∧ EndAt code ending (m.withSymbols m.symbols.leaveBlock) b
  | .breakLoop, a, b => ExitAt code Exit.onBreak exit d a b
  | .continueLoop, a, b => ExitAt code Exit.onContinue exit d a b

/-- The code of statements in turn. The ending is that of the last one that has code. -/
def StmtsAt (code : Code) (constants : Array Value) (exit : Option Exit) (ending : Ending)
    (d : Nat) : List Stmt → (a b : Point) → Prop
  | [], a, b => b = a
  | s :: rest, a, b =>
    -- the rest may be there and have no code, like an empty block
    ∃ m, if Stmt.closingList rest = .nothing then
        StmtAt code constants exit ending d s a m
          ∧ StmtsAt code constants exit .drop (s.depthAfter exit d) rest m b
      else
        StmtAt code constants exit .drop d s a m
          ∧ StmtsAt code constants exit ending (s.depthAfter exit d) rest m b

end

end Scriptlet
