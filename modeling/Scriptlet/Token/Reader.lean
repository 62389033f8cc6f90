import Scriptlet.Token.Lexer

/-!
# Reading tokens by position

A `Reader` goes through the bytes of a text by their positions, and knows one byte ahead. It may run
behind the end of the text, where it finds the byte zero; since that byte may be part of a text as
well, `Reader.atEnd` asks for the position. `Reader.next?` reads one token. It has no answer if it
cuts a text out of bytes that are not there, or out of bytes that are no text.

A byte is looked at as the character of that number, so that no byte of a character outside of ASCII
belongs to any class of characters.
-/

namespace Scriptlet

/-- A position in the bytes of a text. -/
structure Reader where
  input : Array UInt8
  /-- The position of `byte`. -/
  position : Nat
  /-- The position of the byte that is read next. -/
  following : Nat
  /-- The byte at the position, zero behind the end of the text. -/
  byte : UInt8

namespace Reader

/-- The byte that is read next. -/
def peekByte (r : Reader) : UInt8 :=
  r.input[r.following]?.getD 0

/-- Goes on by one byte. -/
def advance (r : Reader) : Reader :=
  { r with
    position := r.following
    following := if r.following ≤ r.input.size then r.following + 1 else r.following
    byte := r.peekByte }

/-- The start of a text. -/
def ofString (source : String) : Reader :=
  advance { input := source.toUTF8.data, position := 0, following := 0, byte := 0 }

/-- The character whose number a byte is. -/
def charOf (byte : UInt8) : Char :=
  Char.ofNat byte.toNat

/-- The byte at the position, as a character. -/
def char (r : Reader) : Char :=
  charOf r.byte

/-- The byte that is read next, as a character. -/
def peek (r : Reader) : Char :=
  charOf r.peekByte

/-- Whether the text has ended. -/
def atEnd (r : Reader) : Bool :=
  r.input.size ≤ r.position

/-- The number of bytes from the position to the end of the text. -/
def left (r : Reader) : Nat :=
  r.input.size - r.position

/-- The text that some bytes encode, if they do. -/
def text? (bytes : Array UInt8) : Option String :=
  String.fromUTF8? ⟨bytes⟩

/-- The text from a position up to that of the reader, which have to be those of a part of the
input. -/
def slice? (r : Reader) (start : Nat) : Option String :=
  if start ≤ r.position ∧ r.position ≤ r.input.size then text? (r.input.extract start r.position)
  else none

/-! ### Loops -/

/-- The number of bytes that have not been read. -/
def unread (r : Reader) : Nat :=
  r.input.size - r.following

theorem unread_advance (r : Reader) : r.advance.unread
    = r.input.size - if r.following ≤ r.input.size then r.following + 1 else r.following := rfl

theorem unread_advance_le (r : Reader) : r.advance.unread ≤ r.unread := by
  rw [unread_advance, unread]
  split
  all_goals omega

theorem unread_advance_lt {r : Reader} (h : r.following < r.input.size) :
    r.advance.unread < r.unread := by
  rw [unread_advance, unread, if_pos (Nat.le_of_lt h)]
  omega

/-- Behind the end of the text there are only zeros. -/
theorem peekByte_eq_zero {r : Reader} (h : r.input.size ≤ r.following) : r.peekByte = 0 := by
  rw [peekByte, Array.getElem?_eq_none h]
  rfl

/-- An upper bound on how often a reader goes on before it is at a byte zero. -/
def budget (r : Reader) : Nat :=
  r.unread + if r.byte = 0 then 0 else 1

theorem budget_advance_lt {r : Reader} (h : r.byte ≠ 0) : r.advance.budget < r.budget := by
  have hbyte : r.advance.byte = r.peekByte := rfl
  simp only [budget, if_neg h, hbyte]
  by_cases hin : r.following < r.input.size
  · have hunread := unread_advance_lt hin
    split
    all_goals omega
  · have hunread := r.unread_advance_le
    rw [if_pos (peekByte_eq_zero (Nat.le_of_not_lt hin))]
    omega

/-- Goes on as long as the byte at the position belongs to a class of characters, which zero must
not. -/
def pass (p : Char → Bool) (r : Reader) (hzero : p '\x00' = false) : Reader :=
  if _h : p r.char then pass p r.advance hzero else r
termination_by r.budget
decreasing_by
  refine budget_advance_lt fun hbyte => ?_
  have hchar : r.char = '\x00' := by
    rw [char, hbyte]
    rfl
  rw [hchar, hzero] at _h
  exact Bool.noConfusion _h

/-- Goes through the inside of a string up to the closing quote or the end of the text, and adds its
contents to `contents`. The reader stands before the first byte. -/
def stringBody (contents : Array UInt8) (r : Reader) : Array UInt8 × Reader :=
  if _h : r.advance.atEnd || r.advance.char = '"' then (contents, r.advance)
  else if r.advance.char = '\\' then
    match Cursor.escaped? r.advance.advance.char with
    | some c => stringBody (contents.push c.toUInt8) r.advance.advance
    | none =>
      if r.advance.advance.atEnd then (contents.push r.advance.byte, r.advance.advance)
      else
        stringBody ((contents.push r.advance.byte).push r.advance.advance.byte) r.advance.advance
  else stringBody (contents.push r.advance.byte) r.advance
termination_by r.unread
decreasing_by
  all_goals
    have hlt : r.following < r.input.size := by
      rw [Bool.or_eq_true, not_or] at _h
      exact Nat.lt_of_not_le fun hle => _h.1 (decide_eq_true hle)
    have hunread := unread_advance_lt hlt
    first
    | exact hunread
    | exact Nat.lt_of_le_of_lt r.advance.unread_advance_le hunread

/-! ### Tokens -/

/-- Goes on behind the digits. -/
def digits (r : Reader) : Reader :=
  r.pass Char.isDigit rfl

/-- Reads a number, of which the reader stands at the first digit. -/
def number? (r : Reader) : Option (Token × Reader) :=
  let whole := r.digits
  if whole.char = '.' && whole.peek.isDigit then do
    let places := whole.advance.digits
    return (.float (← places.slice? r.position), places)
  else do
    return (.int (← whole.slice? r.position), whole)

/-- Reads the token at the position, where no blank is. -/
def token? (r : Reader) : Option (Token × Reader) :=
  match r.char with
  | '=' => if r.peek = '=' then some (.eq, r.advance.advance) else some (.assign, r.advance)
  | '!' => if r.peek = '=' then some (.notEq, r.advance.advance) else some (.bang, r.advance)
  | '"' => do
    let (contents, close) := r.stringBody #[]
    return (.str (← text? contents), close.advance)
  | c =>
    match Cursor.single? c with
    | some token => some (token, r.advance)
    | none =>
      if Cursor.isLetter c then do
        let word := r.pass Cursor.isLetter rfl
        return (.ofWord (← word.slice? r.position), word)
      else if c.isDigit then r.number?
      else some (.illegal c, r.advance)

/-- Reads the next token. -/
def next? (r : Reader) : Option (Token × Reader) :=
  let start := r.pass Cursor.isBlank rfl
  if start.atEnd then some (.eof, start) else start.token?

/-- The reader behind so many tokens. -/
def after? : (count : Nat) → Reader → Option Reader
  | 0, r => some r
  | count + 1, r => do
    let (_, after) ← r.next?
    after? count after

end Reader

end Scriptlet
