import Scriptlet.Token

/-!
# Reading tokens

A `Cursor` is a position in a source text. `Cursor.next` reads one token and moves on; at the end of
the text it answers `Token.eof` and stays there. `Token.scan` lists the tokens of a whole text up to
its end. Outside of strings the language knows ASCII alone: a character beyond it is refused one
UTF-8 byte at a time, so a cursor may stand inside such a character.
-/

namespace Scriptlet

/-- A position in a source text: the bytes still to be refused of a character outside ASCII, and the
characters after it. -/
structure Cursor where
  pending : List UInt8
  rest : List Char
deriving Repr, DecidableEq

namespace Cursor

/-- The start of a text. -/
def ofString (source : String) : Cursor :=
  ⟨[], source.toList⟩

/-- Blanks separate tokens and are otherwise ignored. -/
def isBlank (c : Char) : Bool :=
  c == ' ' || c == '\t' || c == '\n' || c == '\r'

/-- Names are made of ASCII letters and underscores. -/
def isLetter (c : Char) : Bool :=
  c.isAlpha || c == '_'

/-- The character that a backslash followed by `c` stands for inside a string, if any. -/
def escaped? (c : Char) : Option Char :=
  match c with
  | 'n' => some '\n'
  | 't' => some '\t'
  | 'r' => some '\r'
  | '\\' => some '\\'
  | '"' => some '"'
  | 'a' => some '\x07'
  | 'b' => some '\x08'
  | 'f' => some '\x0c'
  | 'v' => some '\x0b'
  | '0' => some '\x00'
  | _ => none

/-- Reads the inside of a string: its contents, reversed onto `acc`, and what follows the closing
quote. The end of the text closes a string too. A backslash that introduces no escape stands for
itself. -/
def stringBody (acc : List Char) : List Char → List Char × List Char
  | [] => (acc, [])
  | '"' :: rest => (acc, rest)
  | ['\\'] => ('\\' :: acc, [])
  | '\\' :: c :: rest =>
    match escaped? c with
    | some d => stringBody (d :: acc) rest
    | none => stringBody (c :: '\\' :: acc) rest
  | c :: rest => stringBody (c :: acc) rest

/-- Reads a number that starts with the digits at the front of `cs`. A point belongs to it only if a
digit follows. -/
def number (cs : List Char) : Token × List Char :=
  let whole := cs.takeWhile Char.isDigit
  match cs.dropWhile Char.isDigit with
  | '.' :: d :: rest =>
    if d.isDigit then
      let places := (d :: rest).takeWhile Char.isDigit
      (.float (String.ofList (whole ++ '.' :: places)), (d :: rest).dropWhile Char.isDigit)
    else
      -- the point is left for the next token
      (.int (String.ofList whole), '.' :: d :: rest)
  | rest => (.int (String.ofList whole), rest)

/-- The token of a character that is one by itself, whatever follows. -/
def single? (c : Char) : Option Token :=
  match c with
  | '+' => some .plus
  | '-' => some .minus
  | '(' => some .lparen
  | ')' => some .rparen
  | ';' => some .semicolon
  | ',' => some .comma
  | '\x7b' => some .lbrace
  | '\x7d' => some .rbrace
  | '*' => some .asterisk
  | '/' => some .slash
  | '<' => some .lt
  | '>' => some .gt
  | ':' => some .colon
  | '[' => some .lbracket
  | ']' => some .rbracket
  | _ => none

/-- The token that starts with the character `c`, which is not blank, and the position after it. -/
def tokenAt (c : Char) (rest : List Char) : Token × Cursor :=
  match c, rest with
  | '=', '=' :: rest => (.eq, ⟨[], rest⟩)
  | '=', rest => (.assign, ⟨[], rest⟩)
  | '!', '=' :: rest => (.notEq, ⟨[], rest⟩)
  | '!', rest => (.bang, ⟨[], rest⟩)
  | '"', rest =>
    let (contents, rest) := stringBody [] rest
    (.str (String.ofList contents.reverse), ⟨[], rest⟩)
  | c, rest =>
    match single? c with
    | some token => (token, ⟨[], rest⟩)
    | none =>
      if isLetter c then
        (.ofWord (String.ofList ((c :: rest).takeWhile isLetter)),
          ⟨[], (c :: rest).dropWhile isLetter⟩)
      else if c.isDigit then
        let (token, rest) := number (c :: rest)
        (token, ⟨[], rest⟩)
      else
        -- outside of ASCII every byte of a character is a token
        match String.utf8EncodeChar c with
        | [] => (.illegal c, ⟨[], rest⟩)
        | byte :: bytes => (.illegal (Char.ofNat byte.toNat), ⟨bytes, rest⟩)

/-- Reads the next token. -/
def next (cursor : Cursor) : Token × Cursor :=
  match cursor.pending with
  | byte :: bytes => (.illegal (Char.ofNat byte.toNat), ⟨bytes, cursor.rest⟩)
  | [] =>
    match cursor.rest.dropWhile isBlank with
    | [] => (.eof, ⟨[], []⟩)
    | c :: rest => tokenAt c rest

/-- The number of bytes of a list of characters. -/
def byteCount : List Char → Nat
  | [] => 0
  | c :: cs => c.utf8Size + byteCount cs

/-- The number of bytes from the cursor to the end of the text. -/
def remaining (cursor : Cursor) : Nat :=
  cursor.pending.length + byteCount cursor.rest

/-! ### Every token takes at least one byte -/

theorem byteCount_le_of_suffix {cs ds : List Char} (h : cs <:+ ds) :
    byteCount cs ≤ byteCount ds := by
  obtain ⟨front, rfl⟩ := h
  induction front with
  | nil => exact Nat.le_refl _
  | cons c front ih => exact Nat.le_trans ih (Nat.le_add_left _ _)

theorem byteCount_lt_cons (c : Char) (cs : List Char) : byteCount cs < byteCount (c :: cs) := by
  have := c.utf8Size_pos
  simp only [byteCount]
  omega

theorem stringBody_suffix (acc cs : List Char) : (stringBody acc cs).2 <:+ cs := by
  fun_induction stringBody acc cs with
  | case1 => exact List.suffix_refl _
  | case2 acc rest => exact List.suffix_cons _ _
  | case3 => exact List.nil_suffix
  | case4 =>
    rename_i ih
    exact ih.trans ((List.suffix_cons _ _).trans (List.suffix_cons _ _))
  | case5 =>
    rename_i ih
    exact ih.trans ((List.suffix_cons _ _).trans (List.suffix_cons _ _))
  | case6 =>
    rename_i ih
    exact ih.trans (List.suffix_cons _ _)

theorem number_suffix (cs : List Char) : (number cs).2 <:+ cs.dropWhile Char.isDigit := by
  unfold number
  split
  · rename_i d rest h
    split
    · exact h ▸ (List.dropWhile_suffix _).trans (List.suffix_cons _ _)
    · exact h ▸ List.suffix_refl _
  · exact List.suffix_refl _

theorem remaining_tokenAt (c : Char) (rest : List Char) :
    remaining (tokenAt c rest).2 < byteCount (c :: rest) := by
  have rest_lt := byteCount_lt_cons c rest
  have of_suffix {cs : List Char} (h : cs <:+ rest) : byteCount cs < byteCount (c :: rest) :=
    Nat.lt_of_le_of_lt (byteCount_le_of_suffix h) rest_lt
  unfold tokenAt
  split
  · simpa [remaining] using of_suffix (List.suffix_cons _ _)
  · simpa [remaining] using rest_lt
  · simpa [remaining] using of_suffix (List.suffix_cons _ _)
  · simpa [remaining] using rest_lt
  · simpa [remaining] using of_suffix (stringBody_suffix [] _)
  · split
    · simpa [remaining] using rest_lt
    · split
      · rename_i h
        rw [List.dropWhile_cons_of_pos h]
        simpa [remaining] using of_suffix (List.dropWhile_suffix _)
      · split
        · rename_i h
          have := number_suffix (c :: rest)
          rw [List.dropWhile_cons_of_pos h] at this
          simpa [remaining] using of_suffix (this.trans (List.dropWhile_suffix _))
        · have size := String.length_utf8EncodeChar c
          split
          · simpa [remaining] using rest_lt
          · rename_i h
            rw [h] at size
            simp only [List.length_cons] at size
            simp only [remaining, byteCount]
            omega

/-- Reading a token that is not the end of the text takes at least one byte. -/
theorem remaining_next_lt {cursor : Cursor} (h : cursor.next.1 ≠ .eof) :
    remaining cursor.next.2 < remaining cursor := by
  revert h
  unfold next
  split
  · rename_i byte bytes pending
    intro _
    simp [remaining, pending]
  · rename_i pending
    split
    · intro h
      exact absurd rfl h
    · rename_i c rest blanks
      intro _
      have suffix := byteCount_le_of_suffix (List.dropWhile_suffix isBlank : _ <:+ cursor.rest)
      rw [blanks] at suffix
      have := remaining_tokenAt c rest
      simp only [remaining, pending, List.length_nil] at this ⊢
      omega

/-- The tokens from a cursor to the end of the text, which is not listed, appended to `acc`. -/
def tokensFrom (cursor : Cursor) (acc : Array Token) : Array Token :=
  match _next : cursor.next with
  | (token, after) => if _atEnd : token = .eof then acc else tokensFrom after (acc.push token)
termination_by cursor.remaining
decreasing_by
  have := @remaining_next_lt cursor (by simpa [_next] using _atEnd)
  simpa [_next] using this

end Cursor

/-- All tokens of a source text, without the end of the text. -/
def Token.scan (source : String) : List Token :=
  (Cursor.tokensFrom (.ofString source) #[]).toList

end Scriptlet
