import Scriptlet.Proofs.Syntax.Bytes
import Scriptlet.Proofs.Syntax.Spelling

/-!
# Reading by position and by characters

A reader on the bytes of a text and a cursor on its characters read the same tokens, and the reader
never asks for bytes that are not there (`At.next?`): what it finds from its position on are the
bytes that the cursor has still to read (`Reader.At`). So every text is read to its end, with at
least one byte for each token, and behind the end there is nothing but the end (`reads_to_end`).

The reader knows nothing of characters. It tests single bytes, moves by single bytes, and cuts the
text at two positions, which fails if one of them is inside of a character. The cursor has no
positions at all. The relation between the two is kept by every step: where a class of ASCII
characters is passed over, both stop at the same place (`At.pass`), and what the reader cuts out
lies between two places at which the cursor stood as well (`Passes.slice?_eq`).
-/

namespace Scriptlet.Reader

variable {r r' r'' : Reader} {b : UInt8} {bs word word' : List UInt8}

/-! ## The bytes ahead

What is left of a text from the position on, and how it changes as the reader moves. The position
may be one behind the end, since the reader steps over the end once; `Sound` keeps it from going
further. -/

/-- The bytes from the position to the end of the text. -/
def rest (r : Reader) : List UInt8 :=
  r.input.toList.drop r.position

/-- **The byte at the position and the byte ahead are those of the text.** Both positions stop at
most one behind its end. -/
structure Sound (r : Reader) : Prop where
  position_le : r.position ≤ r.input.size + 1
  following : r.following = min (r.position + 1) (r.input.size + 1)
  byte : r.byte = r.input[r.position]?.getD 0

theorem sound_advance (h : r.following ≤ r.input.size + 1) : r.advance.Sound := by
  refine ⟨h, ?_, rfl⟩
  show (if r.following ≤ r.input.size then r.following + 1 else r.following)
    = min (r.following + 1) (r.input.size + 1)
  split
  all_goals omega

theorem sound_ofString (source : String) : (ofString source).Sound :=
  sound_advance (Nat.zero_le _)

namespace Sound

theorem advance (h : r.Sound) : r.advance.Sound := by
  refine sound_advance ?_
  rw [h.following]
  exact Nat.min_le_right _ _

theorem rest_advance (h : r.Sound) : r.advance.rest = r.rest.tail := by
  show r.input.toList.drop r.following = (r.input.toList.drop r.position).tail
  rw [List.tail_drop, h.following]
  rcases Nat.lt_or_ge r.input.size r.position with hlt | hle
  · rw [List.drop_eq_nil_of_le, List.drop_eq_nil_of_le]
    all_goals
      rw [Array.length_toList]
      omega
  · rw [Nat.min_eq_left (Nat.succ_le_succ hle)]

theorem byte_eq (h : r.Sound) : r.byte = r.rest.headD 0 := by
  rw [h.byte, rest, List.headD_eq_head?_getD, List.head?_drop, Array.getElem?_toList]

theorem char_eq (h : r.Sound) : r.char = charOf (r.rest.headD 0) := by
  rw [char, h.byte_eq]

end Sound

theorem atEnd_iff : r.atEnd = true ↔ r.rest = [] := by
  rw [atEnd, decide_eq_true_eq, rest, List.drop_eq_nil_iff, Array.length_toList]

theorem length_rest (r : Reader) : r.rest.length = r.left := by
  rw [rest, List.length_drop, Array.length_toList, left]

/-! ## Passing over bytes

Between two positions of one reader lie some bytes. `Passes` names them, so that what has been
passed over can be cut out afterwards; passing twice is passing the two words in a row. -/

/-- A reader has passed over some bytes: it stands so many further on, in the same input. -/
structure Passes (r r' : Reader) (word : List UInt8) : Prop where
  sound : r'.Sound
  input : r'.input = r.input
  position : r'.position = r.position + word.length
  rest : r.rest = word ++ r'.rest

theorem Sound.passes (h : r.Sound) : Passes r r [] :=
  ⟨h, rfl, rfl, rfl⟩

theorem Passes.trans (h : Passes r r' word) (h' : Passes r' r'' word') :
    Passes r r'' (word ++ word') where
  sound := h'.sound
  input := h'.input.trans h.input
  position := by
    rw [h'.position, h.position, List.length_append]
    omega
  rest := by rw [h.rest, h'.rest, List.append_assoc]

theorem Sound.passes_advance (h : r.Sound) (hrest : r.rest = b :: bs) :
    Passes r r.advance [b] := by
  have hlt : r.position < r.input.size := by
    have hlength := r.length_rest
    rw [hrest, List.length_cons, left] at hlength
    omega
  refine ⟨h.advance, rfl, ?_, ?_⟩
  · show r.following = r.position + 1
    rw [h.following]
    omega
  · rw [h.rest_advance, hrest]
    rfl

/-- What a reader has passed over can be cut out, as long as it started inside of the text. The
bytes need not be a text; that they are is a separate question (`text?_bytesOf`). -/
theorem Passes.slice?_eq (h : Passes r r' word) (hle : r.position ≤ r.input.size) :
    r'.slice? r.position = text? word.toArray := by
  have hlength := r.length_rest
  rw [h.rest, List.length_append, left] at hlength
  have hposition := h.position
  have hword : r'.input.extract r.position r'.position = word.toArray := by
    apply Array.toList_inj.mp
    have htake : (r.rest).take word.length = word := by
      rw [h.rest, List.take_left]
    rw [Array.toList_extract, List.extract, h.input, hposition, Nat.add_sub_cancel_left]
    exact htake
  rw [slice?, if_pos ⟨by omega, by rw [h.input]; omega⟩, hword]

theorem pass_stop {p : Char → Bool} {hzero : p '\x00' = false} (h : ¬ p r.char = true) :
    r.pass p hzero = r := by
  rw [pass, dif_neg h]

/-- A class is passed over up to the first byte that does not belong to it. Induction along the
recursion of `pass`; behind the end of the text the reader sees the byte zero, which belongs to no
class. -/
theorem Sound.passes_pass (h : r.Sound) {p : Char → Bool} (hzero : p '\x00' = false) :
    Passes r (r.pass p hzero) (r.rest.takeWhile fun b => p (charOf b)) := by
  induction r using pass.induct p hzero with
  | case1 r hp ih =>
    rw [pass, dif_pos hp]
    cases hrest : r.rest with
    -- behind the end
    | nil =>
      rw [h.char_eq, hrest] at hp
      exact absurd (hp.symm.trans hzero) Bool.noConfusion
    | cons b bs =>
      have hpass := (h.passes_advance hrest).trans (ih h.advance)
      rw [h.rest_advance, hrest, List.tail_cons] at hpass
      rw [h.char_eq, hrest, List.headD_cons] at hp
      rw [List.takeWhile_cons, if_pos hp]
      exact hpass
  | case2 r hp =>
    rw [pass_stop hp]
    have hstop : (r.rest.takeWhile fun b => p (charOf b)) = [] := by
      cases hrest : r.rest with
      | nil => rfl
      | cons b bs =>
        rw [h.char_eq, hrest, List.headD_cons] at hp
        rw [List.takeWhile_cons, if_neg hp]
    rw [hstop]
    exact h.passes

/-! ## The same place in a text

`At` is the relation that the whole module keeps. A cursor may have bytes pending, namely the rest
of a character whose first byte was refused as a token of its own; the reader has these bytes in
front of it like any others. -/

/-- **A reader on some bytes and a cursor are at the same place**: what the one finds from its
position on, the other has still to read. Pending bytes are above ASCII, so no class and no
punctuation is found among them. -/
structure At (r : Reader) (input : Array UInt8) (cursor : Cursor) : Prop where
  sound : r.Sound
  input : r.input = input
  pending : ∀ b ∈ cursor.pending, 128 ≤ b.toNat
  rest : r.rest = cursor.pending ++ bytesOf cursor.rest

/-- At the start of a text. -/
theorem at_ofString (source : String) :
    (ofString source).At source.toUTF8.data (.ofString source) := by
  refine ⟨sound_ofString source, rfl, List.forall_mem_nil _, ?_⟩
  show (source.toUTF8.data.toList).drop 0 = [] ++ bytesOf source.toList
  rw [toUTF8_eq]
  rfl

variable {input : Array UInt8} {cursor : Cursor} {c : Char} {cs : List Char} {p : Char → Bool}

namespace At

theorem left_eq (h : r.At input cursor) : r.left = cursor.remaining := by
  rw [← length_rest, h.rest, List.length_append, length_bytesOf, Cursor.remaining]

theorem atEnd_iff (h : r.At input ⟨[], cs⟩) : r.atEnd = true ↔ cs = [] := by
  rw [Reader.atEnd_iff, h.rest, List.nil_append, bytesOf, List.flatMap_eq_nil_iff]
  refine ⟨fun hnil => ?_, fun hnil => ?_⟩
  · cases cs with
    | nil => rfl
    | cons c cs => exact absurd (hnil c List.mem_cons_self) String.utf8EncodeChar_ne_nil
  · rw [hnil]
    exact List.forall_mem_nil _

theorem inside (h : r.At input ⟨[], c :: cs⟩) : r.atEnd = false := by
  rw [Bool.eq_false_iff, Ne, h.atEnd_iff]
  exact List.cons_ne_nil c cs

theorem advance (h : r.At input cursor) {cursor' : Cursor}
    (hpending : ∀ b ∈ cursor'.pending, 128 ≤ b.toNat)
    (hrest : r.rest.tail = cursor'.pending ++ bytesOf cursor'.rest) :
    r.advance.At input cursor' :=
  ⟨h.sound.advance, h.input, hpending, h.sound.rest_advance.trans hrest⟩

/-- At a character of ASCII the byte is the character, and one step takes the reader behind both. -/
theorem ascii (h : r.At input ⟨[], c :: cs⟩) (hc : c.toNat < 128) :
    r.char = c ∧ String.utf8EncodeChar c = [r.byte] ∧ r.advance.At input ⟨[], cs⟩ := by
  obtain ⟨b, hb, rfl⟩ := encode_ascii hc
  have hrest := h.rest
  rw [List.nil_append, bytesOf_cons, hb, List.singleton_append] at hrest
  have hbyte : r.byte = b := by rw [h.sound.byte_eq, hrest, List.headD_cons]
  refine ⟨?_, ?_, h.advance (List.forall_mem_nil _) ?_⟩
  · rw [char, hbyte]
  · rw [hb, hbyte]
  · rw [hrest]
    rfl

/-- Whether the byte at the position belongs to a class is seen from the next character. -/
theorem class_char (h : r.At input ⟨[], cs⟩) (hp : InAscii p) (hzero : p '\x00' = false) :
    p r.char = cs.head?.any p := by
  rw [h.sound.char_eq, h.rest]
  exact class_head hp hzero cs

theorem char_eq_iff (h : r.At input ⟨[], cs⟩) {a : Char} (ha : a.toNat < 128)
    (hzero : a ≠ '\x00') : r.char = a ↔ cs.head? = some a := by
  have hclass := h.class_char (p := (· == a)) (fun c hc => by rw [eq_of_beq hc]; exact ha)
    (beq_eq_false_iff_ne.mpr hzero.symm)
  rw [← beq_iff_eq, hclass, Option.any_eq_true]
  simp

/-- **A class is passed over in the bytes as it is in the characters.** The bytes of the characters
that were passed over are a word of `Passes`. -/
theorem pass (h : r.At input ⟨[], cs⟩) (hp : InAscii p) (hzero : p '\x00' = false) :
    Passes r (r.pass p hzero) (bytesOf (cs.takeWhile p))
      ∧ (r.pass p hzero).At input ⟨[], cs.dropWhile p⟩ := by
  have hpass := h.sound.passes_pass hzero
  have hrest := hpass.rest
  rw [h.rest, List.nil_append, takeWhile_bytesOf hp] at hpass
  refine ⟨hpass, hpass.sound, hpass.input.trans h.input, List.forall_mem_nil _, ?_⟩
  rw [h.rest, List.nil_append] at hrest
  have hall := List.takeWhile_append_dropWhile (p := fun b => p (charOf b)) (l := bytesOf cs)
  rw [← List.append_cancel_left (hall.trans hrest), dropWhile_bytesOf hp]
  rfl

end At

/-! ### The classes

All classes that the two readers test are classes of ASCII characters, so `At.pass` and
`At.class_char` apply to each of them. -/

theorem inAscii_isBlank : InAscii Cursor.isBlank := by
  intro c h
  rcases Cursor.isBlank_cases h with rfl | rfl | rfl | rfl
  all_goals decide

theorem inAscii_isDigit : InAscii Char.isDigit := by
  intro c h
  have hle := (Char.isDigit_iff_toNat.mp h).2
  exact Nat.lt_of_le_of_lt hle (by decide)

theorem inAscii_isLetter : InAscii Cursor.isLetter := by
  intro c h
  have hcode : c.val.toNat = c.toNat := rfl
  unfold Cursor.isLetter Char.isAlpha Char.isUpper Char.isLower at h
  simp only [Bool.or_eq_true, Bool.and_eq_true, decide_eq_true_eq, beq_iff_eq, ge_iff_le,
    UInt32.le_iff_toNat_le, hcode] at h
  rcases h with (⟨-, hle⟩ | ⟨-, hle⟩) | rfl
  · exact Nat.lt_of_le_of_lt hle (by decide)
  · exact Nat.lt_of_le_of_lt hle (by decide)
  · decide

theorem inAscii_single? : InAscii fun c => (Cursor.single? c).isSome := by
  intro c h
  have h : (Cursor.single? c).isSome = true := h
  unfold Cursor.single? at h
  split at h
  all_goals first | decide | cases h

theorem inAscii_escaped? : InAscii fun c => (Cursor.escaped? c).isSome := by
  intro c h
  have h : (Cursor.escaped? c).isSome = true := h
  unfold Cursor.escaped? at h
  split at h
  all_goals first | decide | cases h

theorem charOf_ne (hb : 128 ≤ b.toNat) {a : Char} (ha : a.toNat < 128) : charOf b ≠ a := by
  intro h
  rw [← toNat_charOf, h] at hb
  omega

/-! ## Strings

A string is where the two differ most: the cursor collects characters in reverse, the reader
collects bytes, and it takes the bytes of a character one by one without knowing where the character
ends. So the induction is on the characters, and `stringBody_plain` runs through the further bytes
of each. -/

section

variable {contents : Array UInt8}

theorem stringBody_stop (h : r.advance.atEnd = true ∨ r.advance.char = '"') :
    r.stringBody contents = (contents, r.advance) := by
  rw [stringBody, dif_pos (by simpa using h)]

theorem stringBody_byte (hin : r.advance.atEnd = false) (hquote : r.advance.char ≠ '"')
    (hbackslash : r.advance.char ≠ '\\') :
    r.stringBody contents = r.advance.stringBody (contents.push r.advance.byte) := by
  rw [stringBody, dif_neg (by simp [hin, hquote]), if_neg hbackslash]

theorem stringBody_escape (hin : r.advance.atEnd = false) (hbackslash : r.advance.char = '\\')
    {d : Char} (hescaped : Cursor.escaped? r.advance.advance.char = some d) :
    r.stringBody contents = r.advance.advance.stringBody (contents.push d.toUInt8) := by
  rw [stringBody, dif_neg (by simp [hin, hbackslash]), if_pos hbackslash, hescaped]

/-- A backslash that introduces no escape stands for itself, and so does what follows it. -/
theorem stringBody_backslash (hin : r.advance.atEnd = false)
    (hbackslash : r.advance.char = '\\')
    (hescaped : Cursor.escaped? r.advance.advance.char = none) :
    r.stringBody contents
      = if r.advance.advance.atEnd then (contents.push r.advance.byte, r.advance.advance)
        else r.advance.advance.stringBody
          ((contents.push r.advance.byte).push r.advance.advance.byte) := by
  rw [stringBody, dif_neg (by simp [hin, hbackslash]), if_pos hbackslash, hescaped]

/-- Bytes that are no quotes and no backslashes are part of a string as they are. Induction on these
bytes, with the reader moving on. -/
theorem stringBody_plain (hr : r.Sound) (contents : Array UInt8) {tail : List UInt8}
    (hplain : ∀ b ∈ bs, charOf b ≠ '"' ∧ charOf b ≠ '\\') (hrest : r.advance.rest = bs ++ tail) :
    ∃ last : Reader, r.stringBody contents = last.stringBody (contents ++ bs.toArray)
      ∧ last.Sound ∧ last.input = r.input ∧ last.advance.rest = tail := by
  induction bs generalizing r contents with
  | nil => exact ⟨r, by rw [Array.append_empty], hr, rfl, hrest⟩
  | cons b bs ih =>
    -- the reader has moved onto the byte before it is looked at
    have hbyte : r.advance.byte = b := by
      rw [hr.advance.byte_eq, hrest]
      rfl
    have hin : r.advance.atEnd = false := by
      rw [Bool.eq_false_iff, Ne, Reader.atEnd_iff, hrest]
      exact List.cons_ne_nil _ _
    have htail : r.advance.advance.rest = bs ++ tail := by
      rw [hr.advance.rest_advance, hrest]
      rfl
    have hchar : r.advance.char = charOf b := congrArg charOf hbyte
    obtain ⟨hquote, hbackslash⟩ := hplain b List.mem_cons_self
    rw [← hchar] at hquote hbackslash
    obtain ⟨last, hbody, hlast⟩ := ih hr.advance (contents.push b)
      (fun b' hb' => hplain b' (List.mem_cons_of_mem b hb')) htail
    refine ⟨last, ?_, hlast⟩
    have hbytes : contents.push b ++ bs.toArray = contents ++ (b :: bs).toArray := by
      apply Array.toList_inj.mp
      simp
    rw [stringBody_byte hin hquote hbackslash, hbyte, hbody, hbytes]

end

/-- The bytes of one more character. -/
theorem bytesOf_push (acc : List Char) (c : Char) :
    (bytesOf acc.reverse).toArray ++ (String.utf8EncodeChar c).toArray
      = (bytesOf (c :: acc).reverse).toArray := by
  rw [List.reverse_cons, bytesOf_append, bytesOf_cons, bytesOf_nil, List.append_nil,
    List.append_toArray]

theorem bytesOf_push_ascii (acc : List Char) (hb : String.utf8EncodeChar c = [b]) :
    (bytesOf acc.reverse).toArray.push b = (bytesOf (c :: acc).reverse).toArray := by
  rw [← bytesOf_push, hb, Array.append_singleton]

theorem encode_escaped {d : Char} (h : Cursor.escaped? c = some d) :
    String.utf8EncodeChar d = [d.toUInt8] := by
  unfold Cursor.escaped? at h
  split at h
  all_goals first | cases h; rfl | cases h

/-- **The inside of a string is read alike**, up to its closing quote or to the end of the text. The
cases are those of the recursion of the cursor. -/
theorem stringBody_eq (acc cs : List Char) {r : Reader} (hr : r.Sound)
    (h : r.advance.At input ⟨[], cs⟩) :
    ∃ close : Reader, r.stringBody (bytesOf acc.reverse).toArray
        = ((bytesOf (Cursor.stringBody acc cs).1.reverse).toArray, close)
      ∧ close.advance.At input ⟨[], (Cursor.stringBody acc cs).2⟩ := by
  induction acc, cs using Cursor.stringBody.induct generalizing r with
  | case1 acc =>
    exact ⟨r.advance, stringBody_stop (.inl (h.atEnd_iff.mpr rfl)),
      h.advance (List.forall_mem_nil _) (by rw [h.rest]; rfl)⟩
  | case2 acc rest =>
    obtain ⟨hchar, -, hrest⟩ := h.ascii (by decide)
    exact ⟨r.advance, stringBody_stop (.inr hchar), hrest⟩
  | case3 acc =>
    -- a backslash at the end of the text stands for itself
    obtain ⟨hchar, hbyte, hrest⟩ := h.ascii (by decide)
    have hescaped : Cursor.escaped? r.advance.advance.char = none := by
      rw [← Option.not_isSome_iff_eq_none, hrest.class_char inAscii_escaped? rfl]
      exact Bool.noConfusion
    refine ⟨r.advance.advance, ?_, hrest.advance (List.forall_mem_nil _) (by rw [hrest.rest]; rfl)⟩
    rw [stringBody_backslash h.inside hchar hescaped, if_pos (hrest.atEnd_iff.mpr rfl),
      bytesOf_push_ascii acc hbyte]
    rfl
  -- an escape: the backslash and what follows it are both characters of ASCII
  | case4 acc c rest d hescaped ih =>
    obtain ⟨hchar, -, hrest⟩ := h.ascii (by decide)
    have hc : c.toNat < 128 := inAscii_escaped? c (Option.isSome_iff_exists.mpr ⟨d, hescaped⟩)
    obtain ⟨hc', -, hrest'⟩ := hrest.ascii hc
    rw [stringBody_escape h.inside hchar (by rw [hc', hescaped]),
      bytesOf_push_ascii acc (encode_escaped hescaped), Cursor.stringBody, hescaped]
    exact ih hrest.sound hrest'
  | case5 acc c rest hescaped ih =>
    obtain ⟨hchar, hbyte, hrest⟩ := h.ascii (by decide)
    have hescaped' : Cursor.escaped? r.advance.advance.char = none := by
      rw [← Option.not_isSome_iff_eq_none, hrest.class_char inAscii_escaped? rfl, List.head?_cons,
        Option.any_some, hescaped]
      exact Bool.noConfusion
    obtain ⟨b, bs, hencode⟩ := encode_cons c
    have hfirst : r.advance.advance.byte = b := by
      rw [hrest.sound.byte_eq, hrest.rest, List.nil_append, bytesOf_cons, hencode]
      rfl
    -- the first byte of the character has been added, the others are plain
    have hothers : r.advance.advance.advance.rest = bs ++ bytesOf rest := by
      rw [hrest.sound.rest_advance, hrest.rest, List.nil_append, bytesOf_cons, hencode]
      rfl
    obtain ⟨last, hbody, hsound, hinput, hlast⟩ := stringBody_plain hrest.sound
      (((bytesOf acc.reverse).toArray.push r.advance.byte).push b)
      (fun b' hb' => have hhigh := encode_tail hencode b' hb'
        ⟨charOf_ne hhigh (by decide), charOf_ne hhigh (by decide)⟩) hothers
    have hcontents : ((bytesOf acc.reverse).toArray.push r.advance.byte).push b ++ bs.toArray
        = (bytesOf (c :: '\\' :: acc).reverse).toArray := by
      rw [bytesOf_push_ascii acc hbyte, ← bytesOf_push ('\\' :: acc) c, hencode]
      apply Array.toList_inj.mp
      simp
    rw [stringBody_backslash h.inside hchar hescaped', if_neg (by rw [hrest.inside]; decide),
      hfirst, hbody, hcontents, Cursor.stringBody, hescaped]
    exact ih hsound ⟨hsound.advance, hinput.trans hrest.input, List.forall_mem_nil _, hlast⟩
  | case6 acc c rest hquote hlast hbackslash ih =>
    have hbackslash' : c ≠ '\\' := by
      intro hc
      cases rest with
      | nil => exact hlast hc rfl
      | cons d rest => exact hbackslash d rest hc rfl
    obtain ⟨last, hbody, hsound, hinput, hafter⟩ :=
      stringBody_plain hr (bytesOf acc.reverse).toArray
      (fun b hb => ⟨fun hq => hquote (eq_of_mem_encode (by decide) hb hq),
        fun hq => hbackslash' (eq_of_mem_encode (by decide) hb hq)⟩) h.rest
    rw [hbody, bytesOf_push, Cursor.stringBody_cons acc rest hquote hbackslash']
    exact ih hsound ⟨hsound.advance, hinput.trans h.input, List.forall_mem_nil _, hafter⟩

/-! ## Tokens

One lemma for each way in which a token can start, all of the form `ReadsAs`: the reader succeeds,
gives the token of the cursor, and is at the same place afterwards. -/

/-- A reader that has something to read reads it as a cursor does, and is at the same place then. -/
def ReadsAs (input : Array UInt8) (read : Option (Token × Reader)) (expected : Token × Cursor) :
    Prop :=
  ∃ after, read = some (expected.1, after) ∧ after.At input expected.2

/-- Where there is a character left, the position is inside of the text. -/
theorem At.position_le (h : r.At input ⟨[], c :: cs⟩) : r.position ≤ r.input.size := by
  have hin := h.inside
  rw [atEnd, decide_eq_false_iff_not] at hin
  omega

/-- A point is part of a number just if a digit follows. -/
theorem At.pointed (h : r.At input ⟨[], cs⟩) :
    (r.char = '.' && r.peek.isDigit) = true
      ↔ ∃ d tail, cs = '.' :: d :: tail ∧ d.isDigit = true := by
  have hpoint : ('.' : Char).toNat < 128 := by decide
  rw [Bool.and_eq_true, decide_eq_true_eq, h.char_eq_iff hpoint (by decide)]
  constructor
  · rintro ⟨hhead, hdigit⟩
    obtain ⟨tail, rfl⟩ := List.head?_eq_some_iff.mp hhead
    rw [show r.peek = r.advance.char from rfl,
      (h.ascii hpoint).2.2.class_char inAscii_isDigit rfl, Option.any_eq_true] at hdigit
    obtain ⟨d, hd, hdigit⟩ := hdigit
    obtain ⟨tail, rfl⟩ := List.head?_eq_some_iff.mp hd
    exact ⟨d, tail, rfl, hdigit⟩
  · rintro ⟨d, tail, rfl, hdigit⟩
    refine ⟨rfl, ?_⟩
    rw [show r.peek = r.advance.char from rfl,
      (h.ascii hpoint).2.2.class_char inAscii_isDigit rfl]
    exact hdigit

/-- A number with a point in it is cut out as a whole. -/
theorem number?_pointed {text : String}
    (htest : (r.digits.char = '.' && r.digits.peek.isDigit) = true)
    (hslice : r.digits.advance.digits.slice? r.position = some text) :
    r.number? = some (.float text, r.digits.advance.digits) := by
  rw [Reader.number?, if_pos htest]
  dsimp only
  rw [hslice]
  rfl

theorem number?_whole {text : String}
    (htest : ¬ (r.digits.char = '.' && r.digits.peek.isDigit) = true)
    (hslice : r.digits.slice? r.position = some text) :
    r.number? = some (.int text, r.digits) := by
  rw [Reader.number?, if_neg htest, hslice]
  rfl

theorem number_pointed {d : Char} {tail : List Char}
    (h : cs.dropWhile Char.isDigit = '.' :: d :: tail) (hdigit : d.isDigit = true) :
    Cursor.number cs = (.float (String.ofList
        (cs.takeWhile Char.isDigit ++ '.' :: (d :: tail).takeWhile Char.isDigit)),
      (d :: tail).dropWhile Char.isDigit) := by
  rw [Cursor.number, h]
  exact if_pos hdigit

theorem number_whole
    (h : ¬ ∃ d tail, cs.dropWhile Char.isDigit = '.' :: d :: tail ∧ d.isDigit = true) :
    Cursor.number cs
      = (.int (String.ofList (cs.takeWhile Char.isDigit)), cs.dropWhile Char.isDigit) := by
  unfold Cursor.number
  generalize cs.dropWhile Char.isDigit = more at h
  dsimp only
  split
  · rename_i d tail
    rw [if_neg fun hdigit => h ⟨d, tail, rfl, hdigit⟩]
  · rfl

/-- A run of digits is a class that is passed over. -/
theorem At.digits (h : r.At input ⟨[], cs⟩) :
    Passes r r.digits (bytesOf (cs.takeWhile Char.isDigit))
      ∧ r.digits.At input ⟨[], cs.dropWhile Char.isDigit⟩ :=
  h.pass inAscii_isDigit rfl

/-- **A number is read alike.** Whether its point belongs to it depends on the byte behind the
point, for which the reader looks one further ahead. -/
theorem At.number? (h : r.At input ⟨[], c :: cs⟩) :
    ReadsAs input r.number? ((Cursor.number (c :: cs)).1, ⟨[], (Cursor.number (c :: cs)).2⟩) := by
  obtain ⟨hwhole, hafter⟩ := h.digits
  by_cases hpointed : ∃ d tail, (c :: cs).dropWhile Char.isDigit = '.' :: d :: tail
      ∧ d.isDigit = true
  · have htest := hafter.pointed.mpr hpointed
    obtain ⟨d, tail, hdrop, hdigit⟩ := hpointed
    rw [hdrop] at hafter
    obtain ⟨-, hencode, hbehind⟩ := hafter.ascii (by decide)
    obtain ⟨hplaces, hlast⟩ := hbehind.digits
    have hrest : r.digits.rest
        = r.digits.byte :: bytesOf (d :: tail) := by
      rw [hafter.rest, List.nil_append, bytesOf_cons, hencode]
      rfl
    have hpoint := hafter.sound.passes_advance hrest
    -- the number is the digits in front of the point, the point and the digits behind it
    have hslice := (hwhole.trans (hpoint.trans hplaces)).slice?_eq h.position_le
    rw [← hencode, ← bytesOf_cons, ← bytesOf_append, text?_bytesOf] at hslice
    rw [number_pointed hdrop hdigit]
    exact ⟨_, number?_pointed htest hslice, hlast⟩
  · have hslice := hwhole.slice?_eq h.position_le
    rw [text?_bytesOf] at hslice
    rw [number_whole hpointed]
    exact ⟨_, number?_whole (mt hafter.pointed.mp hpointed) hslice, hafter⟩

/-- Apart from the equals sign, the exclamation mark and the quote, a character tells what kind of
token it starts. -/
theorem tokenAt_other (hc : c ≠ '=' ∧ c ≠ '!' ∧ c ≠ '"') : Cursor.tokenAt c cs
    = match Cursor.single? c with
      | some token => (token, ⟨[], cs⟩)
      | none =>
        if Cursor.isLetter c then
          (.ofWord (String.ofList ((c :: cs).takeWhile Cursor.isLetter)),
            ⟨[], (c :: cs).dropWhile Cursor.isLetter⟩)
        else if c.isDigit then ((Cursor.number (c :: cs)).1, ⟨[], (Cursor.number (c :: cs)).2⟩)
        else
          match String.utf8EncodeChar c with
          | [] => (.illegal c, ⟨[], cs⟩)
          | byte :: bytes => (.illegal (charOf byte), ⟨bytes, cs⟩) := by
  unfold Cursor.tokenAt
  split
  case h_6 => rfl
  case h_5 => exact absurd rfl hc.2.2
  case h_3 | h_4 => exact absurd rfl hc.2.1
  all_goals exact absurd rfl hc.1

theorem token?_other (hc : r.char ≠ '=' ∧ r.char ≠ '!' ∧ r.char ≠ '"') : r.token?
    = match Cursor.single? r.char with
      | some token => some (token, r.advance)
      | none =>
        if Cursor.isLetter r.char then do
          let word := r.pass Cursor.isLetter rfl
          return (.ofWord (← word.slice? r.position), word)
        else if r.char.isDigit then r.number?
        else some (.illegal r.char, r.advance) := by
  unfold Reader.token?
  split
  case h_4 => rfl
  case h_3 heq => exact absurd heq hc.2.2
  case h_2 heq => exact absurd heq hc.2.1
  case h_1 heq => exact absurd heq hc.1

/-- Whether an equals sign follows on a character of ASCII. -/
theorem At.peek_eq_iff (h : r.At input ⟨[], c :: cs⟩) (hc : c.toNat < 128) :
    r.peek = '=' ↔ cs.head? = some '=' :=
  (h.ascii hc).2.2.char_eq_iff (by decide) (by decide)

/-- A character that an equals sign makes another operator. -/
theorem At.operator (h : r.At input ⟨[], c :: cs⟩) (hc : c.toNat < 128) {single double : Token}
    (hread : r.token?
      = if r.peek = '=' then some (double, r.advance.advance) else some (single, r.advance))
    (hdouble : ∀ tail, Cursor.tokenAt c ('=' :: tail) = (double, ⟨[], tail⟩))
    (hsingle : cs.head? ≠ some '=' → Cursor.tokenAt c cs = (single, ⟨[], cs⟩)) :
    ReadsAs input r.token? (Cursor.tokenAt c cs) := by
  have hnext := (h.ascii hc).2.2
  by_cases hpeek : r.peek = '='
  · rw [hread, if_pos hpeek]
    obtain ⟨tail, rfl⟩ := List.head?_eq_some_iff.mp ((h.peek_eq_iff hc).mp hpeek)
    rw [hdouble]
    exact ⟨_, rfl, (hnext.ascii (by decide)).2.2⟩
  · rw [hread, if_neg hpeek, hsingle (mt (h.peek_eq_iff hc).mpr hpeek)]
    exact ⟨_, rfl, hnext⟩

/-- A byte above ASCII is refused. -/
theorem token?_high (hchar : r.char = charOf b) (hb : 128 ≤ b.toNat) :
    r.token? = some (.illegal (charOf b), r.advance) := by
  have hsingle : Cursor.single? (charOf b) = none :=
    Option.not_isSome_iff_eq_none.mp (by rw [inAscii_single?.high hb]; exact Bool.noConfusion)
  have hne := fun {a : Char} => charOf_ne hb (a := a)
  rw [token?_other (by rw [hchar]; exact ⟨hne (by decide), hne (by decide), hne (by decide)⟩),
    hchar, hsingle, inAscii_isLetter.high hb, inAscii_isDigit.high hb]
  rfl

/-- A character outside of ASCII is refused, starting with its first byte. -/
theorem tokenAt_high (hc : 128 ≤ c.toNat) (hencode : String.utf8EncodeChar c = b :: bs) :
    Cursor.tokenAt c cs = (.illegal (charOf b), ⟨bs, cs⟩) := by
  have hout : ∀ {p : Char → Bool}, InAscii p → p c = false := fun hp =>
    Bool.eq_false_iff.mpr fun h => absurd (hp c h) (Nat.not_lt_of_le hc)
  have hsingle : Cursor.single? c = none :=
    Option.not_isSome_iff_eq_none.mp (by rw [hout inAscii_single?]; exact Bool.noConfusion)
  have hne : ∀ {a : Char}, a.toNat < 128 → c ≠ a := by
    rintro a ha rfl
    exact absurd hc (Nat.not_le_of_lt ha)
  rw [tokenAt_other ⟨hne (by decide), hne (by decide), hne (by decide)⟩, hsingle,
    hout inAscii_isLetter, hout inAscii_isDigit, hencode]
  rfl

/-- **The token that starts with a character is read alike.** The characters with branches of their
own come first; for all others it is a question of classes, or of a character outside of ASCII, of
which both refuse the first byte. -/
theorem At.token? (h : r.At input ⟨[], c :: cs⟩) :
    ReadsAs input r.token? (Cursor.tokenAt c cs) := by
  by_cases hassign : c = '='
  · subst hassign
    refine h.operator (by decide) ?_ (fun _ => rfl) Cursor.tokenAt_assign
    rw [Reader.token?, (h.ascii (by decide)).1]
    rfl
  by_cases hbang : c = '!'
  · subst hbang
    refine h.operator (by decide) ?_ (fun _ => rfl) Cursor.tokenAt_bang
    rw [Reader.token?, (h.ascii (by decide)).1]
    rfl
  by_cases hquote : c = '"'
  · subst hquote
    obtain ⟨hchar, -, hnext⟩ := h.ascii (by decide)
    obtain ⟨close, hbody, hclose⟩ := stringBody_eq [] cs h.sound hnext
    refine ⟨close.advance, ?_, hclose⟩
    rw [Reader.token?, hchar]
    dsimp only
    -- both collect the string from the empty one, as bytes and as characters
    rw [show (#[] : Array UInt8) = (bytesOf [].reverse).toArray from rfl, hbody]
    dsimp only
    rw [text?_bytesOf]
    rfl
  rcases Nat.lt_or_ge c.toNat 128 with hc | hc
  -- one byte, equal to the character
  · obtain ⟨hchar, hencode, hnext⟩ := h.ascii hc
    rw [tokenAt_other ⟨hassign, hbang, hquote⟩, hencode,
      token?_other (by rw [hchar]; exact ⟨hassign, hbang, hquote⟩), hchar]
    cases Cursor.single? c with
    | some token => exact ⟨_, rfl, hnext⟩
    | none =>
      dsimp only
      split
      · obtain ⟨hword, hafter⟩ := h.pass inAscii_isLetter rfl
        have hslice := hword.slice?_eq h.position_le
        rw [text?_bytesOf] at hslice
        rw [hslice]
        exact ⟨_, rfl, hafter⟩
      · split
        · exact h.number?
        · refine ⟨_, ?_, hnext⟩
          rw [← hchar, char]
  -- several bytes, of which the first is too large for any class of characters
  · obtain ⟨b, bs, hencode⟩ := encode_cons c
    have hrest : r.rest = b :: (bs ++ bytesOf cs) := by
      rw [h.rest, List.nil_append, bytesOf_cons, hencode]
      rfl
    have hchar : r.char = charOf b := by
      rw [h.sound.char_eq, hrest]
      rfl
    have hb : 128 ≤ b.toNat := encode_high hc b (hencode ▸ List.mem_cons_self)
    rw [tokenAt_high hc hencode, token?_high hchar hb]
    exact ⟨_, rfl, h.advance (encode_tail hencode) (by rw [hrest]; rfl)⟩

/-! ## Whole texts

From one token to the next, and from there to any number of calls. At the end of the text both
answer with the end and stay where they are. -/

/-- **The next token is read alike.** Blanks are a class, so both pass over the same ones; a pending
byte is refused by both. -/
theorem At.next? (h : r.At input cursor) : ReadsAs input r.next? cursor.next := by
  obtain ⟨pending, cs⟩ := cursor
  cases pending with
  | nil =>
    obtain ⟨-, hstart⟩ := h.pass inAscii_isBlank rfl
    unfold Reader.next? Cursor.next
    dsimp only
    cases hskip : cs.dropWhile Cursor.isBlank with
    | nil =>
      rw [hskip] at hstart
      rw [if_pos (hstart.atEnd_iff.mpr rfl)]
      exact ⟨_, rfl, hstart⟩
    | cons c cs =>
      rw [hskip] at hstart
      rw [if_neg (by rw [hstart.inside]; decide)]
      exact hstart.token?
  | cons b bs =>
    have hb := h.pending b List.mem_cons_self
    have hrest : r.rest = b :: (bs ++ bytesOf cs) := h.rest
    have hchar : r.char = charOf b := by
      rw [h.sound.char_eq, hrest]
      rfl
    -- no blank is above ASCII
    have hstart : r.pass Cursor.isBlank rfl = r :=
      pass_stop (by rw [hchar, inAscii_isBlank.high hb]; decide)
    have hin : ¬ r.atEnd = true := by
      rw [Reader.atEnd_iff, hrest]
      exact List.cons_ne_nil _ _
    refine ⟨r.advance, ?_, h.advance (fun b' hb' => h.pending b' (List.mem_cons_of_mem b hb'))
      (by rw [hrest]; rfl)⟩
    unfold Reader.next?
    rw [hstart, if_neg hin, token?_high hchar hb]
    rfl

/-- So many calls in a row, by induction on their number. -/
theorem At.after? (h : r.At input cursor) (count : Nat) :
    ∃ r', r.after? count = some r' ∧ r'.At input (cursor.skip count) := by
  induction count generalizing r cursor with
  | zero => exact ⟨r, rfl, h⟩
  | succ count ih =>
    obtain ⟨after, hnext, hafter⟩ := h.next?
    obtain ⟨r', hskip, hr'⟩ := ih hafter
    refine ⟨r', ?_, hr'⟩
    rw [Reader.after?, hnext]
    exact hskip

/-- **Every text is read to its end.** So many calls give a token each, the tokens of the text first
and then the end of the text for ever. A token takes at least one byte, and the end is found only
when no byte is left. The positions stay within one byte behind the end. -/
theorem reads_to_end (source : String) :
    (Token.scan source).length ≤ source.utf8ByteSize ∧ (∀ t ∈ Token.scan source, t ≠ .eof)
      ∧ ∀ count, ∃ r token after,
        (ofString source).after? count = some r ∧ r.next? = some (token, after)
          ∧ token = (Token.scan source).getD count .eof
          ∧ (token ≠ .eof → after.left < r.left) ∧ (token = .eof → after.left = 0)
          ∧ r.position ≤ r.following ∧ r.following ≤ source.utf8ByteSize + 1 := by
  have hbytes : (Cursor.ofString source).remaining = source.utf8ByteSize := by
    rw [← (at_ofString source).left_eq]
    rfl
  refine ⟨?_, fun t ht => (Token.mem_scan ht).1, fun count => ?_⟩
  · have hsize := Cursor.size_tokensFrom_le (.ofString source) #[]
    rw [hbytes] at hsize
    simpa [Token.scan] using hsize
  · obtain ⟨r, hskip, hr⟩ := (at_ofString source).after? count
    obtain ⟨after, hnext, hafter⟩ := hr.next?
    refine ⟨r, _, after, hskip, hnext, Cursor.token_skip source count, fun hmore => ?_,
      fun hend => ?_, ?_, ?_⟩
    · rw [hafter.left_eq, hr.left_eq]
      exact Cursor.remaining_next_lt hmore
    · rw [hafter.left_eq, Cursor.next_of_eof hend]
      rfl
    -- the positions of a sound reader, which stops one byte behind its input
    all_goals
      have hposition := hr.sound.position_le
      have hfollowing := hr.sound.following
      rw [hr.input] at hposition hfollowing
      have hsize : source.toUTF8.data.size = source.utf8ByteSize := rfl
      omega

/-- A byte zero is a token, and a quote at the end of the text starts a string. -/
example : Token.scan "a\x00\"" = [.ident "a", .illegal '\x00', .str ""] := by decide +kernel

end Scriptlet.Reader
