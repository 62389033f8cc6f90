import Scriptlet.Token.Reader

/-!
# The bytes of characters

A character of ASCII is one byte, and all bytes of another character are above ASCII. So a class of
ASCII characters cuts the bytes of a text where it cuts its characters (`takeWhile_bytesOf`), and
whatever is cut out of the bytes of a text along its characters is a text again (`text?_bytesOf`).
-/

namespace Scriptlet.Reader

/-- The bytes of some characters. -/
def bytesOf (cs : List Char) : List UInt8 :=
  cs.flatMap String.utf8EncodeChar

@[simp] theorem bytesOf_nil : bytesOf [] = [] := rfl

@[simp] theorem bytesOf_cons (c : Char) (cs : List Char) :
    bytesOf (c :: cs) = String.utf8EncodeChar c ++ bytesOf cs := rfl

@[simp] theorem bytesOf_append (cs ds : List Char) :
    bytesOf (cs ++ ds) = bytesOf cs ++ bytesOf ds :=
  List.flatMap_append

theorem length_bytesOf (cs : List Char) : (bytesOf cs).length = Cursor.byteCount cs := by
  induction cs with
  | nil => rfl
  | cons c cs ih =>
    rw [bytesOf_cons, List.length_append, String.length_utf8EncodeChar, ih, Cursor.byteCount]

/-- The bytes of a text are those of its characters. -/
theorem toUTF8_eq (source : String) : source.toUTF8.data.toList = bytesOf source.toList := by
  rw [String.toUTF8_eq_toByteArray, ← String.utf8Encode_toList, List.utf8Encode,
    List.toList_data_toByteArray, bytesOf]

/-- The bytes of characters are a text. -/
theorem text?_bytesOf (cs : List Char) : text? (bytesOf cs).toArray = some (String.ofList cs) := by
  have hbytes : (⟨(bytesOf cs).toArray⟩ : ByteArray) = (String.ofList cs).toByteArray := by
    rw [String.toByteArray_ofList, List.utf8Encode]
    apply ByteArray.ext
    rw [List.data_toByteArray]
    rfl
  rw [text?, hbytes, String.fromUTF8?, dif_pos (String.isValidUTF8 _)]
  rfl

/-! ## Single characters

The encoding of characters in UTF-8, as far as it is needed: whether a byte is a whole character or
a part of one is seen from its highest bit. So no byte in the middle of a character can be taken for
a character of ASCII. -/

theorem toNat_charOf (b : UInt8) : (charOf b).toNat = b.toNat := by
  have hlt := b.toNat_lt
  have hvalid : b.toNat.isValidChar := .inl (Nat.lt_trans hlt (by decide))
  rw [charOf, Char.ofNat, dif_pos hvalid]
  rfl

/-- A character of ASCII is the byte of its number. -/
theorem encode_ascii {c : Char} (h : c.toNat < 128) :
    ∃ b, String.utf8EncodeChar c = [b] ∧ charOf b = c := by
  refine ⟨UInt8.ofNat c.toNat, ?_, ?_⟩
  · rw [String.utf8EncodeChar]
    exact if_pos (Nat.le_of_lt_succ h)
  · rw [charOf, UInt8.toNat_ofNat_of_lt' (Nat.lt_trans h (by decide)), Char.ofNat_toNat]

/-- The bytes of any other character are above ASCII. The three cases are the three lengths of such
a character; in each the highest bits of every byte are set. -/
theorem encode_high {c : Char} (h : 128 ≤ c.toNat) :
    ∀ b ∈ String.utf8EncodeChar c, 128 ≤ b.toNat := by
  -- each byte is a number of a few bits with its highest bits set
  have hmod : ∀ n k m : Nat, 0 < m → m + k ≤ 256 → 128 ≤ k →
      128 ≤ (UInt8.ofNat (n % m + k)).toNat := by
    intro n k m hm hfits hk
    have hlt := Nat.mod_lt n hm
    rw [UInt8.toNat_ofNat_of_lt' (show n % m + k < 256 by omega)]
    omega
  have hlarge : ¬ c.val.toNat ≤ 127 := Nat.not_le_of_lt h
  intro b hb
  simp only [String.utf8EncodeChar, if_neg hlarge] at hb
  split at hb
  · simp only [List.mem_cons, List.not_mem_nil, or_false] at hb
    rcases hb with rfl | rfl
    all_goals exact hmod _ _ _ (by decide) (by decide) (by decide)
  · split at hb
    all_goals
      simp only [List.mem_cons, List.not_mem_nil, or_false] at hb
      rcases hb with rfl | rfl | rfl | rfl
      all_goals exact hmod _ _ _ (by decide) (by decide) (by decide)

/-- There is a byte at the start of a character. -/
theorem encode_cons (c : Char) : ∃ b bs, String.utf8EncodeChar c = b :: bs :=
  List.exists_cons_of_ne_nil String.utf8EncodeChar_ne_nil

/-- Behind the first byte of a character there are only bytes above ASCII. -/
theorem encode_tail {c : Char} {b : UInt8} {bs : List UInt8}
    (h : String.utf8EncodeChar c = b :: bs) : ∀ b' ∈ bs, 128 ≤ b'.toNat := by
  intro b' hb'
  rcases Nat.lt_or_ge c.toNat 128 with hc | hc
  · obtain ⟨b'', hb'', -⟩ := encode_ascii hc
    obtain ⟨-, rfl⟩ := List.cons.inj (hb''.symm.trans h)
    cases hb'
  · exact encode_high hc b' (h ▸ List.mem_cons_of_mem b hb')

/-- A character of ASCII is found in its own bytes alone. -/
theorem eq_of_mem_encode {c a : Char} (ha : a.toNat < 128) {b : UInt8}
    (hb : b ∈ String.utf8EncodeChar c) (h : charOf b = a) : c = a := by
  rcases Nat.lt_or_ge c.toNat 128 with hc | hc
  · obtain ⟨b', hb', rfl⟩ := encode_ascii hc
    rw [hb', List.mem_singleton] at hb
    rw [← h, hb]
  · have hhigh := encode_high hc b hb
    rw [← toNat_charOf, h] at hhigh
    omega

/-! ## Classes of characters

The lexer asks whether a character belongs to a class (letters, digits, blanks, punctuation), and
all classes are in ASCII. For such a class it makes no difference whether bytes or characters are
tested. -/

/-- All characters of a class are in ASCII. -/
def InAscii (p : Char → Bool) : Prop :=
  ∀ c, p c = true → c.toNat < 128

section

variable {p : Char → Bool}

/-- No byte above ASCII belongs to a class. -/
theorem InAscii.high (h : InAscii p) {b : UInt8} (hb : 128 ≤ b.toNat) : p (charOf b) = false := by
  rw [Bool.eq_false_iff]
  intro hp
  have hlt := h _ hp
  rw [toNat_charOf] at hlt
  omega

/-- **A class cuts off the same part of a text, by its bytes and by its characters.** Induction on
the characters: one of ASCII is a single byte, and any other ends the run with its first byte. -/
theorem takeWhile_bytesOf (h : InAscii p) (cs : List Char) :
    (bytesOf cs).takeWhile (fun b => p (charOf b)) = bytesOf (cs.takeWhile p) := by
  induction cs with
  | nil => rfl
  | cons c cs ih =>
    rcases Nat.lt_or_ge c.toNat 128 with hc | hc
    · obtain ⟨b, hb, rfl⟩ := encode_ascii hc
      rw [bytesOf_cons, hb, List.singleton_append, List.takeWhile_cons, List.takeWhile_cons, ih]
      split
      · rw [bytesOf_cons, hb, List.singleton_append]
      · rfl
    · obtain ⟨b, bs, hb⟩ := encode_cons c
      have hhigh := encode_high hc b (hb ▸ List.mem_cons_self)
      have hout : p c = false := Bool.eq_false_iff.mpr fun hp => absurd (h c hp) (by omega)
      rw [bytesOf_cons, hb, List.cons_append, List.takeWhile_cons, h.high hhigh,
        List.takeWhile_cons, hout]
      rfl

theorem dropWhile_bytesOf (h : InAscii p) (cs : List Char) :
    (bytesOf cs).dropWhile (fun b => p (charOf b)) = bytesOf (cs.dropWhile p) := by
  have hbytes := List.takeWhile_append_dropWhile (p := fun b => p (charOf b)) (l := bytesOf cs)
  have hchars := congrArg bytesOf (List.takeWhile_append_dropWhile (p := p) (l := cs))
  rw [bytesOf_append, ← hbytes, takeWhile_bytesOf h] at hchars
  exact (List.append_cancel_left hchars).symm

end

/-- The first byte of a text belongs to a class just if its first character does. -/
theorem class_head {p : Char → Bool} (h : InAscii p) (hzero : p '\x00' = false) (cs : List Char) :
    p (charOf ((bytesOf cs).headD 0)) = cs.head?.any p := by
  cases cs with
  | nil => exact hzero
  | cons c cs =>
    rw [List.head?_cons, Option.any_some]
    rcases Nat.lt_or_ge c.toNat 128 with hc | hc
    · obtain ⟨b, hb, rfl⟩ := encode_ascii hc
      rw [bytesOf_cons, hb]
      rfl
    · obtain ⟨b, bs, hb⟩ := encode_cons c
      have hhigh := encode_high hc b (hb ▸ List.mem_cons_self)
      have hout : p c = false := Bool.eq_false_iff.mpr fun hp => absurd (h c hp) (by omega)
      rw [bytesOf_cons, hb, List.cons_append, List.headD_cons, h.high hhigh, hout]

end Scriptlet.Reader
