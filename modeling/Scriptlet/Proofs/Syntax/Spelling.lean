import Scriptlet.Proofs.Syntax.Words

/-!
# Tokens and their spellings

Reading undoes spelling. Tokens that are written one behind the other, with blanks between them, are
read back as they are, whatever the blanks, and behind them the text ends (`Token.scan_spaced`). The
blanks are needed: a word goes on through letters and a number through digits and a point, and an
equals sign makes another operator of `=` and `!`. So each token is read as itself as long as a
blank or the end of the text follows it (`spells_token`).
-/

namespace Scriptlet

/-! ## Calls

A cursor is asked for one token after the other. `take` is the list of the answers and `skip` the
cursor behind them; `take_tokensFrom` ties them to the tokens of a whole text, after which every
further call finds the end again. -/

namespace Cursor

/-- The tokens that so many calls give, one after the other. -/
def take : (count : Nat) → Cursor → List Token
  | 0, _ => []
  | count + 1, cursor => cursor.next.1 :: take count cursor.next.2

/-- The position behind so many tokens. -/
def skip : (count : Nat) → Cursor → Cursor
  | 0, cursor => cursor
  | count + 1, cursor => skip count cursor.next.2

theorem getElem?_take {i count : Nat} (h : i < count) (cursor : Cursor) :
    (take count cursor)[i]? = some (skip i cursor).next.1 := by
  induction count generalizing i cursor with
  | zero => exact absurd h (Nat.not_lt_zero i)
  | succ count ih =>
    cases i with
    | zero => rfl
    | succ i => exact ih (Nat.lt_of_succ_lt_succ h) cursor.next.2

/-- Where there is a character, there is a token that is not the end of the text, even if the
character is refused. -/
theorem tokenAt_ne_eof (c : Char) (rest : List Char) : (tokenAt c rest).1 ≠ .eof := by
  unfold tokenAt
  split
  case h_6 =>
    split
    · rename_i hsingle
      unfold single? at hsingle
      split at hsingle
      all_goals first | cases hsingle; exact Token.noConfusion | cases hsingle
    · split
      · unfold Token.ofWord
        dsimp only
        split
        all_goals exact Token.noConfusion
      · split
        · show (number (c :: rest)).1 ≠ .eof
          rcases number_cases (c :: rest) with ⟨digits, hdigits⟩ | ⟨digits, hdigits⟩
          all_goals
            rw [hdigits]
            exact Token.noConfusion
        · split
          all_goals exact Token.noConfusion
  all_goals exact Token.noConfusion

/-- The end of the text is found only where nothing is left, and stays. -/
theorem next_of_eof {cursor : Cursor} (h : cursor.next.1 = .eof) : cursor.next.2 = ⟨[], []⟩ := by
  revert h
  unfold next
  split
  · exact fun h => Token.noConfusion h
  · split
    · exact fun _ => rfl
    · rename_i c rest _
      exact fun h => absurd h (tokenAt_ne_eof c rest)

theorem take_end (count : Nat) : take count ⟨[], []⟩ = List.replicate count .eof := by
  induction count with
  | zero => rfl
  | succ count ih =>
    have hnext : next ⟨[], []⟩ = (.eof, ⟨[], []⟩) := rfl
    rw [take, hnext, ih, List.replicate_succ]

/-- **What is read to the end of the text is what the calls give**, up to the first that finds the
end of the text, as all calls behind it do. Induction on the calls of `tokensFrom`; at the end of
the text the cursor has nothing left, so it answers the same ever after. -/
theorem take_tokensFrom (cursor : Cursor) (acc : Array Token) :
    ∃ ts : List Token, tokensFrom cursor acc = acc ++ ts
      ∧ ∀ count, take (ts.length + count) cursor = ts ++ List.replicate count .eof := by
  induction cursor, acc using tokensFrom.induct with
  | case1 cursor acc after hnext =>
    refine ⟨[], ?_, fun count => ?_⟩
    · rw [tokensFrom_eq, hnext, if_pos rfl, Array.appendList_nil]
    · have hafter := next_of_eof (congrArg Prod.fst hnext)
      rw [hnext] at hafter
      cases count with
      | zero => rfl
      | succ count =>
        show take (0 + count + 1) cursor = _
        rw [take, hnext, hafter, take_end, Nat.zero_add, List.nil_append, List.replicate_succ]
  | case2 cursor acc token after hnext hmore ih =>
    obtain ⟨ts, hts, htake⟩ := ih
    refine ⟨token :: ts, ?_, fun count => ?_⟩
    · rw [tokensFrom_eq, hnext, if_neg hmore, hts, Array.appendList_cons]
    · rw [List.length_cons, Nat.add_right_comm, take, hnext, htake, List.cons_append]

end Cursor

/-- The calls on a text give its tokens and then the end of the text, again and again. -/
theorem Token.take_scan (source : String) (count : Nat) :
    (Cursor.ofString source).take ((Token.scan source).length + count)
      = Token.scan source ++ List.replicate count .eof := by
  obtain ⟨ts, hts, htake⟩ := Cursor.take_tokensFrom (.ofString source) #[]
  have hscan : Token.scan source = ts := by
    rw [Token.scan, hts]
    simp
  rw [hscan, htake]

/-- The token of a single call, by its number. Past the last token of the text it is the end. -/
theorem Cursor.token_skip (source : String) (count : Nat) :
    (skip count (.ofString source)).next.1 = (Token.scan source).getD count .eof := by
  have hmore : count < (Token.scan source).length + (count + 1) := by omega
  have htoken := getElem?_take hmore (.ofString source)
  rw [Token.take_scan, List.getElem?_append] at htoken
  rw [List.getD_eq_getElem?_getD]
  split at htoken
  · rw [htoken]
    rfl
  · rename_i hbehind
    rw [List.getElem?_replicate_of_lt (by omega)] at htoken
    rw [List.getElem?_eq_none (Nat.le_of_not_lt hbehind)]
    exact (Option.some.inj htoken).symm

/-! ## Spellings

What a token looks like in a text, and which tokens have a look at all. A float is spelled by two
runs of digits with a point in between, both of which have to be there. The illegal token and the
end of the text have no spelling. -/

open Cursor

/-- A run of digits. -/
structure IsDigits (digits : String) : Prop where
  nonempty : digits.toList ≠ []
  digits : ∀ c ∈ digits.toList, c.isDigit = true

/-- A token that a text can hold, by its payload. -/
def Token.Spellable : Token → Prop
  | .illegal _ | .eof => False
  | .ident name => IsName name
  | .int digits => IsDigits digits
  | .float digits =>
    ∃ whole places, IsDigits whole ∧ IsDigits places ∧ digits = whole ++ "." ++ places
  | _ => True

/-- How a token is written: a string as a literal with escapes, any other by its text. -/
def Token.spelling : Token → String
  | .str text => quoted text
  | other => other.text

/-- The text of tokens, each with what stands in front of it. -/
def Token.spaced : List (String × Token) → String
  | [] => ""
  | (gap, token) :: rest => gap ++ token.spelling ++ Token.spaced rest

/-- A text of blanks. -/
def IsBlanks (text : String) : Prop :=
  ∀ c ∈ text.toList, isBlank c = true

namespace Cursor

/-- What may follow any token: the end of the text, or a blank. `Parted` from the rendering of
programs is weaker, since punctuation also parts two words; but punctuation may run together with
the token in front of it, and a blank never does. -/
def Spaced (cs : List Char) : Prop :=
  ∀ c ∈ cs.head?, isBlank c = true

theorem isBlank_cases {c : Char} (h : isBlank c = true) :
    c = ' ' ∨ c = '\t' ∨ c = '\n' ∨ c = '\r' := by
  unfold isBlank at h
  simpa [or_assoc] using h

theorem Spaced.parted {cs : List Char} (h : Spaced cs) : Parted cs := by
  intro c hc
  rcases isBlank_cases (h c hc) with rfl | rfl | rfl | rfl
  all_goals decide

theorem Spaced.head?_ne {cs : List Char} (h : Spaced cs) : cs.head? ≠ some '=' :=
  fun heq => absurd (h '=' heq) (by decide)

/-- Blanks are passed over. -/
theorem lexes_blanks {gap : List Char} (h : ∀ c ∈ gap, isBlank c = true) (cs : List Char) :
    Lexes (gap ++ cs) [] cs := by
  intro acc
  have hnext : next ⟨[], gap ++ cs⟩ = next ⟨[], cs⟩ := by
    unfold next
    dsimp only
    rw [List.dropWhile_append_of_pos h]
  rw [Array.appendList_nil, tokensFrom_eq, hnext, ← tokensFrom_eq]

/-- **Digits, a point and digits are read as a whole**, up to where neither a digit nor a letter
goes on. The first run ends at the point, which is taken because a digit stands behind it. -/
theorem next_float {whole places rest : List Char} (hwhole : whole ≠ [])
    (hdigits : ∀ c ∈ whole, c.isDigit = true) (hplaces : places ≠ [])
    (hdigits' : ∀ c ∈ places, c.isDigit = true) (hrest : Parted rest) :
    next ⟨[], whole ++ '.' :: (places ++ rest)⟩
      = (.float (String.ofList (whole ++ '.' :: places)), ⟨[], rest⟩) := by
  -- the digits end at the point, and the places at the rest
  have hpoint : ∀ c ∈ ('.' :: (places ++ rest)).head?, c.isDigit = false := by
    rintro c ⟨⟩
    rfl
  obtain ⟨htake, hdrop⟩ := span_append hdigits hpoint
  obtain ⟨htake', hdrop'⟩ := span_append hdigits' fun c hc => (hrest.head c hc).2.1
  have hnumber : number (whole ++ '.' :: (places ++ rest))
      = (.float (String.ofList (whole ++ '.' :: places)), rest) := by
    obtain ⟨d, tail, rfl⟩ := List.exists_cons_of_ne_nil hplaces
    unfold number
    rw [htake, hdrop]
    rw [List.cons_append] at htake' hdrop' ⊢
    split
    · rename_i heq
      cases heq
      rw [if_pos (hdigits' d List.mem_cons_self), htake', hdrop']
    · rename_i hnone
      exact absurd rfl (hnone d (tail ++ rest))
  obtain ⟨c, tail, rfl⟩ := List.exists_cons_of_ne_nil hwhole
  have hc := hdigits c List.mem_cons_self
  rw [List.cons_append] at hnumber ⊢
  rw [next_cons _ (not_blank hc (by decide)), tokenAt_digit _ hc, hnumber]

end Cursor

section Spells

variable {text : String} {ts : List Token}

/-- What is read as a word before punctuation is so before a blank. -/
theorem Spells.spaced (h : Spells Parted text ts) : Spells Spaced text ts :=
  fun rest hrest => h rest hrest.parted

theorem IsDigits.spells {digits : String} (h : IsDigits digits) :
    Spells Parted digits [.int digits] := by
  intro rest hrest
  have hnext := next_digits h.nonempty h.digits hrest
  rw [String.ofList_toList] at hnext
  exact .token hnext Token.noConfusion (.refl rest)

theorem spells_float {whole places : String} (hwhole : IsDigits whole) (hplaces : IsDigits places) :
    Spells Parted (whole ++ "." ++ places) [.float (whole ++ "." ++ places)] := by
  intro rest hrest
  have hnext := next_float hwhole.nonempty hwhole.digits hplaces.nonempty hplaces.digits hrest
  have htext : (whole ++ "." ++ places).toList = whole.toList ++ '.' :: places.toList := by
    simp
  rw [← htext, String.ofList_toList] at hnext
  rw [htext, List.append_assoc, List.cons_append]
  exact .token hnext Token.noConfusion (.refl rest)

/-- An equals sign, unless a second one makes it another operator. -/
theorem spells_assign : Spells (fun rest => rest.head? ≠ some '=') Token.assign.text [.assign] :=
  fun rest hrest => .token (tokenAt_assign hrest) Token.noConfusion (.refl rest)

/-- **A token is read as itself where a blank or the end of the text follows it.** By cases on the
token: words, numbers and strings have their own lemmas, the two characters that an equals sign
would change are where the blank is needed, and all the others are read from a fixed text. -/
theorem spells_token {token : Token} (h : token.Spellable) :
    Spells Spaced token.spelling [token] := by
  cases token with
  | illegal | eof => exact absurd h id
  | ident name => exact h.spells.spaced
  | int digits => exact h.spells.spaced
  | float digits =>
    obtain ⟨whole, places, hwhole, hplaces, rfl⟩ := h
    exact (spells_float hwhole hplaces).spaced
  | str text => exact (spells_quoted text).parted.spaced
  | assign => exact fun rest hrest => spells_assign rest hrest.head?_ne
  | bang => exact fun rest hrest => spells_bang rest hrest.head?_ne
  | eq | notEq | plus | minus | asterisk | slash | lt | gt | comma | semicolon | colon | lparen
    | rparen | lbrace | rbrace | lbracket | rbracket =>
    exact fun rest _ => .token rfl Token.noConfusion (.refl rest)
  | function | letKw | trueKw | falseKw | ifKw | elseKw | returnKw | forKw | breakKw | continueKw =>
    exact Spells.spaced (spells_word (by decide) (by decide) (by decide))

/-- **Tokens with blanks between them are read one after the other.** Induction on the list. The gap
in front of the first token may be empty, every other one is not; so what follows each token is a
blank or the end. -/
theorem spells_spaced {tokens : List (String × Token)} (htokens : ∀ p ∈ tokens, p.2.Spellable)
    (hblanks : ∀ p ∈ tokens, IsBlanks p.1) (hgaps : ∀ p ∈ tokens.tail, p.1 ≠ "") :
    Spells Spaced (Token.spaced tokens) (tokens.map Prod.snd) := by
  induction tokens with
  | nil => exact spells_empty
  | cons p rest ih =>
    obtain ⟨gap, token⟩ := p
    have hgap : Spells Anything gap [] := fun cs _ =>
      lexes_blanks (hblanks _ List.mem_cons_self) cs
    have htoken := hgap.then (spells_token (htokens _ List.mem_cons_self))
    have hrest := ih (fun p hp => htokens p (List.mem_cons_of_mem _ hp))
      (fun p hp => hblanks p (List.mem_cons_of_mem _ hp))
      fun p hp => hgaps p (List.mem_of_mem_tail hp)
    refine htoken.append hrest fun cs hcs => ?_
    -- what follows the token is the gap in front of the next one, if there is one
    cases rest with
    | nil => exact hcs
    | cons p rest =>
      obtain ⟨gap', token'⟩ := p
      obtain ⟨c, blanks, hgap'⟩ := List.exists_cons_of_ne_nil
        (mt String.toList_eq_nil_iff.mp (hgaps (gap', token') List.mem_cons_self))
      intro d hd
      rw [Token.spaced, String.toList_append, String.toList_append, hgap'] at hd
      obtain rfl := Option.some.inj hd
      refine hblanks (gap', token') (List.mem_cons_of_mem _ List.mem_cons_self) c ?_
      rw [hgap']
      exact List.mem_cons_self

end Spells

/-- **Tokens that are written with blanks between them are read back, and behind them the text
ends.** Blanks may stand in front of the first token and behind the last one too. The second half
says the same of the single calls: so many give a token each, and all further ones find the end of
the text. -/
theorem Token.scan_spaced {tokens : List (String × Token)} {trail : String}
    (htokens : ∀ p ∈ tokens, p.2.Spellable) (hblanks : ∀ p ∈ tokens, IsBlanks p.1)
    (hgaps : ∀ p ∈ tokens.tail, p.1 ≠ "") (htrail : IsBlanks trail) (count : Nat) :
    Token.scan (Token.spaced tokens ++ trail) = tokens.map Prod.snd
      ∧ (Cursor.ofString (Token.spaced tokens ++ trail)).take (tokens.length + count)
        = tokens.map Prod.snd ++ List.replicate count .eof := by
  have htrailing : Spaced trail.toList := fun c hc => htrail c (List.mem_of_mem_head? hc)
  have htokens := spells_spaced htokens hblanks hgaps trail.toList htrailing
  have hend := lexes_blanks htrail []
  rw [List.append_nil] at hend
  have hlexes := htokens.trans hend
  rw [← String.toList_append, List.append_nil] at hlexes
  have hscan := Token.scan_of_lexes hlexes
  have htake := Token.take_scan (Token.spaced tokens ++ trail) count
  rw [hscan, List.length_map] at htake
  exact ⟨hscan, htake⟩

/-- Operators that would run together, a point, escapes and a keyword in front of a longer word. -/
theorem Token.scan_spaced_adjacent :
    Token.scan "==\t= =\r\n! 1 1.50\n\"a\\\"\\\\é\x00\" let lets "
      = [.eq, .assign, .assign, .bang, .int "1", .float "1.50", .str "a\"\\é\x00", .letKw,
        .ident "lets"] := by
  let tokens : List (String × Token) :=
    [("", .eq), ("\t", .assign), (" ", .assign), ("\r\n", .bang), (" ", .int "1"),
      (" ", .float "1.50"), ("\n", .str "a\"\\é\x00"), (" ", .letKw), (" ", .ident "lets")]
  have hone : IsDigits "1" := ⟨by decide, List.all_eq_true.mp (by decide)⟩
  have hfifty : IsDigits "50" := ⟨by decide, List.all_eq_true.mp (by decide)⟩
  have htokens : ∀ p ∈ tokens, p.2.Spellable := by
    simp only [tokens, List.forall_mem_cons]
    refine ⟨trivial, trivial, trivial, trivial, hone, ⟨"1", "50", hone, hfifty, rfl⟩, trivial,
      trivial, ⟨List.all_eq_true.mp (by decide), by decide, rfl⟩, nofun⟩
  have hall : tokens.all (fun p => p.1.toList.all Cursor.isBlank) = true := by decide
  have hblanks : ∀ p ∈ tokens, IsBlanks p.1 := fun p hp =>
    List.all_eq_true.mp (List.all_eq_true.mp hall p hp)
  have htrail : IsBlanks " " := List.all_eq_true.mp (by decide)
  have hquoted : quoted "a\"\\é\x00" = "\"a\\\"\\\\é\x00\"" := by
    rw [← String.toList_inj, toList_quoted]
    decide +kernel
  have htext : Token.spaced tokens ++ " "
      = "==\t= =\r\n! 1 1.50\n\"a\\\"\\\\é\x00\" let lets " := by
    simp only [tokens, Token.spaced, Token.spelling, hquoted]
    decide +kernel
  rw [← htext]
  exact (Token.scan_spaced htokens hblanks (by decide) htrail 0).1

end Scriptlet
