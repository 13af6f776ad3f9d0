import DotLang.Token
import DotLang.Token.Gap
/-!
# Reading one token

Each reader takes the text ahead and gives what it read and the rest.  A quoted
string keeps its backslashes, but for the one before a double quote and the one
before the end of a line.  Strings joined by plus signs are one token, and gaps
may stand around the signs.

`readToken_length` says that a token other than the end takes at least one
character, also when it is a fault, so going on behind it ends.
-/

namespace DotLang

open Text

/-! ## Words and numerals -/

/-- The word that stands here, and the rest. -/
def readWord (cs : List Char) : List Char × List Char :=
  (cs.takeWhile isIdChar, cs.dropWhile isIdChar)

/-- The digits that stand here, with at most one point among them, and the
rest. -/
def readNumber (cs : List Char) : List Char × List Char :=
  let int := cs.takeWhile Char.isDigit
  match cs.dropWhile Char.isDigit with
  | [] => (int, [])
  | c :: rest =>
      if c = '.' then (int ++ '.' :: rest.takeWhile Char.isDigit, rest.dropWhile Char.isDigit)
      else (int, c :: rest)

/-! ## Strings -/

/-- The content of a quoted string behind its opening quote, and the text
behind its closing quote. -/
def quotedBody : List Char → Option (List Char × List Char)
  | [] => none
  | '"' :: cs => some ([], cs)
  | '\\' :: '"' :: cs => (quotedBody cs).map fun (s, rest) => ('"' :: s, rest)
  | '\\' :: '\\' :: cs => (quotedBody cs).map fun (s, rest) => ('\\' :: '\\' :: s, rest)
  | '\\' :: '\n' :: cs => quotedBody cs
  | '\\' :: '\r' :: '\n' :: cs => quotedBody cs
  | c :: cs => (quotedBody cs).map fun (s, rest) => (c :: s, rest)

/-- The content of an HTML string behind its opening bracket, inside `depth`
further brackets, and the text behind its closing bracket. -/
def htmlBody (depth : Nat) : List Char → Option (List Char × List Char)
  | [] => none
  | c :: cs =>
      if c = '<' then (htmlBody (depth + 1) cs).map fun (s, rest) => (c :: s, rest)
      else if c = '>' then
        match depth with
        | 0 => some ([], cs)
        | depth + 1 => (htmlBody depth cs).map fun (s, rest) => (c :: s, rest)
      else (htmlBody depth cs).map fun (s, rest) => (c :: s, rest)

theorem quotedBody_suffix {cs s rest : List Char} (h : quotedBody cs = some (s, rest)) :
    rest <:+ cs.tail := by
  fun_induction quotedBody cs generalizing s with
  | case1 => cases h
  | case2 cs => cases h; exact List.suffix_refl _
  | case3 cs ih | case4 cs ih =>
      obtain ⟨⟨u, r⟩, hu, he⟩ := Option.map_eq_some_iff.1 h
      cases he
      exact (ih hu).trans ((List.tail_suffix cs).trans (List.suffix_cons _ cs))
  | case5 cs ih => exact (ih h).trans ((List.tail_suffix cs).trans (List.suffix_cons _ cs))
  | case6 cs ih =>
      exact (ih h).trans ((List.tail_suffix cs).trans
        ((List.suffix_cons _ cs).trans (List.suffix_cons _ _)))
  | case7 c cs _ _ _ _ _ ih =>
      obtain ⟨⟨u, r⟩, hu, he⟩ := Option.map_eq_some_iff.1 h
      cases he
      exact (ih hu).trans (List.tail_suffix cs)

theorem quotedBody_length {cs s rest : List Char} (h : quotedBody cs = some (s, rest)) :
    rest.length < cs.length := by
  have hs := (quotedBody_suffix h).length_le
  cases cs with
  | nil => simp [quotedBody] at h
  | cons c cs => simp at hs ⊢; omega

theorem htmlBody_suffix {depth : Nat} {cs s rest : List Char}
    (h : htmlBody depth cs = some (s, rest)) : rest <:+ cs.tail := by
  induction cs generalizing depth s with
  | nil => simp [htmlBody] at h
  | cons c cs ih =>
      simp only [htmlBody] at h
      split at h
      · obtain ⟨⟨u, r⟩, hu, he⟩ := Option.map_eq_some_iff.1 h
        cases he
        exact (ih hu).trans (List.tail_suffix cs)
      · split at h
        · split at h
          · cases h; exact List.suffix_refl _
          · obtain ⟨⟨u, r⟩, hu, he⟩ := Option.map_eq_some_iff.1 h
            cases he
            exact (ih hu).trans (List.tail_suffix cs)
        · obtain ⟨⟨u, r⟩, hu, he⟩ := Option.map_eq_some_iff.1 h
          cases he
          exact (ih hu).trans (List.tail_suffix cs)

/-- The strings that plus signs join, from behind the first opening quote: their
contents in one text, or the fault, and the text behind them.  Without a further
plus sign the gap behind the last string stays unread. -/
def joinedStrings (cs : List Char) : Except LexFault (List Char) × List Char :=
  match _h : quotedBody cs with
  | none => (.error .openString, [])
  | some (s, rest) =>
      match _hp : skipGap false rest with
      | '+' :: after =>
          match _hq : skipGap false after with
          | '"' :: body =>
              let (r, rest) := joinedStrings body
              (r.map (s ++ ·), rest)
          | other => (.error .stringExpected, other)
      | _ => (.ok s, rest)
termination_by cs.length
decreasing_by
  have h1 := quotedBody_length _h
  have h2 := (skipGap_suffix false rest).length_le
  have h3 := (skipGap_suffix false after).length_le
  rw [_hp] at h2
  rw [_hq] at h3
  simp at h2 h3
  omega

/-- The quoted string that starts with the first character, whatever that
is. -/
def readString (cs : List Char) : Token × List Char :=
  match joinedStrings cs.tail with
  | (.ok s, rest) => (.id (.quoted (String.ofList s)), rest)
  | (.error f, rest) => (.fault f, rest)

/-- The HTML string that starts with the first character, whatever that is. -/
def readHtml (cs : List Char) : Token × List Char :=
  match htmlBody 0 cs.tail with
  | some (s, rest) => (.id (.html (String.ofList s)), rest)
  | none => (.fault .openHtml, [])

/-! ## Tokens -/

/-- The mark that a single character is. -/
def Mark.ofChar? : Char → Option Mark
  | '=' => some .equal
  | ';' => some .semicolon
  | ':' => some .colon
  | '[' => some .openBracket
  | ']' => some .closeBracket
  | '{' => some .openBrace
  | '}' => some .closeBrace
  | ',' => some .comma
  | _ => none

/-- The keyword or plain ID that a word is. -/
def Token.ofWord (w : List Char) : Token :=
  match Keyword.ofChars? w with
  | some k => .keyword k
  | none => .id (.plain (String.ofList w))

/-- The token that a minus sign starts, from behind the sign.  A numeral with a
sign may run into a word. -/
def readDash : List Char → Token × List Char
  | [] => (.fault .strayDash, [])
  | c :: cs =>
      if c = '>' then (.mark .arrow, cs)
      else if c = '-' then (.mark .line, cs)
      else if c.isDigit || c = '.' then
        let (n, rest) := readNumber (c :: cs)
        (.id ⟨String.ofList ('-' :: n), .numeral⟩, rest)
      else (.fault .strayDash, c :: cs)

/-- The numeral that starts here without a sign.  It must not run into a
word. -/
def readNumeral (cs : List Char) : Token × List Char :=
  match readNumber cs with
  | (n, []) => (.id ⟨String.ofList n, .numeral⟩, [])
  | (n, c :: rest) =>
      if isIdStart c then (.fault (.afterNumeral c), c :: rest)
      else (.id ⟨String.ofList n, .numeral⟩, c :: rest)

/-- Whether a numeral without a sign starts here. -/
def startsNumeral : List Char → Bool
  | [] => false
  | c :: cs => c.isDigit || (c == '.' && cs.head?.any Char.isDigit)

/-- The token that starts with the first character, and the rest. -/
def readToken : List Char → Token × List Char
  | [] => (.finish, [])
  | c :: cs =>
      match Mark.ofChar? c with
      | some m => (.mark m, cs)
      | none =>
          if c = '"' then readString (c :: cs)
          else if c = '<' then readHtml (c :: cs)
          else if c = '-' then readDash cs
          else if isIdStart c then (Token.ofWord (readWord (c :: cs)).1, (readWord (c :: cs)).2)
          else if startsNumeral (c :: cs) then readNumeral (c :: cs)
          else (.fault (.strayChar c), cs)

/-! ## Progress -/

theorem readNumber_suffix (cs : List Char) : (readNumber cs).2 <:+ cs := by
  have hd := List.dropWhile_suffix (l := cs) Char.isDigit
  simp only [readNumber]
  split
  · exact List.nil_suffix
  · next c rest h =>
      rw [h] at hd
      split
      · exact ((List.dropWhile_suffix _).trans (List.suffix_cons c rest)).trans hd
      · exact hd

theorem joinedStrings_suffix (cs : List Char) : (joinedStrings cs).2 <:+ cs := by
  fun_induction joinedStrings cs with
  | case1 => exact List.nil_suffix
  | case2 cs s rest h after hp body hq r rest' hj ih =>
      rw [hj] at ih
      have h1 := skipGap_suffix false rest
      have h2 := skipGap_suffix false after
      rw [hp] at h1
      rw [hq] at h2
      exact ((((ih.trans (List.suffix_cons _ body)).trans h2).trans
        (List.suffix_cons _ after)).trans h1).trans
          ((quotedBody_suffix h).trans (List.tail_suffix cs))
  | case3 cs s rest h after hp hq =>
      have h1 := skipGap_suffix false rest
      rw [hp] at h1
      exact (((skipGap_suffix false after).trans (List.suffix_cons _ after)).trans h1).trans
        ((quotedBody_suffix h).trans (List.tail_suffix cs))
  | case4 cs s rest h => exact (quotedBody_suffix h).trans (List.tail_suffix cs)

theorem readString_suffix (cs : List Char) : (readString cs).2 <:+ cs.tail := by
  have h := joinedStrings_suffix cs.tail
  unfold readString
  split
  · next hj => rw [hj] at h; exact h
  · next hj => rw [hj] at h; exact h

theorem readHtml_suffix (cs : List Char) : (readHtml cs).2 <:+ cs.tail := by
  unfold readHtml
  split
  · next h => exact (htmlBody_suffix h).trans (List.tail_suffix _)
  · exact List.nil_suffix

theorem readDash_suffix (cs : List Char) : (readDash cs).2 <:+ cs := by
  cases cs with
  | nil => exact List.suffix_refl _
  | cons c cs =>
      simp only [readDash]
      split
      · exact List.suffix_cons c cs
      · split
        · exact List.suffix_cons c cs
        · split
          · exact readNumber_suffix (c :: cs)
          · exact List.suffix_refl _

/-- A numeral that starts without a sign has a character. -/
theorem readNumber_length {cs : List Char} (h : startsNumeral cs = true) :
    (readNumber cs).2.length < cs.length := by
  cases cs with
  | nil => simp [startsNumeral] at h
  | cons c cs =>
      by_cases hd : c.isDigit = true
      · have h1 := (List.dropWhile_suffix (l := cs) Char.isDigit).length_le
        simp only [readNumber, List.dropWhile_cons, hd, if_true]
        split
        · simp
        · next d rest hr =>
            rw [hr] at h1
            have h2 := (List.dropWhile_suffix (l := rest) Char.isDigit).length_le
            split <;> simp at h1 ⊢ <;> omega
      · have hp : c = '.' := by
          simp only [startsNumeral, Bool.or_eq_true, Bool.and_eq_true, beq_iff_eq] at h
          exact (h.resolve_left hd).1
        subst hp
        have h1 := (List.dropWhile_suffix (l := cs) Char.isDigit).length_le
        simp only [readNumber, List.dropWhile_cons, hd]
        simp
        omega

/-- Reading a token takes at least one character. -/
theorem readToken_length {c : Char} {cs : List Char} :
    (readToken (c :: cs)).2.length < (c :: cs).length := by
  simp only [readToken]
  split
  · simp
  · split
    · have := (readString_suffix (c :: cs)).length_le
      simp at this ⊢; omega
    · split
      · have := (readHtml_suffix (c :: cs)).length_le
        simp at this ⊢; omega
      · split
        · have := (readDash_suffix cs).length_le
          simp; omega
        · split
          · next hw =>
              have := (List.dropWhile_suffix (l := cs) isIdChar).length_le
              simp [readWord, isIdChar, hw]
              omega
          · split
            · next hn =>
                have := readNumber_length hn
                unfold readNumeral
                split
                · simp
                · next n d rest hr =>
                    rw [hr] at this
                    split <;> exact this
            · simp

/-- The rest behind a token is an end of the text. -/
theorem readToken_suffix (cs : List Char) : (readToken cs).2 <:+ cs := by
  cases cs with
  | nil => exact List.suffix_refl _
  | cons c cs =>
      simp only [readToken]
      split
      · exact List.suffix_cons c cs
      · split
        · exact (readString_suffix (c :: cs)).trans (List.suffix_cons c cs)
        · split
          · exact (readHtml_suffix (c :: cs)).trans (List.suffix_cons c cs)
          · split
            · exact (readDash_suffix cs).trans (List.suffix_cons c cs)
            · split
              · exact List.dropWhile_suffix _
              · split
                · have := readNumber_suffix (c :: cs)
                  unfold readNumeral
                  split
                  · exact List.nil_suffix
                  · next n d rest hr =>
                      rw [hr] at this
                      split <;> exact this
                · exact List.suffix_cons c cs

end DotLang
