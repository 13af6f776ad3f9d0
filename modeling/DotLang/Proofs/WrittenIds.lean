import DotLang.Proofs.SafeIds
import DotLang.Proofs.LexingBelow
import DotLang.Proofs.Rendering
/-!
# Which IDs are read back

`Lexes.id` reads a safe ID back.  Here is the other direction: an ID whose
spelling is one token with the text of the ID is written in a form that holds
this text.

An HTML string ends at the bracket that closes it, and what stands in front of
that bracket balances (`htmlBody_iff`).  For a quoted string the characters are
counted that are no double quotes.  A body has at most one character for each of
them, a continued line has fewer, and a plus sign between two strings gives none
(`joinedStrings_solid`).  The spelling of a text has as many as the text has
characters, so a spelling that is read back holds no plus sign between strings
and no continued line, and character by character its backslashes come in pairs
(`runsEven_of_quotedBody`).  A word that begins with a blank loses it to the gap.
-/

namespace DotLang

open Text

/-! ## Quoted strings -/

/-- The number of characters that are no double quotes. -/
def solid (cs : List Char) : Nat := cs.countP (· ≠ '"')

@[simp] theorem solid_nil : solid [] = 0 := rfl

@[simp] theorem solid_quote (cs : List Char) : solid ('"' :: cs) = solid cs := by
  simp [solid]

@[simp] theorem solid_cons {c : Char} (cs : List Char) (hc : c ≠ '"') :
    solid (c :: cs) = solid cs + 1 := by
  simp [solid, hc]

theorem solid_le_length (cs : List Char) : solid cs ≤ cs.length := List.countP_le_length

theorem solid_le_of_suffix {cs rest : List Char} (h : rest <:+ cs) : solid rest ≤ solid cs :=
  h.sublist.countP_le

/-- Escaping does not change the number. -/
theorem solid_escapeQuotes (cs rest : List Char) :
    solid (Id.escapeQuotes cs ++ rest) = cs.length + solid rest := by
  induction cs with
  | nil => simp [Id.escapeQuotes]
  | cons c cs ih =>
      by_cases hc : c = '"'
      · subst hc
        simp [Id.escapeQuotes, ih]
        omega
      · simp [Id.escapeQuotes, hc, ih]
        omega

section Quoted
variable {cs s rest : List Char}

/-- A body has at most one character for each that it takes and that is no
double quote. -/
theorem quotedBody_solid (h : quotedBody cs = some (s, rest)) :
    s.length + solid rest ≤ solid cs := by
  fun_induction quotedBody cs generalizing s with
  | case1 => cases h
  | case2 cs =>
      cases h
      simp
  | case3 cs ih =>
      obtain ⟨⟨u, r⟩, hu, he⟩ := Option.map_eq_some_iff.1 h
      cases he
      have := ih hu
      simp
      omega
  | case4 cs ih =>
      obtain ⟨⟨u, r⟩, hu, he⟩ := Option.map_eq_some_iff.1 h
      cases he
      have := ih hu
      simp
      omega
  | case5 cs ih | case6 cs ih =>
      have := ih h
      simp
      omega
  | case7 c cs hquote _ _ _ _ ih =>
      obtain ⟨⟨u, r⟩, hu, he⟩ := Option.map_eq_some_iff.1 h
      cases he
      have := ih hu
      rw [solid_cons cs hquote]
      simp
      omega

/-- A string is one body, or the plus signs in it give no character. -/
theorem joinedStrings_solid (h : joinedStrings cs = (.ok s, rest)) :
    quotedBody cs = some (s, rest) ∨ s.length < solid cs := by
  fun_induction joinedStrings cs generalizing s with
  | case1 => cases h
  | case2 cs s' rest' hq after hp body hb r rest'' hj ih =>
      rw [Prod.mk.injEq] at h
      obtain ⟨hr, rfl⟩ := h
      obtain ⟨u, rfl, rfl⟩ : ∃ u, r = .ok u ∧ s = s' ++ u := by
        cases r with
        | error => cases hr
        | ok u =>
            cases hr
            exact ⟨u, rfl, rfl⟩
      have first := quotedBody_solid hq
      have gap : solid after + 1 ≤ solid rest' := by
        have := solid_le_of_suffix (skipGap_suffix false rest')
        simpa [hp] using this
      have gap' : solid body ≤ solid after := by
        have := solid_le_of_suffix (skipGap_suffix false after)
        simpa [hb] using this
      have more : u.length ≤ solid body := by
        rcases ih hj with hbody | hless
        · have := quotedBody_solid hbody
          omega
        · omega
      right
      simp
      omega
  | case3 => cases h
  | case4 cs s' rest' hq hp =>
      cases h
      exact Or.inl hq

/-- A continued line gives less than the characters behind its backslash. -/
theorem quotedBody_continued {c : Char} (he : endsRun (c :: cs) = true) (hq : c ≠ '"')
    (h : quotedBody ('\\' :: c :: (Id.escapeQuotes cs ++ ['"'])) = some (s, rest)) :
    s.length ≤ cs.length := by
  have body : ∀ {cs' : List Char}, quotedBody (Id.escapeQuotes cs' ++ ['"']) = some (s, rest) →
      s.length ≤ cs'.length := by
    intro cs' hbody
    have hsolid := quotedBody_solid hbody
    rw [solid_escapeQuotes] at hsolid
    simp at hsolid
    omega
  rw [endsRun, Bool.or_eq_true, Bool.or_eq_true, Bool.and_eq_true, beq_iff_eq, beq_iff_eq,
    beq_iff_eq, beq_iff_eq] at he
  rcases he with (hquote | rfl) | ⟨rfl, hhead⟩
  · exact absurd hquote hq
  · exact body (by simpa [quotedBody] using h)
  · obtain ⟨cs', rfl⟩ := List.head?_eq_some_iff.1 hhead
    have : s.length ≤ cs'.length := body (by simpa [quotedBody, Id.escapeQuotes] using h)
    simp
    omega

/-- In the spelling of a text that is read as that text, the backslashes before
a quote or the end of a line come in pairs, also with one that stands in
front. -/
theorem runsEven_of_quotedBody {odd : Bool}
    (h : quotedBody ((if odd then ['\\'] else []) ++ Id.escapeQuotes cs ++ ['"']) =
      some ((if odd then ['\\'] else []) ++ cs, rest)) : runsEven odd cs = true := by
  induction cs generalizing odd with
  | nil =>
      cases odd with
      | false => rfl
      | true => simp [Id.escapeQuotes, quotedBody] at h
  | cons c cs ih =>
      by_cases hb : c = '\\'
      · subst hb
        rw [runsEven, if_pos rfl]
        cases odd with
        | false => exact ih (by simpa [Id.escapeQuotes] using h)
        | true => exact ih (by simpa [Id.escapeQuotes, quotedBody] using h)
      · by_cases hq : c = '"'
        · subst hq
          cases odd with
          | false =>
              have hrest : runsEven false cs = true :=
                ih (by simpa [Id.escapeQuotes, quotedBody] using h)
              simp [runsEven, hrest]
          | true => simp [Id.escapeQuotes, quotedBody] at h
        · have he : Id.escapeQuotes (c :: cs) = c :: Id.escapeQuotes cs := by
            simp [Id.escapeQuotes, hq]
          have hread : quotedBody (c :: (Id.escapeQuotes cs ++ ['"'])) = some (c :: cs, rest) →
              runsEven false cs = true := by
            intro hr
            rw [quotedBody_other hq hb] at hr
            exact ih (by simpa using hr)
          rw [runsEven, if_neg hb, Bool.and_eq_true, Bool.not_eq_true']
          rw [he] at h
          cases odd with
          | false => exact ⟨rfl, hread (by simpa using h)⟩
          | true =>
              cases hend : endsRun (c :: cs) with
              | false =>
                  have hstep := quotedBody_backslash (endsRun_escapeQuotes [] hend) hb
                  refine ⟨rfl, hread ?_⟩
                  simpa [hstep] using h
              | true =>
                  have hless := quotedBody_continued hend hq (by simpa using h)
                  exact absurd hless (by simp only [List.length_cons]; omega)

theorem runsEven_of_joinedStrings
    (h : joinedStrings (Id.escapeQuotes cs ++ ['"']) = (.ok cs, rest)) : RunsEven cs := by
  rw [runsEven_iff]
  rcases joinedStrings_solid h with hbody | hless
  · exact runsEven_of_quotedBody (by simpa using hbody)
  · rw [solid_escapeQuotes] at hless
    simp at hless

end Quoted

/-! ## Lengths -/

/-- The text of an ID is not longer than what is read for it. -/
theorem ReadsToken.length_le {cs rest : List Char} {i : Id} (h : ReadsToken cs (.id i) rest) :
    i.value.toList.length ≤ cs.length := by
  generalize ht : Token.id i = t at h
  cases h with
  | mark | arrow | line => cases ht
  | @string cs s rest hj =>
      cases ht
      have hsolid := solid_le_length cs
      rcases joinedStrings_solid hj with hbody | hless
      · have := quotedBody_solid hbody
        simp [Id.quoted]
        omega
      · simp [Id.quoted]
        omega
  | html hb =>
      cases ht
      simp [Id.html, (htmlBody_iff.1 hb).1]
      omega
  | word hc hw =>
      rw [Token.ofWord] at ht
      split at ht
      · cases ht
      · cases ht
        simp [Id.plain, (readWord_iff.1 hw).1]
  | numeral hs hr hw =>
      cases ht
      simp [(readNumber_iff.1 hr).1]
  | signed hc hr =>
      cases ht
      simp [(readNumber_iff.1 hr).1]

/-! ## What a spelling is read as

In this section a spelling is read as a first token that is an ID with the text
that is spelled. -/

section Spelling
variable {cs : List Char} {i : Id}

theorem reads_html (h : (tokensOf (String.ofList ('<' :: cs ++ ['>']))).head? = some (.id i))
    (hv : i.value.toList = cs) : i = .html (String.ofList cs) ∧ Balanced cs := by
  have hstart : StartsToken '<' := ⟨by decide, by decide, by decide, by decide⟩
  have hm : Mark.ofChar? '<' = none := rfl
  rw [tokensOf_head?, List.cons_append, hstart.skipGap] at h
  simp only [readToken, hm, readHtml, List.tail_cons, Option.some.injEq] at h
  cases hb : htmlBody 0 (cs ++ ['>']) with
  | none => simp [hb] at h
  | some p =>
      obtain ⟨s, rest⟩ := p
      simp [hb] at h
      subst h
      have hs : s = cs := by simpa [Id.html] using hv
      subst hs
      exact ⟨rfl, (htmlBody_iff.1 hb).2⟩

theorem reads_quoted (h : (tokensOf (String.ofList (Id.renderQuoted cs))).head? = some (.id i))
    (hv : i.value.toList = cs) : i = .quoted (String.ofList cs) ∧ RunsEven cs := by
  have hstart : StartsToken '"' := ⟨by decide, by decide, by decide, by decide⟩
  have hm : Mark.ofChar? '"' = none := rfl
  rw [tokensOf_head?, Id.renderQuoted, List.cons_append, hstart.skipGap] at h
  simp only [readToken, hm, readString, List.tail_cons, Option.some.injEq] at h
  rcases hj : joinedStrings (Id.escapeQuotes cs ++ ['"']) with ⟨s | s, rest⟩
  · simp [hj] at h
  · simp [hj] at h
    subst h
    have hs : s = cs := by simpa [Id.quoted] using hv
    subst hs
    exact ⟨rfl, runsEven_of_joinedStrings hj⟩

theorem bounds_nil : Bounds [] := by
  intro c hc
  cases hc

theorem reads_numeral (h : (tokensOf (String.ofList cs)).head? = some (.id i))
    (hn : isNumeral cs = true) : i = ⟨String.ofList cs, .numeral⟩ := by
  have hl := (Lexes.numeral hn bounds_nil .nil).tokensOf
  rw [List.append_nil] at hl
  rw [hl] at h
  cases h
  rfl

/-- A word that begins with a blank is read without it, so it loses a
character. -/
theorem reads_plain (h : (tokensOf (String.ofList cs)).head? = some (.id i))
    (hv : i.value.toList = cs) (hp : isPlain cs = true) :
    i = .plain (String.ofList cs) ∧ cs.head?.all (! isBlank ·) = true := by
  cases cs with
  | nil => cases hp
  | cons c cs =>
      cases hb : isBlank c with
      | true =>
          rw [tokensOf_head?, skipGap_blank hb, Option.some.injEq] at h
          have hless := (readsToken_of_readToken (Prod.ext_iff.2 ⟨h, rfl⟩) (.id i)).length_le
          have hgap := (skipGap_suffix (true || c == '\n') cs).length_le
          rw [hv, List.length_cons] at hless
          omega
      | false =>
          have hhead : (c :: cs).head?.all (! isBlank ·) = true := by simp [hb]
          have hl := (Lexes.plain hp hhead bounds_nil .nil).tokensOf
          rw [List.append_nil] at hl
          rw [hl] at h
          cases h
          exact ⟨rfl, hhead⟩

end Spelling

/-- No numeral is a word. -/
theorem isPlain_of_isNumeral {cs : List Char} (h : isNumeral cs = true) : isPlain cs = false := by
  obtain ⟨sign, number, rfl, hsign, hnumber⟩ := isNumber_of_isNumeral h
  rcases hsign with rfl | rfl
  · obtain ⟨c, tail, rfl, hc⟩ := hnumber.first
    have hs : isIdStart c = false := by
      rcases hc with hc | ⟨rfl, _⟩
      · exact isIdStart_of_isDigit hc
      · decide
    simp [isPlain, hs]
  · have hs : isIdStart '-' = false := by decide
    simp [isPlain, hs]

namespace Id

/-- The ID as its spelling has it: a word or numeral that cannot stand bare is
quoted. -/
def spelled (i : Id) : Id :=
  match i.kind with
  | .html | .quoted => i
  | .plain | .numeral => ofText i.value

theorem spelled_value (i : Id) : i.spelled.value = i.value := by
  obtain ⟨v, k⟩ := i
  cases k with
  | html | quoted => rfl
  | plain | numeral => exact ofText_value v

theorem ofText_render (v : String) : (ofText v).render =
    if isPlain v.toList || isNumeral v.toList then v.toList else renderQuoted v.toList := by
  unfold ofText
  split
  · next hp => simp [render, hp]
  · split
    · next hn => simp [render, hn]
    · next hp hn => simp [render, hp, hn]

theorem spelled_text (i : Id) : i.spelled.text = i.text := by
  obtain ⟨v, k⟩ := i
  cases k with
  | html | quoted => rfl
  | plain | numeral => exact congrArg String.ofList (ofText_render v)

/-- A text in its simplest form is read back in this form or not at all. -/
theorem ofText_read {v : String} {i : Id}
    (h : (tokensOf (ofText v).text).head? = some (.id i)) (hv : i.value = v) :
    i = ofText v ∧ (ofText v).Safe := by
  subst hv
  have hi : String.ofList i.value.toList = i.value := String.ofList_toList
  unfold text at h
  rw [ofText_render] at h
  by_cases hp : isPlain i.value.toList = true
  · rw [hp, Bool.true_or, if_pos rfl] at h
    obtain ⟨he, hb⟩ := reads_plain h rfl hp
    have hf : ofText i.value = .plain i.value := by simp [ofText, hp, plain]
    rw [hi] at he
    rw [hf]
    exact ⟨he, hp, hb⟩
  · by_cases hn : isNumeral i.value.toList = true
    · rw [hn, Bool.or_true, if_pos rfl] at h
      have he := reads_numeral h hn
      have hf : ofText i.value = ⟨i.value, .numeral⟩ := by simp [ofText, hp, hn]
      rw [hi] at he
      rw [hf]
      exact ⟨he, hn⟩
    · simp only [hp, hn, Bool.or_self, Bool.false_eq_true, if_false] at h
      obtain ⟨he, hr⟩ := reads_quoted h rfl
      have hf : ofText i.value = .quoted i.value := by simp [ofText, hp, hn, quoted]
      rw [hi] at he
      rw [hf]
      exact ⟨he, hr⟩

/-- A safe ID is spelled in its own form. -/
theorem Safe.spelled {i : Id} (h : i.Safe) : i.spelled = i := by
  obtain ⟨v, k⟩ := i
  cases k with
  | html | quoted => rfl
  | plain =>
      have hp : isPlain v.toList = true := h.1
      simp [Id.spelled, ofText, hp]
  | numeral =>
      have hn : isNumeral v.toList = true := h
      have hp : isPlain v.toList = false := isPlain_of_isNumeral hn
      simp [Id.spelled, ofText, hp, hn]

/-- The spelling of an ID is one token with the text of the ID exactly if its
form can hold that text. -/
theorem tokensOf_text_iff {i j : Id} :
    tokensOf i.text = [.id j, .finish] ∧ j.value = i.value ↔ j = i.spelled ∧ i.spelled.Safe := by
  constructor
  · rintro ⟨h, hv⟩
    obtain ⟨v, k⟩ := i
    have hread : (tokensOf (Id.text ⟨v, k⟩)).head? = some (.id j) := by rw [h]; rfl
    have hv : j.value = v := hv
    cases k with
    | html =>
        obtain ⟨he, hb⟩ := reads_html hread (congrArg String.toList hv)
        rw [String.ofList_toList] at he
        exact ⟨he, hb⟩
    | quoted =>
        obtain ⟨he, hr⟩ := reads_quoted hread (congrArg String.toList hv)
        rw [String.ofList_toList] at he
        exact ⟨he, hr⟩
    | plain | numeral =>
        rw [← spelled_text] at hread
        exact ofText_read hread hv
  · rintro ⟨rfl, hs⟩
    have hl := (Lexes.id hs bounds_nil .nil).tokensOf
    rw [List.append_nil] at hl
    exact ⟨by rw [← spelled_text]; exact hl, spelled_value i⟩

/-- An ID is read back from its spelling, as the one token before the end, exactly
if its form can hold its text. -/
theorem reads_itself_iff (value : String) (kind : IdKind) :
    tokensOf (text ⟨value, kind⟩) = [.id ⟨value, kind⟩, .finish] ↔ kind.Holds value.toList := by
  have hread := tokensOf_text_iff (i := ⟨value, kind⟩) (j := ⟨value, kind⟩)
  constructor
  · intro h
    obtain ⟨he, hs⟩ := hread.1 ⟨h, rfl⟩
    rw [← he] at hs
    exact hs
  · intro h
    have he : spelled ⟨value, kind⟩ = ⟨value, kind⟩ := Safe.spelled h
    exact (hread.2 ⟨he.symm, by rw [he]; exact h⟩).1

theorem ofText_safe_iff (value : String) : (ofText value).Safe ↔
    if isPlain value.toList then value.toList.head?.all (! isBlank ·) = true
    else isNumeral value.toList = true ∨ RunsEven value.toList := by
  cases hp : isPlain value.toList with
  | true => simp [ofText, hp, Safe, IdKind.Holds]
  | false =>
      cases hn : isNumeral value.toList with
      | true => simp [ofText, hp, hn, Safe, IdKind.Holds]
      | false => simp [ofText, hp, hn, Safe, IdKind.Holds]

/-- A text that is given its simplest form is read back from it, whatever the
form, exactly if it is a word that does not begin with a blank, or a numeral, or
has even runs of backslashes. -/
theorem ofText_reads_iff (value : String) :
    (∃ i : Id, i.value = value ∧ tokensOf (ofText value).text = [.id i, .finish]) ↔
      if isPlain value.toList then value.toList.head?.all (! isBlank ·) = true
      else isNumeral value.toList = true ∨ RunsEven value.toList := by
  rw [← ofText_safe_iff]
  constructor
  · rintro ⟨i, hv, h⟩
    exact (ofText_read (by rw [h]; rfl) hv).2
  · intro hs
    have he := hs.spelled
    have hread := tokensOf_text_iff.2 ⟨rfl, he.symm ▸ hs⟩
    rw [he] at hread
    exact ⟨ofText value, ofText_value value, hread.1⟩

/-- A single backslash takes the closing quote of its spelling with it. -/
theorem ofText_backslash_lost :
    ¬ ∃ i : Id, i.value = "\\" ∧ tokensOf (ofText "\\").text = [.id i, .finish] := by
  have hl : tokensOf (ofText "\\").text = [.fault .openString, .finish] := by decide +kernel
  rintro ⟨i, _, h⟩
  rw [hl] at h
  cases h

end Id

end DotLang
