import DotLang.Proofs.Gaps
import DotLang.Proofs.Parsing
import DotLang.Proofs.SafeIds
/-!
# How a token is read

`readToken` looks at the first characters and hands the text to a reader.
`ReadsToken` says this once, with a constructor for each way to read a token that is
no fault, and `readToken_iff` that it is the same.

A token depends on what stands behind it only as far as this would go on it: a
character that goes on a word or a numeral, a word behind a numeral without a sign,
and a plus sign behind a string.  `Token.StopsAt` says that nothing of the kind stands
there.  Then the same token is read in front of something else (`ReadsToken.replace`).
-/

namespace DotLang

open Text

/-- A word stands here. -/
def WordAhead (cs : List Char) : Prop := cs.head?.any isIdStart = true

instance (cs : List Char) : Decidable (WordAhead cs) := inferInstanceAs (Decidable (_ = true))

/-- A token that is neither a fault nor the end, with the text from its first character
and the text behind it. -/
inductive ReadsToken : List Char → Token → List Char → Prop
  | mark {c : Char} {m : Mark} {cs : List Char} (hm : Mark.ofChar? c = some m) :
      ReadsToken (c :: cs) (.mark m) cs
  | arrow {cs : List Char} : ReadsToken ('-' :: '>' :: cs) (.mark .arrow) cs
  | line {cs : List Char} : ReadsToken ('-' :: '-' :: cs) (.mark .line) cs
  | string {cs s rest : List Char} (hj : joinedStrings cs = (.ok s, rest)) :
      ReadsToken ('"' :: cs) (.id (.quoted (String.ofList s))) rest
  | html {cs s rest : List Char} (hb : htmlBody 0 cs = some (s, rest)) :
      ReadsToken ('<' :: cs) (.id (.html (String.ofList s))) rest
  | word {c : Char} {cs w rest : List Char} (hc : isIdStart c = true)
      (hw : readWord (c :: cs) = (w, rest)) : ReadsToken (c :: cs) (Token.ofWord w) rest
  | numeral {c : Char} {cs number rest : List Char} (hs : startsNumeral (c :: cs) = true)
      (hr : readNumber (c :: cs) = (number, rest)) (hw : ¬ WordAhead rest) :
      ReadsToken (c :: cs) (.id ⟨String.ofList number, .numeral⟩) rest
  | signed {c : Char} {cs number rest : List Char} (hc : c.isDigit = true ∨ c = '.')
      (hr : readNumber (c :: cs) = (number, rest)) :
      ReadsToken ('-' :: c :: cs) (.id ⟨String.ofList ('-' :: number), .numeral⟩) rest

section
variable {c : Char} {cs w s number rest more : List Char} {t : Token}

/-! ## Words -/

theorem readWord_cons (hc : isIdStart c = true) :
    readWord (c :: cs) = (c :: cs.takeWhile isIdChar, cs.dropWhile isIdChar) := by
  have hchar : isIdChar c = true := by simp [isIdChar, hc]
  simp [readWord, hchar]

/-! ## Numerals -/

theorem readNumeral_of_not_wordAhead (hr : readNumber cs = (number, rest)) (hw : ¬ WordAhead rest) :
    readNumeral cs = (.id ⟨String.ofList number, .numeral⟩, rest) := by
  rw [readNumeral, hr]
  cases rest with
  | nil => rfl
  | cons c rest =>
      have hc : isIdStart c = false := by simpa [WordAhead] using hw
      simp [hc]

theorem readNumeral_of_wordAhead (hr : readNumber cs = (number, rest)) (hw : WordAhead rest) :
    ∃ f, readNumeral cs = (.fault f, rest) := by
  obtain ⟨c, hc, hs⟩ := (Option.any_eq_true ..).1 hw
  obtain ⟨rest, rfl⟩ := List.head?_eq_some_iff.1 hc
  exact ⟨.afterNumeral c, by rw [readNumeral, hr]; simp [hs]⟩

theorem readDash_of_digit (hc : c.isDigit = true ∨ c = '.')
    (hr : readNumber (c :: cs) = (number, rest)) :
    readDash (c :: cs) = (.id ⟨String.ofList ('-' :: number), .numeral⟩, rest) := by
  have hd : (c.isDigit || decide (c = '.')) = true := by simpa using hc
  have hne : c ≠ '>' ∧ c ≠ '-' := by
    rcases hc with hc | rfl
    · exact ⟨ne_of_isDigit hc (by decide), ne_of_isDigit hc (by decide)⟩
    · decide
  simp [readDash, hd, hne, hr]

theorem ReadsNumber.stops (h : ReadsNumber number rest) :
    ∀ c, rest.head? = some c → c.isDigit = false ∧ (c = '.' → '.' ∈ number) := by
  intro c hc
  cases h with
  | int _ stop => exact ⟨(stop c hc).1, fun hp => absurd hp (stop c hc).2⟩
  | point _ _ stop => exact ⟨stop c hc, fun _ => by simp⟩

/-- A number is read in front of anything that goes on with no digit, and with no
point if it has none. -/
theorem ReadsNumber.replace (h : ReadsNumber number rest)
    (stop : ∀ c, more.head? = some c → c.isDigit = false ∧ (c = '.' → '.' ∈ number)) :
    ReadsNumber number more := by
  cases h with
  | int digits _ =>
      refine .int digits fun c hc => ⟨(stop c hc).1, fun hp => ?_⟩
      exact absurd (List.all_eq_true.1 digits _ ((stop c hc).2 hp)) (by decide)
  | point digits decimals _ => exact .point digits decimals fun c hc => (stop c hc).1

/-- Behind a digit or a point there is a number, or the point is alone. -/
theorem isNumber_or_point (hc : c.isDigit = true ∨ c = '.')
    (hr : readNumber (c :: cs) = (number, rest)) : IsNumber number ∨ number = ['.'] := by
  obtain ⟨he, hn⟩ := readNumber_iff.1 hr
  cases hn with
  | int digits stop =>
      refine Or.inl (.int digits fun hnil => ?_)
      rw [hnil, List.nil_append] at he
      obtain ⟨hdigit, hpoint⟩ := stop c (by rw [← he]; rfl)
      rcases hc with hc | hc
      · rw [hdigit] at hc
        cases hc
      · exact hpoint hc
  | @point int frac _ digits decimals stop =>
      by_cases hsome : int ≠ [] ∨ frac ≠ []
      · exact Or.inl (.point digits decimals hsome)
      · simp only [ne_eq, not_or, Decidable.not_not] at hsome
        obtain ⟨rfl, rfl⟩ := hsome
        exact Or.inr rfl

theorem readNumber_cons (hc : c.isDigit = true ∨ c = '.')
    (hr : readNumber (c :: cs) = (number, rest)) : ∃ tail, number = c :: tail := by
  obtain ⟨d, tail, rfl⟩ : ∃ d tail, number = d :: tail := by
    rcases isNumber_or_point hc hr with hn | rfl
    · obtain ⟨d, tail, he, _⟩ := hn.first
      exact ⟨d, tail, he⟩
    · exact ⟨'.', [], rfl⟩
  obtain ⟨rfl, _⟩ := List.cons.inj (readNumber_iff.1 hr).1
  exact ⟨tail, rfl⟩

theorem digit_or_point_of_startsNumeral (hs : startsNumeral (c :: cs) = true) :
    c.isDigit = true ∨ c = '.' := by
  simp only [startsNumeral, Bool.or_eq_true, Bool.and_eq_true, beq_iff_eq] at hs
  exact hs.imp_right And.left

/-- What stands at the start of a numeral is a number. -/
theorem isNumber_of_startsNumeral (hs : startsNumeral (c :: cs) = true)
    (hr : readNumber (c :: cs) = (number, rest)) : IsNumber number := by
  refine (isNumber_or_point (digit_or_point_of_startsNumeral hs) hr).resolve_right fun hp => ?_
  -- Behind a point alone there is no digit.
  subst hp
  obtain ⟨he, hn⟩ := readNumber_iff.1 hr
  obtain ⟨rfl, rfl⟩ := List.cons.inj he
  cases cs with
  | nil => cases hs
  | cons d cs => simp [startsNumeral, (hn.stops d rfl).1] at hs

/-! ## Strings -/

theorem quotedBody_append_of_some {cs s rest : List Char} (more : List Char)
    (h : quotedBody cs = some (s, rest)) :
    quotedBody (cs ++ more) = some (s, rest ++ more) := by
  fun_induction quotedBody cs generalizing s with
  | case1 => cases h
  | case2 cs =>
      cases h
      rfl
  | case3 cs ih | case4 cs ih =>
      obtain ⟨⟨u, r⟩, hu, he⟩ := Option.map_eq_some_iff.1 h
      cases he
      simp only [List.cons_append, quotedBody, ih hu, Option.map_some]
  | case5 cs ih | case6 cs ih =>
      simp only [List.cons_append, quotedBody, ih h]
  | case7 c cs hquote hescape hback hline hreturn ih =>
      obtain ⟨⟨u, r⟩, hu, he⟩ := Option.map_eq_some_iff.1 h
      cases he
      -- What decides the case is in front of `more`, as the body is closed there.
      cases cs with
      | nil => cases hu
      | cons d cs =>
          have first : ∀ {e cs'}, d :: cs ++ more = e :: cs' → d = e :=
            fun he => (List.cons.inj he).1
          rw [List.cons_append, quotedBody.eq_7, ih hu, Option.map_some]
          · exact hquote
          · exact fun _ hc he => hescape cs hc (first he ▸ rfl)
          · exact fun _ hc he => hback cs hc (first he ▸ rfl)
          · exact fun _ hc he => hline cs hc (first he ▸ rfl)
          · intro cs' hc he
            cases cs with
            | nil =>
                rw [first he] at hu
                cases hu
            | cons e cs =>
                injection he with hd he
                injection he with he
                exact hreturn cs hc (by rw [hd, he])

/-- What is read from behind a closing quote, where `s` is read so far.  Behind a plus
sign there has to be a further string, and without one the gap stays unread. -/
def goOn (s rest : List Char) : Except LexFault (List Char) × List Char :=
  match skipGap false rest with
  | '+' :: after =>
      match skipGap false after with
      | '"' :: body => ((joinedStrings body).1.map (s ++ ·), (joinedStrings body).2)
      | other => (.error .stringExpected, other)
  | _ => (.ok s, rest)

theorem goOn_string {after body : List Char} (hp : skipGap false rest = '+' :: after)
    (hb : skipGap false after = '"' :: body) :
    goOn s rest = ((joinedStrings body).1.map (s ++ ·), (joinedStrings body).2) := by
  simp only [goOn, hp, hb]

theorem goOn_fault {after : List Char} (hp : skipGap false rest = '+' :: after)
    (hb : ∀ body, skipGap false after ≠ '"' :: body) :
    goOn s rest = (.error .stringExpected, skipGap false after) := by
  simp only [goOn, hp]

theorem goOn_end (hp : ∀ after, skipGap false rest ≠ '+' :: after) :
    goOn s rest = (.ok s, rest) := by
  unfold goOn
  split
  · next after he => exact absurd he (hp after)
  · rfl

/-- What is read so far comes in front. -/
theorem goOn_prepend (s u rest : List Char) :
    ((goOn u rest).1.map (s ++ ·), (goOn u rest).2) = goOn (s ++ u) rest := by
  unfold goOn
  split
  · split
    · next body _ =>
        cases (joinedStrings body).1 with
        | error => rfl
        | ok others => simp [Except.map, List.append_assoc]
    · rfl
  · rfl

/-- One string is read, and then what follows. -/
theorem joinedStrings_of_body (hq : quotedBody cs = some (s, rest)) :
    joinedStrings cs = goOn s rest := by
  rw [joinedStrings]
  split
  · next h =>
      rw [hq] at h
      cases h
  · next h =>
      rw [hq] at h
      cases h
      split
      · next after hp =>
          split
          · next body hb => rw [goOn_string hp hb]
          · next hb => rw [goOn_fault hp fun body he => hb body he]
      · next hp => rw [goOn_end fun after he => hp after he]

/-- A quoted string depends on the text up to its closing quote. -/
theorem quotedBody_cut (h : quotedBody cs = some (s, rest)) :
    ∃ w, cs = w ++ rest ∧ quotedBody w = some (s, []) := by
  fun_induction quotedBody cs generalizing s with
  | case1 => cases h
  | case2 cs =>
      cases h
      exact ⟨['"'], rfl, rfl⟩
  | case3 cs ih | case4 cs ih =>
      obtain ⟨⟨u, r⟩, hu, he⟩ := Option.map_eq_some_iff.1 h
      cases he
      obtain ⟨w, rfl, hw⟩ := ih hu
      exact ⟨_ :: _ :: w, rfl, by simp [quotedBody, hw]⟩
  | case5 cs ih =>
      obtain ⟨w, rfl, hw⟩ := ih h
      exact ⟨'\\' :: '\n' :: w, rfl, by simp [quotedBody, hw]⟩
  | case6 cs ih =>
      obtain ⟨w, rfl, hw⟩ := ih h
      exact ⟨'\\' :: '\r' :: '\n' :: w, rfl, by simp [quotedBody, hw]⟩
  | case7 c cs hquote hescape hback hline hreturn ih =>
      obtain ⟨⟨u, r⟩, hu, he⟩ := Option.map_eq_some_iff.1 h
      cases he
      obtain ⟨w, rfl, hw⟩ := ih hu
      refine ⟨c :: w, rfl, ?_⟩
      rw [quotedBody.eq_7, hw, Option.map_some]
      · exact hquote
      · rintro cs hc rfl
        exact hescape _ hc rfl
      · rintro cs hc rfl
        exact hback _ hc rfl
      · rintro cs hc rfl
        exact hline _ hc rfl
      · rintro cs hc rfl
        exact hreturn _ hc rfl

/-- The closing quote stands in front of the rest. -/
theorem quotedBody_closed (h : quotedBody cs = some (s, rest)) : ∃ w, cs = w ++ '"' :: rest := by
  fun_induction quotedBody cs generalizing s with
  | case1 => cases h
  | case2 cs =>
      cases h
      exact ⟨[], rfl⟩
  | case3 cs ih | case4 cs ih =>
      obtain ⟨⟨u, r⟩, hu, he⟩ := Option.map_eq_some_iff.1 h
      cases he
      obtain ⟨w, rfl⟩ := ih hu
      exact ⟨_ :: _ :: w, rfl⟩
  | case5 cs ih =>
      obtain ⟨w, rfl⟩ := ih h
      exact ⟨'\\' :: '\n' :: w, rfl⟩
  | case6 cs ih =>
      obtain ⟨w, rfl⟩ := ih h
      exact ⟨'\\' :: '\r' :: '\n' :: w, rfl⟩
  | case7 c cs _ _ _ _ _ ih =>
      obtain ⟨⟨u, r⟩, hu, he⟩ := Option.map_eq_some_iff.1 h
      cases he
      obtain ⟨w, rfl⟩ := ih hu
      exact ⟨c :: w, rfl⟩

/-- Joined strings are read in front of any text, and reading goes on from there, directly
behind a closing quote. -/
theorem joinedStrings_replace (h : joinedStrings cs = (.ok s, rest)) :
    ∃ w, cs = w ++ '"' :: rest ∧ ∀ more, joinedStrings (w ++ '"' :: more) = goOn s more := by
  fun_induction joinedStrings cs generalizing s with
  | case1 => cases h
  | case2 cs first rest' hq after hp body hb r rest'' hj ih =>
      obtain ⟨hr, rfl⟩ := Prod.mk.inj h
      cases r with
      | error => cases hr
      | ok others =>
          cases hr
          obtain ⟨w, hcs, hw⟩ := quotedBody_cut hq
          obtain ⟨plus, hplus, gplus⟩ := exists_gap false rest'
          obtain ⟨quote, hquote, gquote⟩ := exists_gap false after
          obtain ⟨v, hbody, hv⟩ := ih hj
          rw [hp] at hplus gplus
          rw [hb] at hquote gquote
          refine ⟨w ++ (plus ++ '+' :: (quote ++ '"' :: v)), ?_, fun tail => ?_⟩
          · rw [hcs, hplus, hquote, hbody]
            simp
          · -- The gaps end where they ended, as they stand in front of the same signs.
            have hq' := quotedBody_append_of_some
              (plus ++ '+' :: (quote ++ '"' :: (v ++ '"' :: tail))) hw
            have hp' := (gplus.in_front (by decide)
              ('+' :: (quote ++ '"' :: (v ++ '"' :: tail)))).skipGap_cons
              (by decide) (by decide) (by decide)
            have hb' := (gquote.in_front (by decide) ('"' :: (v ++ '"' :: tail))).skipGap_cons
              (by decide) (by decide) (by decide)
            have hjoin := joinedStrings_of_body hq'
            rw [List.nil_append, goOn_string hp' hb', hv, goOn_prepend] at hjoin
            simpa using hjoin
  | case3 => cases h
  | case4 cs first rest' hq hp =>
      cases h
      obtain ⟨body, hcs, hbody⟩ := quotedBody_cut hq
      obtain ⟨w, rfl⟩ := quotedBody_closed hbody
      refine ⟨w, by simpa using hcs, fun more => ?_⟩
      have hq' := quotedBody_append_of_some more hbody
      rw [List.append_assoc] at hq'
      exact joinedStrings_of_body hq'

theorem joinedStrings_not_plus (h : joinedStrings cs = (.ok s, rest)) (after : List Char) :
    skipGap false rest ≠ '+' :: after := by
  fun_induction joinedStrings cs generalizing s with
  | case1 => cases h
  | case2 cs first rest' hq after' hp body hb r rest'' hj ih =>
      obtain ⟨hr, rfl⟩ := Prod.mk.inj h
      cases r with
      | error => cases hr
      | ok more => exact ih hj
  | case3 => cases h
  | case4 cs first rest' hq hp =>
      cases h
      exact hp after

/-! ## What is read -/

theorem ReadsToken.readToken (h : ReadsToken cs t rest) : readToken cs = (t, rest) := by
  cases h with
  | mark hm => simp [DotLang.readToken, hm]
  | arrow => rfl
  | line => rfl
  | string hj =>
      have hm : Mark.ofChar? '"' = none := rfl
      simp [DotLang.readToken, hm, readString, hj]
  | html hb =>
      have hm : Mark.ofChar? '<' = none := rfl
      simp [DotLang.readToken, hm, readHtml, hb]
  | word hc hw => rw [readToken_of_isIdStart hc, hw]
  | numeral hs hr hw =>
      rw [(readToken_of_startsNumeral hs).2, readNumeral_of_not_wordAhead hr hw]
  | signed hc hr =>
      have hm : Mark.ofChar? '-' = none := rfl
      simp [DotLang.readToken, hm, readDash_of_digit hc hr]

theorem readsToken_of_dash (h : readDash cs = (t, rest)) (ht : t.Inner) :
    ReadsToken ('-' :: cs) t rest := by
  cases cs with
  | nil =>
      cases h
      exact absurd rfl (ht.not_fault _)
  | cons c cs =>
      simp only [readDash] at h
      split at h
      · next hc =>
          cases h
          exact hc ▸ .arrow
      · split at h
        · next hc =>
            cases h
            exact hc ▸ .line
        · split at h
          · next hc =>
              cases h
              exact .signed (by simpa using hc) rfl
          · cases h
            exact absurd rfl (ht.not_fault _)

theorem readsToken_of_numeral (hs : startsNumeral (c :: cs) = true)
    (h : readNumeral (c :: cs) = (t, rest)) (ht : t.Inner) : ReadsToken (c :: cs) t rest := by
  rcases hr : readNumber (c :: cs) with ⟨number, rest'⟩
  by_cases hw : WordAhead rest'
  · obtain ⟨f, hf⟩ := readNumeral_of_wordAhead hr hw
    rw [hf] at h
    cases h
    exact absurd rfl (ht.not_fault _)
  · rw [readNumeral_of_not_wordAhead hr hw] at h
    cases h
    exact .numeral hs hr hw

theorem readsToken_of_readToken (h : readToken cs = (t, rest)) (ht : t.Inner) :
    ReadsToken cs t rest := by
  cases cs with
  | nil =>
      cases h
      exact absurd rfl ht.not_finish
  | cons c cs =>
      simp only [readToken] at h
      split at h
      · next hm =>
          cases h
          exact .mark hm
      · split at h
        · next hc =>
            simp only [readString, List.tail_cons] at h
            split at h
            · next hj =>
                cases h
                exact hc ▸ .string hj
            · cases h
              exact absurd rfl (ht.not_fault _)
        · split at h
          · next hc =>
              simp only [readHtml, List.tail_cons] at h
              split at h
              · next hb =>
                  cases h
                  exact hc ▸ .html hb
              · cases h
                exact absurd rfl (ht.not_fault _)
          · split at h
            · next hc => exact hc ▸ readsToken_of_dash h ht
            · split at h
              · next hc =>
                  cases h
                  exact .word hc rfl
              · split at h
                · next hs => exact readsToken_of_numeral hs h ht
                · cases h
                  exact absurd rfl (ht.not_fault _)

theorem readToken_iff (ht : t.Inner) : readToken cs = (t, rest) ↔ ReadsToken cs t rest :=
  ⟨fun h => readsToken_of_readToken h ht, ReadsToken.readToken⟩

theorem Lexer.readsToken_next {l : Lexer} (ht : l.next.1.Inner) :
    ReadsToken l.toToken.ahead l.next.1 l.next.2.ahead := by
  refine readsToken_of_readToken (Prod.ext rfl ?_) ht
  rw [ahead_next, ← ahead_toToken]

/-- A token of a text is read from a text that begins with no blank. -/
theorem Lexer.exists_readsToken {l : Lexer} (h : t ∈ l.lexemes.map Lexeme.token) (ht : t.Inner) :
    ∃ c cs rest, isBlank c = false ∧ ReadsToken (c :: cs) t rest := by
  fun_induction Lexer.lexemes l with
  | case1 l hl =>
      have he : t = .finish := by simpa using h
      exact absurd he ht.not_finish
  | case2 l hl ih =>
      rcases List.mem_cons.1 h with he | h
      · obtain ⟨c, cs, hc⟩ := List.exists_cons_of_ne_nil hl
        have he : t = l.next.1 := he
        subst he
        have hread := readsToken_next ht
        rw [hc] at hread
        rw [ahead_toToken] at hc
        exact ⟨c, cs, _, skipGap_head_not_blank hc, hread⟩
      · exact ih h

/-! ## What stands behind a token -/

/-- The character, directly behind the token, does not leave it as it is: it goes on a
word or a numeral, or it makes a numeral without a sign a fault. -/
def Token.runsInto : Token → Char → Bool
  | .keyword _, c | .id ⟨_, .plain⟩, c => isIdChar c
  | .id ⟨v, .numeral⟩, c =>
      c.isDigit || (c == '.' && ! v.toList.contains '.') ||
        (isIdStart c && v.toList.head? != some '-')
  | _, _ => false

/-- The token ends in front of the text: the text does not go on a word or a numeral,
and joins no string. -/
structure Token.StopsAt (t : Token) (cs : List Char) : Prop where
  first : ∀ c, cs.head? = some c → t.runsInto c = false
  not_joined : ∀ v, t = .id (.quoted v) → ∀ after, skipGap false cs ≠ '+' :: after

theorem Token.runsInto_ofWord (w : List Char) (c : Char) :
    (Token.ofWord w).runsInto c = isIdChar c := by
  unfold Token.ofWord
  split <;> rfl

theorem Token.ofWord_ne_quoted (w : List Char) (v : String) : Token.ofWord w ≠ .id (.quoted v) := by
  unfold Token.ofWord
  split
  · simp
  · simp [Id.plain, Id.quoted]

theorem Token.runsInto_numeral {v : String} {d : Char} :
    (Token.id ⟨v, .numeral⟩).runsInto d = false ↔
      (d.isDigit = false ∧ (d = '.' → '.' ∈ v.toList)) ∧
        (v.toList.head? ≠ some '-' → isIdStart d = false) := by
  simp only [Token.runsInto, Bool.or_eq_false_iff, Bool.and_eq_false_imp, beq_iff_eq,
    Bool.not_eq_false', List.contains_iff_mem, bne_eq_false_iff_eq]
  refine and_congr_right fun _ => ⟨fun h hsign => ?_, fun h hd => ?_⟩
  · exact Bool.eq_false_iff.2 fun hd => hsign (h hd)
  · exact Decidable.not_not.1 fun hsign => by simp [h hsign] at hd

/-- Where a token was read, it ends. -/
theorem ReadsToken.stops (h : ReadsToken cs t rest) : t.StopsAt rest := by
  cases h with
  | mark | arrow | line | html => exact ⟨fun _ _ => rfl, fun v hv => by cases hv⟩
  | string hj => exact ⟨fun _ _ => rfl, fun _ _ => joinedStrings_not_plus hj⟩
  | @word c cs w rest hc hw =>
      refine ⟨fun d hd => ?_, fun v hv => absurd hv (Token.ofWord_ne_quoted w v)⟩
      rw [Token.runsInto_ofWord]
      exact (readWord_iff.1 hw).2.2 d hd
  | numeral hs hr hw =>
      refine ⟨fun d hd => Token.runsInto_numeral.2 ⟨?_, fun _ => ?_⟩, fun v hv => by cases hv⟩
      · simpa using (readNumber_iff.1 hr).2.stops d hd
      · simpa [WordAhead, hd] using hw
  | signed hc hr =>
      refine ⟨fun d hd => Token.runsInto_numeral.2 ⟨?_, fun hsign => ?_⟩, fun v hv => by cases hv⟩
      · simpa using (readNumber_iff.1 hr).2.stops d hd
      · simp at hsign

/-- The same token is read in front of any text at which it ends. -/
theorem ReadsToken.replace (h : ReadsToken (c :: cs) t rest) :
    ∃ w, cs = w ++ rest ∧ ∀ more, t.StopsAt more → ReadsToken (c :: (w ++ more)) t more := by
  cases h with
  | mark hm => exact ⟨[], rfl, fun _ _ => .mark hm⟩
  | arrow => exact ⟨['>'], rfl, fun _ _ => .arrow⟩
  | line => exact ⟨['-'], rfl, fun _ _ => .line⟩
  | string hj =>
      obtain ⟨w, rfl, hw⟩ := joinedStrings_replace hj
      refine ⟨w ++ ['"'], by simp, fun more hm => .string ?_⟩
      rw [List.append_assoc, List.singleton_append, hw, goOn_end (hm.not_joined _ rfl)]
  | @html cs s rest hb =>
      obtain ⟨rfl, hs⟩ := htmlBody_iff.1 hb
      refine ⟨s ++ ['>'], by simp, fun more _ => .html (htmlBody_iff.2 ⟨by simp, hs⟩)⟩
  | @word _ _ w _ hc hw =>
      rw [readWord_cons hc] at hw
      cases hw
      refine ⟨_, List.takeWhile_append_dropWhile.symm, fun more hm => .word hc ?_⟩
      refine readWord_iff.2 ⟨rfl, by simp [isIdChar, hc, List.all_takeWhile], fun d hd => ?_⟩
      rw [← Token.runsInto_ofWord]
      exact hm.first d hd
  | @numeral _ _ number _ hs hr hw =>
      have hn := isNumber_of_startsNumeral hs hr
      obtain ⟨he, hread⟩ := readNumber_iff.1 hr
      obtain ⟨tail, rfl⟩ := readNumber_cons (digit_or_point_of_startsNumeral hs) hr
      refine ⟨tail, (List.cons.inj he).2, fun more hm => ?_⟩
      have hstop : ∀ d, more.head? = some d → _ := fun d hd =>
        Token.runsInto_numeral.1 (hm.first d hd)
      have hread' := hread.replace fun d hd => by simpa using (hstop d hd).1
      refine .numeral (hn.startsNumeral more) (readNumber_iff.2 ⟨rfl, hread'⟩) fun hword => ?_
      obtain ⟨d, hd, hstart⟩ := (Option.any_eq_true ..).1 hword
      have hno := (hstop d hd).2 (by simpa using hn.not_sign)
      rw [hstart] at hno
      cases hno
  | @signed d _ number _ hc hr =>
      obtain ⟨he, hread⟩ := readNumber_iff.1 hr
      obtain ⟨tail, rfl⟩ := readNumber_cons hc hr
      refine ⟨d :: tail, he, fun more hm => .signed hc (readNumber_iff.2 ⟨rfl, ?_⟩)⟩
      exact hread.replace fun e he => by
        simpa using (Token.runsInto_numeral.1 (hm.first e he)).1

/-- The first character of a token starts no gap. -/
theorem ReadsToken.startsToken (h : ReadsToken (c :: cs) t rest) (hb : isBlank c = false) :
    StartsToken c := by
  cases h with
  | mark hm => exact startsToken_mark hm
  | arrow | line | string | html | signed => exact ⟨by decide, by decide, by decide, by decide⟩
  | word hc => exact ⟨hb, ne_of_isIdStart hc (by decide), ne_of_isIdStart hc (by decide),
      ne_of_isIdStart hc (by decide)⟩
  | numeral hs => exact (readToken_of_startsNumeral hs).1

end

end DotLang
