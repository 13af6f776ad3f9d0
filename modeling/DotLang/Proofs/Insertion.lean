import DotLang.Proofs.TokenForms
import DotLang.Proofs.Progress
/-!
# Blanks and comments between tokens

A blank or a closed comment in front of a token is passed with the gap that stands
there, and the tokens of the text stay the same.  Three things could go wrong.

* A gap depends on the line before it.  A token begins with no blank, so behind it
  the line is not blank, whatever stood before it on the line.  Hence the tokens depend
  on what is ahead of the first one only (`Lexer.tokens_congr`).
* A string looks over the gap behind it for a plus sign.  Behind the gap there is the
  next token, and no token begins with a plus sign.
* A token ends where the next character does not go on it.  This one does go wrong:
  the blanks beyond ASCII are characters of words.  Directly behind a word such a blank
  belongs to the word, and directly behind a numeral without a sign it is a fault.

`tokens_insert_iff` says that nothing else goes wrong.
-/

namespace DotLang

open Text

/-- The text with `more` in front of the character with the index `n`. -/
def insertAt (text : List Char) (n : Nat) (more : List Char) : List Char :=
  text.take n ++ more ++ text.drop n

/-- One blank, or one comment that is closed. -/
inductive Filling : List Char → Prop
  | blank {c : Char} (hc : isBlank c = true) : Filling [c]
  | comment {body : List Char} (inside : ¬ ['*', '/'] <:+: body) :
      Filling ('/' :: '*' :: (body ++ ['*', '/']))

/-- A word, or a numeral without a sign: a character of a word must not follow it. -/
def Token.runsOn : Token → Bool
  | .keyword _ | .id ⟨_, .plain⟩ => true
  | .id ⟨v, .numeral⟩ => v.toList.head? != some '-'
  | _ => false

/-- The token ends at the index, and what is put there is a character of a word: a
blank beyond ASCII. -/
def Lexeme.RunsInto (x : Lexeme) (n : Nat) (more : List Char) : Prop :=
  x.stop = n ∧ x.token.runsOn = true ∧ ∃ c, more = [c] ∧ 0x80 ≤ c.toNat

section Filling
variable {w cs more : List Char} {n : Nat} {c : Char}

theorem insertAt_append (h : w.length ≤ n) :
    insertAt (w ++ cs) n more = w ++ insertAt cs (n - w.length) more := by
  simp [insertAt, List.take_append, List.drop_append, List.take_of_length_le h,
    List.drop_of_length_le h]

theorem insertAt_cons (h : 0 < n) : insertAt (c :: cs) n more = c :: insertAt cs (n - 1) more :=
  insertAt_append (w := [c]) h

theorem Filling.isGap (h : Filling more) (b : Bool) (behind : List Char) : IsGap b more behind := by
  cases h with
  | blank hc => exact .blank hc .nil
  | comment inside =>
      have hgap : IsGap b (_ ++ []) behind := .comment (.block inside) .nil
      rwa [List.append_nil] at hgap

theorem Filling.ne_nil (h : Filling more) : more ≠ [] := by
  cases h <;> simp

theorem runsInto_blank (hc : isBlank c = true) (t : Token) :
    t.runsInto c = (t.runsOn && decide (0x80 ≤ c.toNat)) := by
  have hn : c.toNat ≤ 0x20 ∨ 0x80 ≤ c.toNat := by
    simp [isBlank] at hc
    omega
  have hdigit : c.isDigit = false := by
    refine Bool.eq_false_iff.2 fun hd => ?_
    have := isDigit_toNat hd
    omega
  have hpoint : c ≠ '.' := by
    rintro rfl
    revert hc
    decide
  have hstart : isIdStart c = decide (0x80 ≤ c.toNat) := by
    have halpha : c.isAlpha = false := by
      refine Bool.eq_false_iff.2 fun ha => ?_
      have := isAlpha_toNat ha
      omega
    have hline : c ≠ '_' := by
      rintro rfl
      revert hc
      decide
    simp [isIdStart, halpha, hline]
  unfold Token.runsInto Token.runsOn
  split <;> simp [isIdChar, hdigit, beq_eq_false_iff_ne.2 hpoint, hstart, Bool.and_comm]

theorem Filling.runsInto_iff (h : Filling more) (t : Token) :
    (∀ c, more.head? = some c → t.runsInto c = false) ↔
      ¬ (t.runsOn = true ∧ ∃ c, more = [c] ∧ 0x80 ≤ c.toNat) := by
  cases h with
  | blank hc => simp [runsInto_blank hc]
  | comment inside =>
      have hslash : t.runsInto '/' = false := by
        unfold Token.runsInto
        split
        · decide
        · decide
        · simp [show isIdStart '/' = false by decide]
        · rfl
      simp [hslash]

end Filling

/-! ## A character of a word behind a word -/

section RunsOn
variable {c d : Char} {w cs rest : List Char} {t : Token}

theorem beyond_ascii (hd : 0x80 ≤ d.toNat) : isIdStart d = true ∧ d.isDigit = false ∧ d ≠ '.' := by
  refine ⟨by simp [isIdStart, hd], Bool.eq_false_iff.2 fun hdigit => ?_, ?_⟩
  · have := isDigit_toNat hdigit
    omega
  · rintro rfl
    revert hd
    decide

theorem ofChars?_beyond_ascii (hd : 0x80 ≤ d.toNat) (v u : List Char) :
    Keyword.ofChars? (v ++ d :: u) = none := by
  have hlower : d.toLower = d := by
    unfold Char.toLower
    rw [dif_neg]
    rintro ⟨_, hle⟩
    have hle : d.toNat ≤ 90 := hle
    omega
  refine List.find?_eq_none.2 fun k _ hk => ?_
  have hmem : d ∈ k.word.toList := by
    rw [eq_of_beq hk]
    exact List.mem_map.2 ⟨d, by simp, hlower⟩
  have hascii : k.word.toList.all (·.toNat < 0x80) = true := by
    cases k <;> decide
  have := List.all_eq_true.1 hascii d hmem
  simp at this
  omega

/-- The longer word is another one. -/
theorem ofWord_beyond_ascii (hd : 0x80 ≤ d.toNat) (v u : List Char) :
    Token.ofWord (v ++ d :: u) ≠ Token.ofWord v := by
  have hword : Token.ofWord (v ++ d :: u) = .id (.plain (String.ofList (v ++ d :: u))) := by
    rw [Token.ofWord, ofChars?_beyond_ascii hd]
  rw [hword, Token.ofWord]
  split
  · simp
  · simp [Id.plain]

/-- Such a character directly behind a token on which it goes changes the token. -/
theorem ReadsToken.readToken_ne (h : ReadsToken (c :: cs) t rest) (hw : cs = w ++ rest)
    (hr : t.runsOn = true) (hd : 0x80 ≤ d.toNat) :
    (DotLang.readToken (c :: (w ++ d :: rest))).1 ≠ t := by
  obtain ⟨hstart, hdigit, hpoint⟩ := beyond_ascii hd
  cases h with
  | mark | arrow | line | string | html => cases hr
  | @word _ _ v _ hc hv =>
      obtain ⟨he, hall, _⟩ := readWord_iff.1 hv
      obtain rfl : c :: w = v := List.append_cancel_right (hw ▸ he)
      have hlonger : (readWord (c :: (w ++ d :: rest))).1 =
          c :: w ++ d :: rest.takeWhile isIdChar := by
        have htake : ((c :: w) ++ d :: rest).takeWhile isIdChar =
            c :: w ++ (d :: rest).takeWhile isIdChar :=
          List.takeWhile_append_of_pos (List.all_eq_true.1 hall)
        rwa [List.takeWhile_cons_of_pos (by simp [isIdChar, hstart])] at htake
      rw [readToken_of_isIdStart hc, hlonger]
      exact ofWord_beyond_ascii hd _ _
  | @numeral _ _ number _ hs hn hword =>
      obtain ⟨he, hread⟩ := readNumber_iff.1 hn
      obtain rfl : c :: w = number := List.append_cancel_right (hw ▸ he)
      have hs' := (isNumber_of_startsNumeral hs hn).startsNumeral (d :: rest)
      have hread' : ReadsNumber (c :: w) (d :: rest) := hread.replace fun e he => by
        cases he
        exact ⟨hdigit, fun hp => absurd hp hpoint⟩
      obtain ⟨f, hf⟩ := readNumeral_of_wordAhead (readNumber_iff.2 ⟨rfl, hread'⟩)
        (show WordAhead (d :: rest) by simpa [WordAhead] using hstart)
      rw [List.cons_append] at hs' hf
      rw [(readToken_of_startsNumeral hs').2, hf]
      simp
  | signed hc hn => simp [Token.runsOn] at hr

end RunsOn

namespace Lexer

/-- The lexer with `more` put into the text ahead, in front of the character with the
index `n`. -/
def insert (l : Lexer) (n : Nat) (more : List Char) : Lexer :=
  ⟨l.behind, insertAt l.ahead (n - l.pos) more, l.start⟩

section Moving
variable {l : Lexer} {w rest : List Char} {n : Nat}

theorem ahead_insert (more : List Char) (h : l.ahead = w ++ rest) (hn : (l.moveTo rest).pos ≤ n) :
    (l.insert n more).ahead = w ++ ((l.moveTo rest).insert n more).ahead := by
  rw [moveTo_append h] at hn ⊢
  simp only [pos, List.length_append, List.length_reverse] at hn
  have hle : w.length ≤ n - l.behind.length := by omega
  show insertAt l.ahead (n - l.behind.length) more =
    w ++ insertAt rest (n - (w.reverse ++ l.behind).length) more
  rw [h, insertAt_append hle, List.length_append, List.length_reverse, Nat.sub_sub, Nat.add_comm]

theorem moveTo_insert (more : List Char) (h : l.ahead = w ++ rest) (hn : (l.moveTo rest).pos ≤ n) :
    (l.insert n more).moveTo ((l.moveTo rest).insert n more).ahead =
      (l.moveTo rest).insert n more := by
  rw [moveTo_append (ahead_insert more h hn), moveTo_append h]
  rfl

end Moving

/-! ## What the tokens depend on -/

/-- The rest behind a token is the same, whatever stood before the token, and so is
whether its line is blank there. -/
theorem next_congr {l m : Lexer} {c : Char} {cs : List Char} (hl : l.toToken.ahead = c :: cs)
    (hm : m.toToken.ahead = c :: cs) :
    l.next.1 = m.next.1 ∧ l.next.2.toToken.ahead = m.next.2.toToken.ahead := by
  have hblank : isBlank c = false := by
    rw [ahead_toToken] at hl
    exact skipGap_head_not_blank hl
  have behind : ∀ {k : Lexer}, k.toToken.ahead = c :: cs → k.next.1 = (readToken (c :: cs)).1 ∧
      k.next.2 = k.toToken.moveTo (readToken (c :: cs)).2 := by
    intro k hk
    rw [← hk]
    exact ⟨rfl, rfl⟩
  obtain ⟨w, hw⟩ : (readToken (c :: cs)).2 <:+ cs := by
    refine (List.suffix_cons_iff.1 (readToken_suffix (c :: cs))).resolve_left fun he => ?_
    exact absurd (congrArg List.length he) (Nat.ne_of_lt readToken_length)
  have hcs : c :: cs = (c :: w) ++ (readToken (c :: cs)).2 := by rw [List.cons_append, hw]
  have hline : ∀ b b', lineBlankAfter b (c :: w) = lineBlankAfter b' (c :: w) := by
    intro b b'
    simp [lineBlankAfter, hblank]
  refine ⟨(behind hl).1.trans (behind hm).1.symm, ?_⟩
  rw [ahead_toToken, ahead_toToken, (behind hl).2, (behind hm).2,
    lineBlank_moveTo (hl.trans hcs), lineBlank_moveTo (hm.trans hcs),
    moveTo_append (hl.trans hcs), moveTo_append (hm.trans hcs), hline]

/-- The tokens depend on what is ahead of the first one only. -/
theorem tokens_congr {l m : Lexer} (h : l.toToken.ahead = m.toToken.ahead) :
    l.lexemes.map Lexeme.token = m.lexemes.map Lexeme.token := by
  fun_induction lexemes l generalizing m with
  | case1 l hl =>
      rw [lexemes_of_nil (h ▸ hl)]
      rfl
  | case2 l hl ih =>
      obtain ⟨c, cs, hc⟩ := List.exists_cons_of_ne_nil hl
      have hm : m.toToken.ahead ≠ [] := by rwa [← h]
      obtain ⟨ht, hahead⟩ := next_congr hc (h ▸ hc)
      rw [lexemes_of_token hm, List.map_cons, List.map_cons, ih hahead]
      exact congrArg (· :: _) ht

/-! ## Indexes -/

theorem pos_le_toToken (l : Lexer) : l.pos ≤ l.toToken.pos := (gapAt_toToken l).1

/-- No token starts before the first one, and every token takes a character. -/
theorem start_of_mem {l : Lexer} {y : Lexeme} (h : y ∈ l.lexemes) :
    l.toToken.pos ≤ y.start ∧ (y.token ≠ .finish → y.start < y.stop) := by
  fun_induction lexemes l with
  | case1 l hl =>
      obtain rfl := List.mem_singleton.1 h
      exact ⟨Nat.le_refl _, fun hne => absurd rfl hne⟩
  | case2 l hl ih =>
      have hless : l.toToken.pos < l.next.2.pos :=
        start_lt_pos (mt next_eq_finish_iff.1 hl)
      rcases List.mem_cons.1 h with rfl | h
      · exact ⟨Nat.le_refl _, fun _ => hless⟩
      · refine ⟨?_, (ih h).2⟩
        have := (ih h).1
        have := pos_le_toToken l.next.2
        omega

/-! ## In front of the first token -/

section Inserting
variable {l : Lexer} {more : List Char} {n : Nat}

/-- The text of the first token, and what it depends on. -/
theorem exists_text_next (ht : l.next.1.Inner) : ∃ c w, StartsToken c ∧
    l.toToken.ahead = (c :: w) ++ l.next.2.ahead ∧
      ReadsToken (c :: (w ++ l.next.2.ahead)) l.next.1 l.next.2.ahead ∧
      ∀ more, l.next.1.StopsAt more → ReadsToken (c :: (w ++ more)) l.next.1 more := by
  obtain ⟨c, cs, hc⟩ := List.exists_cons_of_ne_nil (mt next_eq_finish_iff.2 ht.not_finish)
  have hread := readsToken_next ht
  rw [hc] at hread
  have hblank : isBlank c = false := by
    rw [ahead_toToken] at hc
    exact skipGap_head_not_blank hc
  obtain ⟨w, rfl, hw⟩ := hread.replace
  exact ⟨c, w, hread.startsToken hblank, hc, hread, hw⟩

/-- The gap in front of the first token is one in front of anything. -/
theorem exists_gap_toToken (ht : l.next.1.Inner) : ∃ gap c cs, l.ahead = gap ++ c :: cs ∧
    skipGap l.lineBlank l.ahead = c :: cs ∧ StartsToken c ∧
      ∀ behind, IsGap l.lineBlank gap behind := by
  obtain ⟨c, w, starts, hc, _⟩ := exists_text_next ht
  obtain ⟨gap, he, hgap⟩ := exists_gap l.lineBlank l.ahead
  rw [ahead_toToken] at hc
  rw [hc] at he hgap
  refine ⟨gap, c, _, he, hc, starts, hgap.in_front ?_⟩
  rintro rfl
  exact absurd starts.not_blank (by decide)

/-- Directly in front of the first token the filling is passed with the gap. -/
theorem ahead_toToken_insert (ht : l.next.1.Inner) (hm : Filling more) :
    (l.insert l.toToken.pos more).toToken.ahead = l.toToken.ahead := by
  obtain ⟨gap, c, cs, he, hc, starts, hgap⟩ := exists_gap_toToken ht
  have hpos : l.toToken.pos = (l.moveTo (c :: cs)).pos := by
    rw [← hc]
    rfl
  have hahead : (l.insert l.toToken.pos more).ahead = gap ++ (more ++ c :: cs) := by
    rw [hpos, ahead_insert more he (Nat.le_refl _), moveTo_append he]
    simp [insert, insertAt]
  obtain ⟨b, hb⟩ := (hgap (more ++ c :: cs)).skipGap
  rw [ahead_toToken, ahead_toToken, hahead, hc]
  exact hb.trans ((hm.isGap b (c :: cs)).skipGap_cons starts.not_blank starts.not_hash
    starts.not_slash)

/-- Further on it leaves the gap and the first character of the token as they are. -/
theorem toToken_insert (ht : l.next.1.Inner) (hn : l.toToken.pos < n) :
    (l.insert n more).toToken = l.toToken.insert n more := by
  obtain ⟨gap, c, cs, he, hc, starts, hgap⟩ := exists_gap_toToken ht
  have hpos : l.toToken.pos = (l.moveTo (c :: cs)).pos := by
    rw [← hc]
    rfl
  rw [hpos] at hn
  have hskip : skipGap l.lineBlank (l.insert n more).ahead =
      ((l.moveTo (c :: cs)).insert n more).ahead := by
    have hfirst : ((l.moveTo (c :: cs)).insert n more).ahead = c :: insertAt cs
        (n - (l.moveTo (c :: cs)).pos - 1) more := by
      rw [← insertAt_cons (by omega), moveTo_append he]
      rfl
    rw [ahead_insert more he (Nat.le_of_lt hn), hfirst]
    exact (hgap _).skipGap_cons starts.not_blank starts.not_hash starts.not_slash
  have hmove := moveTo_insert more he (Nat.le_of_lt hn)
  rw [← hskip, ← hc] at hmove
  have htoken : ∀ k : Lexer, k.toToken = { k.moveTo (skipGap k.lineBlank k.ahead) with
      start := (k.moveTo (skipGap k.lineBlank k.ahead)).pos } := fun _ => rfl
  have hline : (l.insert n more).lineBlank = l.lineBlank := rfl
  rw [htoken, htoken, hline, hmove]
  rfl

theorem head_toToken_insert (ht : l.next.1.Inner) (hm : Filling more) (hn : l.toToken.pos ≤ n) :
    ∃ c cs, (l.insert n more).toToken.ahead = c :: cs ∧ StartsToken c := by
  obtain ⟨c, w, starts, hc, _⟩ := exists_text_next ht
  rcases Nat.eq_or_lt_of_le hn with rfl | hn
  · exact ⟨c, _, (ahead_toToken_insert ht hm).trans hc, starts⟩
  · refine ⟨c, insertAt (w ++ l.next.2.ahead) (n - l.toToken.pos - 1) more, ?_, starts⟩
    rw [toToken_insert ht hn, ← insertAt_cons (by omega), ← List.cons_append, ← hc]
    rfl

/-! ## Behind the first token -/

/-- A plus sign behind a gap is there on every line. -/
theorem skipGap_plus {b : Bool} {cs after : List Char} (h : skipGap false cs = '+' :: after) :
    skipGap b cs = '+' :: after := by
  obtain ⟨gap, he, hgap⟩ := exists_gap false cs
  rw [h] at he hgap
  rw [he]
  exact (hgap.mono (by simp)).skipGap_cons (by decide) (by decide) (by decide)

/-- The token ends in front of the text with the filling, if the filling does not run
into it. -/
theorem stopsAt_insert (ht : l.next.1.Inner) (hnext : l.next.2.next.1.Inner) (hm : Filling more)
    (hn : l.next.2.toToken.pos ≤ n)
    (hno : ¬ Lexeme.RunsInto ⟨l.next.1, l.toToken.pos, l.next.2.pos⟩ n more) :
    l.next.1.StopsAt (l.next.2.insert n more).ahead where
  first d hd := by
    change (insertAt l.next.2.ahead (n - l.next.2.pos) more).head? = some d at hd
    rcases Nat.eq_or_lt_of_le (Nat.le_trans (pos_le_toToken l.next.2) hn) with hp | hp
    · refine (hm.runsInto_iff l.next.1).2 (fun h => hno ⟨hp, h⟩) d ?_
      obtain ⟨c, tail, rfl⟩ := List.exists_cons_of_ne_nil hm.ne_nil
      simpa [hp, insertAt] using hd
    · refine (readsToken_next ht).stops.first d ?_
      have hne : l.next.2.ahead ≠ [] := by
        intro hnil
        have hfinish := mt next_eq_finish_iff.2 hnext.not_finish
        rw [ahead_toToken, hnil, skipGap_nil] at hfinish
        exact hfinish rfl
      obtain ⟨c, rest, hc⟩ := List.exists_cons_of_ne_nil hne
      rw [hc, insertAt_cons (by omega)] at hd
      rwa [hc]
  not_joined v hv after he := by
    obtain ⟨c, cs, hc, starts⟩ := head_toToken_insert hnext hm hn
    rw [ahead_toToken] at hc
    have hplus := hc.symm.trans (skipGap_plus he)
    exact starts.not_plus (List.cons.inj hplus).1

/-- Behind the first token the filling leaves it, and changes the text behind it. -/
theorem insert_behind (more : List Char) {w : List Char} (ht : l.next.1.Inner)
    (hw : l.toToken.ahead = w ++ l.next.2.ahead) (hn : l.next.2.pos ≤ n) :
    (l.insert n more).toToken.ahead = w ++ (l.next.2.insert n more).ahead ∧
      (l.insert n more).toToken.moveTo (l.next.2.insert n more).ahead =
        l.next.2.insert n more := by
  have hless : l.toToken.pos < l.next.2.pos := start_lt_pos ht.not_finish
  have hpos : (l.toToken.moveTo l.next.2.ahead).pos ≤ n := by rwa [← moveTo_next]
  have hahead := ahead_insert more hw hpos
  have hmove := moveTo_insert more hw hpos
  rw [← moveTo_next] at hahead hmove
  rw [toToken_insert ht (Nat.lt_of_lt_of_le hless hn)]
  exact ⟨hahead, hmove⟩

theorem next_insert (ht : l.next.1.Inner) (hn : l.next.2.pos ≤ n)
    (stops : l.next.1.StopsAt (l.next.2.insert n more).ahead) :
    (l.insert n more).next = (l.next.1, l.next.2.insert n more) := by
  obtain ⟨c, w, _, hw, _, hreplace⟩ := exists_text_next ht
  obtain ⟨hahead, hmove⟩ := insert_behind more ht hw hn
  have hread : readToken (l.insert n more).toToken.ahead = (l.next.1, _) :=
    (congrArg readToken hahead).trans (hreplace _ stops).readToken
  show ((readToken (l.insert n more).toToken.ahead).1,
    (l.insert n more).toToken.moveTo (readToken (l.insert n more).toToken.ahead).2) = _
  rw [hread, hmove]

/-- Directly behind a word it is read with the word, or it is a fault. -/
theorem next_insert_ne {c : Char} (ht : l.next.1.Inner) (hr : l.next.1.runsOn = true)
    (hc : 0x80 ≤ c.toNat) : (l.insert l.next.2.pos [c]).next.1 ≠ l.next.1 := by
  obtain ⟨d, w, _, hw, hread, _⟩ := exists_text_next ht
  have hhere : (l.next.2.insert l.next.2.pos [c]).ahead = c :: l.next.2.ahead := by
    simp [insert, insertAt]
  have hahead := (insert_behind [c] ht hw (Nat.le_refl _)).1
  rw [hhere] at hahead
  show (readToken (l.insert l.next.2.pos [c]).toToken.ahead).1 ≠ _
  rw [hahead]
  exact hread.readToken_ne rfl hr hc

/-! ## All tokens -/

theorem inner_next {x : Lexeme} (sound : ∀ y ∈ l.lexemes, ∀ f, y.token ≠ .fault f)
    (hx : x ∈ l.lexemes) (hfinish : x.token ≠ .finish) : l.next.1.Inner := by
  have hl : l.toToken.ahead ≠ [] := by
    intro hl
    rw [lexemes_of_nil hl] at hx
    obtain rfl := List.mem_singleton.1 hx
    exact hfinish rfl
  rw [lexemes_of_token hl] at sound
  exact ⟨mt next_eq_finish_iff.1 hl, sound _ List.mem_cons_self⟩

/-- The tokens change exactly if the filling runs into the token in front of it. -/
theorem tokens_insert {x : Lexeme} (sound : ∀ y ∈ l.lexemes, ∀ f, y.token ≠ .fault f)
    (hx : x ∈ l.lexemes) (hfinish : x.token ≠ .finish) (hm : Filling more) :
    (l.insert x.start more).lexemes.map Lexeme.token = l.lexemes.map Lexeme.token ↔
      ¬ ∃ y ∈ l.lexemes, y.RunsInto x.start more := by
  have ht := inner_next sound hx hfinish
  fun_induction lexemes l with
  | case1 l hl => exact absurd (next_eq_finish_iff.2 hl) ht.not_finish
  | case2 l hl ih =>
      rcases List.mem_cons.1 hx with rfl | hx
      · -- The filling stands in front of the first token, and no token ends there.
        have hcongr := tokens_congr (ahead_toToken_insert ht hm)
        rw [lexemes_of_token hl] at hcongr
        refine iff_of_true hcongr ?_
        rintro ⟨y, hy, hstop, hruns, _⟩
        rw [← lexemes_of_token hl] at hy
        obtain ⟨hstart, htakes⟩ := start_of_mem hy
        have hless := htakes fun hy => by simp [hy, Token.runsOn] at hruns
        simp only at hstop
        omega
      · have hn := (start_of_mem hx).1
        have sound' : ∀ y ∈ l.next.2.lexemes, ∀ f, y.token ≠ .fault f :=
          fun y hy => sound y (List.mem_cons_of_mem _ hy)
        have ht' := inner_next sound' hx hfinish
        simp only [List.mem_cons, exists_eq_or_imp]
        by_cases hr : Lexeme.RunsInto ⟨l.next.1, l.toToken.pos, l.next.2.pos⟩ x.start more
        · refine iff_of_false (fun he => ?_) (fun h => h (Or.inl hr))
          obtain ⟨hstop, hruns, c, rfl, hc⟩ := hr
          have hhead := congrArg List.head? he
          rw [head?_tokens, ← hstop] at hhead
          exact next_insert_ne ht hruns hc (Option.some.inj hhead)
        · have hnext := next_insert ht (Nat.le_trans (pos_le_toToken _) hn)
            (stopsAt_insert ht ht' hm hn hr)
          have hl' : (l.insert x.start more).toToken.ahead ≠ [] := by
            refine mt next_eq_finish_iff.2 ?_
            rw [hnext]
            exact ht.not_finish
          rw [lexemes_of_token hl', hnext, List.map_cons, List.map_cons, List.cons_inj_right,
            or_iff_right hr]
          exact ih sound' hx ht'

end Inserting

end Lexer

/-- A blank or a comment in front of a token of a text without faults does not change
the tokens, unless it is a blank beyond ASCII directly behind a keyword, a plain ID or a
numeral without a sign. -/
theorem tokens_insert_iff {text more : List Char} {x : Lexeme}
    (sound : ∀ y ∈ lexemesOf text, ∀ f, y.token ≠ .fault f) (hx : x ∈ lexemesOf text)
    (hfinish : x.token ≠ .finish) (hm : Filling more) :
    (lexemesOf (insertAt text x.start more)).map Lexeme.token =
        (lexemesOf text).map Lexeme.token ↔
      ¬ ∃ y ∈ lexemesOf text, y.RunsInto x.start more :=
  Lexer.tokens_insert sound hx hfinish hm

/-- A comment with a double quote in it, directly behind a word. -/
theorem tokens_insert_comment :
    lexemesOf "a;".toList = [⟨.id (.plain "a"), 0, 1⟩, ⟨.mark .semicolon, 1, 2⟩, ⟨.finish, 2, 2⟩] ∧
      (lexemesOf (insertAt "a;".toList 1 "/* \" */".toList)).map Lexeme.token =
        (lexemesOf "a;".toList).map Lexeme.token :=
  have hlex : lexemesOf "a;".toList =
      [⟨.id (.plain "a"), 0, 1⟩, ⟨.mark .semicolon, 1, 2⟩, ⟨.finish, 2, 2⟩] := by decide +kernel
  have hmem : ⟨.mark .semicolon, 1, 2⟩ ∈ lexemesOf "a;".toList := by
    rw [hlex]
    simp
  have sound : ∀ y ∈ lexemesOf "a;".toList, ∀ f, y.token ≠ .fault f := by
    rw [hlex]
    simp
  have hm : Filling "/* \" */".toList :=
    .comment (show ¬ ['*', '/'] <:+: [' ', '"', ' '] by decide)
  ⟨hlex, (tokens_insert_iff sound hmem (by simp) hm).2 fun ⟨_, _, _, _, _, hc, _⟩ => by cases hc⟩

/-- A no-break space is a blank and a character of words.  Directly behind a word it
becomes part of it. -/
theorem blank_read_with_word :
    lexemesOf "a;".toList = [⟨.id (.plain "a"), 0, 1⟩, ⟨.mark .semicolon, 1, 2⟩, ⟨.finish, 2, 2⟩] ∧
      Filling ['\u00a0'] ∧
      (lexemesOf (insertAt "a;".toList 1 ['\u00a0'])).map Lexeme.token =
        [.id (.plain "a\u00a0"), .mark .semicolon, .finish] :=
  ⟨by decide +kernel, .blank (by decide), by decide +kernel⟩

end DotLang
