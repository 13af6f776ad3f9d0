import DotLang.Proofs.TokenForms
/-!
# Lexing a text below another

A second text is written below a first one, on a line of its own.  The line feed
between them ends a comment of one line, goes on no word and no numeral, and
joins no strings, so the lexer reads of the first text what it reads when that
text stands alone.  It comes to the second text at the start of a line, as it
does when that text stands alone, and so the tokens of the second text are the
same and stand further on.

One thing reaches across a line feed: a `/*` that is not closed.
`Lexer.endsOpen` asks for it along the recursion of the lexer.  A string that no
token follows could be joined by a `+` of the second text, and `EndsMarked` keeps
it out, as a file ends with a closing brace.
-/

namespace DotLang

open Text

/-! ## Open comments -/

/-- A `/*` stands here and is not closed. -/
def commentOpen : List Char → Bool
  | '/' :: '*' :: cs => blockOpen cs
  | _ => false

/-- The gap that stands here ends in a `/*` that is not closed. -/
def gapOpen (lineBlank : Bool) (cs : List Char) : Bool :=
  match _h : comment? lineBlank cs with
  | some rest => commentOpen cs || gapOpen false rest
  | none =>
      match cs with
      | [] => false
      | c :: rest => if isBlank c then gapOpen (lineBlank || c == '\n') rest else false
termination_by cs.length
decreasing_by
  · exact comment?_length _h
  · simp

/-- The gap behind the last token ahead ends in a `/*` that is not closed. -/
def Lexer.endsOpen (l : Lexer) : Bool :=
  if _h : l.toToken.ahead = [] then gapOpen l.lineBlank l.ahead else l.next.2.endsOpen
termination_by l.ahead.length
decreasing_by exact Lexer.next_length _h

/-- The text ends inside a `/*` comment. -/
def endsInComment (text : String) : Bool := (Lexer.ofText text.toList).endsOpen

example : endsInComment "graph \x7b \x7d /* a * / " = true := by decide +kernel
example : endsInComment "graph \x7b \"/*\" \x7d // /*" = false := by decide +kernel

theorem commentOpen_iff (cs : List Char) :
    commentOpen cs = true ↔ ∃ body, cs = '/' :: '*' :: body ∧ ¬ ['*', '/'] <:+: body := by
  unfold commentOpen
  split
  · next body =>
      rw [blockOpen_iff]
      exact ⟨fun h => ⟨body, rfl, h⟩, fun ⟨_, he, h⟩ => by cases he; exact h⟩
  · next hn => exact iff_of_false (by simp) fun ⟨body, he, _⟩ => hn body he

theorem gapOpen_suffix {b : Bool} {cs : List Char} (h : gapOpen b cs = true) :
    ∃ body, '/' :: '*' :: body <:+ cs ∧ ¬ ['*', '/'] <:+: body := by
  fun_induction gapOpen b cs with
  | case1 b cs rest hc ih =>
      rcases Bool.or_eq_true _ _ ▸ h with ho | ho
      · obtain ⟨body, rfl, hb⟩ := (commentOpen_iff cs).1 ho
        exact ⟨body, List.suffix_refl _, hb⟩
      · obtain ⟨body, hs, hb⟩ := ih ho
        exact ⟨body, hs.trans ((comment?_suffix hc).trans (List.tail_suffix cs)), hb⟩
  | case2 => cases h
  | case3 b c rest _ _ ih =>
      obtain ⟨body, hs, hb⟩ := ih h
      exact ⟨body, hs.trans (List.suffix_cons c rest), hb⟩
  | case4 => cases h

theorem Lexer.endsOpen_suffix {l : Lexer} (h : l.endsOpen = true) :
    ∃ body, '/' :: '*' :: body <:+ l.ahead ∧ ¬ ['*', '/'] <:+: body := by
  fun_induction Lexer.endsOpen l with
  | case1 l _ => exact gapOpen_suffix h
  | case2 l _ ih =>
      obtain ⟨body, hs, hb⟩ := ih h
      refine ⟨body, hs.trans ?_, hb⟩
      rw [ahead_next]
      exact (readToken_suffix _).trans (skipGap_suffix _ _)

/-- A text that ends inside a comment has a `/*` that no `*/` follows. -/
theorem endsInComment_suffix {text : String} (h : endsInComment text = true) :
    ∃ body, '/' :: '*' :: body <:+ text.toList ∧ ¬ ['*', '/'] <:+: body :=
  Lexer.endsOpen_suffix h

/-- An open comment runs to the end of the text. -/
theorem comment?_of_open {b : Bool} {cs : List Char} (h : commentOpen cs = true) :
    comment? b cs = some [] := by
  unfold commentOpen at h
  split at h
  · next cs => simp [comment?, afterBlock_of_open h]
  · cases h

/-! ## One step of a gap -/

section Step
variable {b : Bool} {cs rest : List Char}

theorem gapOpen_comment (h : comment? b cs = some rest) :
    gapOpen b cs = (commentOpen cs || gapOpen false rest) := by
  rw [gapOpen]
  split
  · next hc =>
      rw [h] at hc
      cases hc
      rfl
  · next hc =>
      rw [h] at hc
      cases hc

theorem gapOpen_blank {c : Char} (hb : isBlank c = true) :
    gapOpen b (c :: cs) = gapOpen (b || c == '\n') cs := by
  rw [gapOpen]
  split
  · next hc =>
      rw [comment?_eq_none (not_hash_of_blank hb) (not_slash_of_blank hb)] at hc
      cases hc
  · simp [hb]

end Step

/-! ## In front of a line feed

In this section `below` is the text of the lines that follow. -/

section Below
variable {below : List Char}

theorem takeWhile_line {p : Char → Bool} (hp : p '\n' = false) (cs : List Char) :
    (cs ++ '\n' :: below).takeWhile p = cs.takeWhile p := by
  induction cs with
  | nil => simp [hp]
  | cons c cs ih => simp only [List.cons_append, List.takeWhile_cons, ih]

/-! ## Gaps -/

/-- A comment that is closed, or that its line ends, is the same above other
lines. -/
theorem comment?_line {b : Bool} {cs rest : List Char} (h : comment? b cs = some rest)
    (ho : commentOpen cs = false) :
    comment? b (cs ++ '\n' :: below) = some (rest ++ '\n' :: below) := by
  obtain ⟨comment, rfl, whole⟩ := comment?_eq_some_iff.1 h
  have above : EndsLine rest → EndsLine (rest ++ '\n' :: below) := by
    intro ends c hc
    cases rest with
    | nil => exact (Option.some.inj hc).symm
    | cons d rest => exact ends c hc
  refine comment?_eq_some_iff.2 ⟨comment, List.append_assoc .., ?_⟩
  cases whole with
  | hash first oneLine ends => exact .hash first oneLine (above ends)
  | line oneLine ends => exact .line oneLine (above ends)
  | block inside => exact .block inside
  | @unclosed body inside =>
      have hopen : commentOpen ('/' :: '*' :: body ++ []) = true := by
        simpa [commentOpen] using (blockOpen_iff body).2 inside
      rw [hopen] at ho
      cases ho

theorem comment?_none_line {b : Bool} {c : Char} {cs : List Char}
    (h : comment? b (c :: cs) = none) : comment? b (c :: cs ++ '\n' :: below) = none := by
  have hno : ∀ rest, ¬ Comments b (c :: cs) rest := fun rest hr => by
    rw [comment?_eq_some.2 hr] at h
    cases h
  -- The line feed is no second character of a comment.
  have second : ∀ {d : Char} {more : List Char}, d ≠ '\n' → cs ++ '\n' :: below = d :: more →
      ∃ cs', cs = d :: cs' := by
    intro d more hd he
    cases cs with
    | nil => exact absurd (List.cons.inj he).1.symm hd
    | cons e cs => exact ⟨cs, by rw [(List.cons.inj he).1]⟩
  refine Option.eq_none_iff_forall_ne_some.2 fun rest hr => ?_
  rw [comment?_eq_some, List.cons_append] at hr
  generalize hx : cs ++ '\n' :: below = xs at hr
  cases hr with
  | hash hb => exact hno _ (.hash hb)
  | line =>
      obtain ⟨cs', rfl⟩ := second (by decide) hx
      exact hno _ .line
  | block =>
      obtain ⟨cs', rfl⟩ := second (by decide) hx
      exact hno _ .block

/-- A gap in front of a token ends at that token. -/
theorem skipGap_line {b : Bool} {cs : List Char} (h : skipGap b cs ≠ []) :
    skipGap b (cs ++ '\n' :: below) = skipGap b cs ++ '\n' :: below := by
  fun_induction skipGap b cs with
  | case1 b cs rest hc ih =>
      have ho : commentOpen cs = false := by
        refine Bool.eq_false_iff.2 fun ho => h ?_
        rw [comment?_of_open ho] at hc
        cases hc
        simp [skipGap, comment?]
      rw [skipGap_comment (comment?_line hc ho), ih h]
  | case2 b hc => exact absurd rfl h
  | case3 b c rest hc hb ih => rw [List.cons_append, skipGap_blank hb, ih h]
  | case4 b c rest hc hb =>
      have hn : comment? b (c :: (rest ++ '\n' :: below)) = none := comment?_none_line hc
      rw [List.cons_append, skipGap_token hn (by simpa using hb)]

/-- A gap at the end of a text goes on in the lines below. -/
theorem skipGap_line_of_nil {b : Bool} {cs : List Char} (h : skipGap b cs = [])
    (ho : gapOpen b cs = false) : skipGap b (cs ++ '\n' :: below) = skipGap true below := by
  fun_induction skipGap b cs with
  | case1 b cs rest hc ih =>
      rw [gapOpen_comment hc, Bool.or_eq_false_iff] at ho
      rw [skipGap_comment (comment?_line hc ho.1), ih h ho.2]
  | case2 b hc =>
      rw [List.nil_append, skipGap_blank (by decide)]
      simp
  | case3 b c rest hc hb ih =>
      rw [gapOpen_blank hb] at ho
      rw [List.cons_append, skipGap_blank hb, ih h ho]
  | case4 b c rest hc hb => cases h

/-! ## Single tokens -/

theorem runsInto_newline (t : Token) : t.runsInto '\n' = false := by
  have hstart : isIdStart '\n' = false := by decide
  have hchar : isIdChar '\n' = false := by decide
  unfold Token.runsInto
  split <;> simp [hstart, hchar]

/-- A token is read above other lines as well, if it is a mark or there is more
text behind it than a gap. -/
theorem readToken_line {cs rest : List Char} {t : Token} (h : readToken cs = (t, rest))
    (ht : t.Inner) (hrest : (∃ m, t = .mark m) ∨ skipGap false rest ≠ []) :
    readToken (cs ++ '\n' :: below) = (t, rest ++ '\n' :: below) := by
  cases cs with
  | nil =>
      cases h
      exact absurd rfl ht.not_finish
  | cons c cs =>
      have hread := readsToken_of_readToken h ht
      obtain ⟨w, rfl, hw⟩ := hread.replace
      have stops : t.StopsAt (rest ++ '\n' :: below) := by
        refine ⟨fun d hd => ?_, fun v hv after he => ?_⟩
        · cases rest with
          | nil =>
              cases hd
              exact runsInto_newline t
          | cons e rest => exact hread.stops.first d hd
        · -- Behind the gap there is the same character as without the lines.
          have hne := hrest.resolve_left fun ⟨m, hm⟩ => by
            rw [hv] at hm
            cases hm
          rw [skipGap_line hne] at he
          obtain ⟨e, more, hmore⟩ := List.exists_cons_of_ne_nil hne
          rw [hmore] at he
          obtain ⟨rfl, -⟩ := List.cons.inj he
          exact hread.stops.not_joined v hv more hmore
      simpa using (hw _ stops).readToken

end Below

/-! ## Moved tokens -/

/-- The token where it stands behind `n` more characters. -/
def Lexeme.shift (n : Nat) (x : Lexeme) : Lexeme := ⟨x.token, x.start + n, x.stop + n⟩

@[simp] theorem Lexeme.token_comp_shift (n : Nat) :
    Lexeme.token ∘ Lexeme.shift n = Lexeme.token := rfl

namespace Lexer

/-- The lexer with further lines below its text. -/
def above (l : Lexer) (below : List Char) : Lexer :=
  ⟨l.behind, l.ahead ++ '\n' :: below, l.start⟩

/-- The lexer with further lines before its text. -/
def under (l : Lexer) (lines : List Char) : Lexer :=
  ⟨l.behind ++ '\n' :: lines.reverse, l.ahead, l.start + (lines.length + 1)⟩

/-- What the lexer gives depends on where the next token starts. -/
theorem lexemes_congr {l m : Lexer} (h : l.toToken = m.toToken) : l.lexemes = m.lexemes := by
  have hn : l.next = m.next := by
    unfold next
    rw [h]
  by_cases ha : m.toToken.ahead = []
  · rw [lexemes_of_nil ha, lexemes_of_nil (h ▸ ha), h]
  · rw [lexemes_of_token ha, lexemes_of_token (h ▸ ha), h, hn]

/-- In one text a token starts at one place if the same text is ahead of it. -/
theorem toToken_congr {l m : Lexer} (ht : l.text = m.text)
    (ha : l.toToken.ahead = m.toToken.ahead) : l.toToken = m.toToken := by
  have htext : l.toToken.text = m.toToken.text := by
    rw [text_toToken, text_toToken, ht]
  have hb : l.toToken.behind = m.toToken.behind := by
    unfold text at htext
    rw [ha] at htext
    exact List.reverse_inj.1 (List.append_cancel_right htext)
  have hs : l.toToken.start = m.toToken.start := congrArg List.length hb
  calc l.toToken = ⟨l.toToken.behind, l.toToken.ahead, l.toToken.start⟩ := rfl
    _ = ⟨m.toToken.behind, m.toToken.ahead, m.toToken.start⟩ := by rw [hb, ha, hs]

/-! ## Lines before a text -/

section Under
variable (l : Lexer) (lines : List Char)

theorem lineBlank_under : (l.under lines).lineBlank = l.lineBlank := by
  unfold lineBlank under
  rw [takeWhile_line (by simp)]

theorem pos_under : (l.under lines).pos = l.pos + (lines.length + 1) := by
  simp [under, pos]

theorem moveTo_under (rest : List Char) :
    (l.under lines).moveTo rest = (l.moveTo rest).under lines := by
  simp [moveTo, advance, under]

theorem toToken_under : (l.under lines).toToken = l.toToken.under lines := by
  have hm : (l.under lines).moveTo (skipGap (l.under lines).lineBlank (l.under lines).ahead) =
      (l.moveTo (skipGap l.lineBlank l.ahead)).under lines := by
    rw [lineBlank_under, moveTo_under]
    rfl
  unfold toToken
  rw [hm]
  exact congrArg (Lexer.mk _ _) (pos_under _ _)

theorem next_under : (l.under lines).next = (l.next.1, l.next.2.under lines) := by
  unfold next
  rw [toToken_under, ← moveTo_under]
  rfl

/-- The tokens below other lines are the same and stand behind them. -/
theorem lexemes_under :
    (l.under lines).lexemes = l.lexemes.map (Lexeme.shift (lines.length + 1)) := by
  fun_induction lexemes l with
  | case1 l h =>
      have hl : (l.under lines).toToken.ahead = [] := by
        rw [toToken_under]
        exact h
      rw [lexemes_of_nil hl, toToken_under, pos_under]
      rfl
  | case2 l h ih =>
      have hl : (l.under lines).toToken.ahead ≠ [] := by
        rw [toToken_under]
        exact h
      rw [lexemes_of_token hl, toToken_under, next_under, pos_under, pos_under, ih]
      rfl

end Under

/-! ## Lines behind a text -/

/-- If there are tokens, the last one is a mark. -/
def EndsMarked (ts : List Token) : Prop := ∀ t ∈ ts.getLast?, ∃ m, t = .mark m

section Above
variable {l : Lexer} {below : List Char}

theorem moveTo_above (rest : List Char) :
    (l.above below).moveTo (rest ++ '\n' :: below) = (l.moveTo rest).above below := by
  have hlen : (l.ahead ++ '\n' :: below).length - (rest ++ '\n' :: below).length =
      l.ahead.length - rest.length := by
    simp only [List.length_append]
    omega
  have hle : l.ahead.length - rest.length ≤ l.ahead.length := Nat.sub_le _ _
  unfold moveTo advance above
  rw [hlen, List.take_append_of_le_length hle, List.drop_append_of_le_length hle]

theorem toToken_above (h : l.toToken.ahead ≠ []) :
    (l.above below).toToken = l.toToken.above below := by
  rw [ahead_toToken] at h
  have hm : (l.above below).moveTo (skipGap (l.above below).lineBlank (l.above below).ahead) =
      (l.moveTo (skipGap l.lineBlank l.ahead)).above below := by
    show (l.above below).moveTo (skipGap l.lineBlank (l.ahead ++ '\n' :: below)) = _
    rw [skipGap_line h, moveTo_above]
  unfold toToken
  rw [hm]
  rfl

/-- At the end of a text whose last gap is closed, the lexer goes on as if it
stood in front of the lines below. -/
theorem toToken_above_of_nil (h : l.toToken.ahead = [])
    (ho : gapOpen l.lineBlank l.ahead = false) :
    (l.above below).toToken = ((ofText below).under l.text).toToken := by
  rw [ahead_toToken] at h
  refine toToken_congr ?_ ?_
  · simp [text, above, under, ofText]
  · rw [toToken_under]
    show (l.above below).toToken.ahead = (ofText below).toToken.ahead
    rw [ahead_toToken, ahead_toToken]
    exact skipGap_line_of_nil h ho

theorem next_above (h : l.toToken.ahead ≠ []) (ht : l.next.1.Inner)
    (hrest : (∃ m, l.next.1 = .mark m) ∨ l.next.2.toToken.ahead ≠ []) :
    (l.above below).next = (l.next.1, l.next.2.above below) := by
  have hgap : (∃ m, l.next.1 = .mark m) ∨
      skipGap false (readToken l.toToken.ahead).2 ≠ [] := by
    refine hrest.imp_right fun hr he => hr ?_
    rw [ahead_toToken, ahead_next, ← ahead_toToken]
    exact skipGap_eq_nil_iff.2 ((skipGap_eq_nil_iff.1 he).mono (by simp))
  have hread : readToken (l.toToken.ahead ++ '\n' :: below) =
      (l.next.1, (readToken l.toToken.ahead).2 ++ '\n' :: below) := readToken_line rfl ht hgap
  unfold next
  rw [toToken_above h]
  show ((readToken (l.toToken.ahead ++ '\n' :: below)).1,
    (l.toToken.above below).moveTo (readToken (l.toToken.ahead ++ '\n' :: below)).2) = _
  rw [hread, moveTo_above]
  rfl

/-- The tokens of a text that has lines below are its own tokens and then those
of these lines. -/
theorem lexemes_above (below : List Char) {ts : List Token}
    (h : l.lexemes.map Lexeme.token = ts ++ [.finish]) (inner : AllInner ts)
    (marked : EndsMarked ts) (closed : l.endsOpen = false) :
    ∃ front, front.map Lexeme.token = ts ∧ (l.above below).lexemes =
      front ++ (lexemesOf below).map (Lexeme.shift (l.text.length + 1)) := by
  fun_induction lexemes l generalizing ts with
  | case1 l hl =>
      rw [endsOpen, dif_pos hl] at closed
      have hts : ts = [] := by
        cases ts with
        | nil => rfl
        | cons t ts => simp at h
      refine ⟨[], by rw [hts]; rfl, ?_⟩
      rw [lexemes_congr (toToken_above_of_nil hl closed), lexemes_under]
      rfl
  | case2 l hl ih =>
      rw [endsOpen, dif_neg hl] at closed
      obtain ⟨us, hus, _⟩ := l.next.2.lexemes_finish
      rw [List.map_cons] at h
      cases ts with
      | nil =>
          rw [hus] at h
          simp at h
      | cons t ts =>
          injection h with ht h
          have ht : l.next.1 = t := ht
          rw [allInner_cons] at inner
          -- Behind a token that is no mark there is a further one.
          have hrest : (∃ m, l.next.1 = .mark m) ∨ l.next.2.toToken.ahead ≠ [] := by
            cases ts with
            | nil => exact Or.inl (ht ▸ marked t rfl)
            | cons u ts =>
                refine Or.inr fun hn => ?_
                rw [lexemes_of_nil hn] at h
                simp at h
          have hmarked : EndsMarked ts := by
            cases ts with
            | nil => simp [EndsMarked]
            | cons u ts => exact marked
          obtain ⟨front, hfront, hl'⟩ := ih h inner.2 hmarked closed
          have habove : (l.above below).toToken.ahead ≠ [] := by
            rw [toToken_above hl]
            simp [above]
          refine ⟨⟨l.next.1, l.toToken.pos, l.next.2.pos⟩ :: front, ?_, ?_⟩
          · rw [List.map_cons, hfront, ← ht]
          · rw [lexemes_of_token habove, next_above hl (ht ▸ inner.1) hrest, hl', text_next,
              toToken_above hl]
            rfl

end Above

end Lexer

/-- The tokens of a text that has another one below are its own tokens and then
those of the other text. -/
theorem lexemesOf_below {upper : String} (lower : String) {ts : List Token}
    (h : tokensOf upper = ts ++ [.finish]) (inner : AllInner ts) (marked : Lexer.EndsMarked ts)
    (closed : endsInComment upper = false) :
    ∃ front, front.map Lexeme.token = ts ∧ lexemesOf (upper ++ "\n" ++ lower).toList =
      front ++ (lexemesOf lower.toList).map (Lexeme.shift (upper.toList.length + 1)) := by
  obtain ⟨front, hfront, hl⟩ := Lexer.lexemes_above lower.toList h inner marked closed
  refine ⟨front, hfront, ?_⟩
  have htext : (upper ++ "\n" ++ lower).toList = upper.toList ++ '\n' :: lower.toList := by simp
  rw [htext]
  exact hl

end DotLang
