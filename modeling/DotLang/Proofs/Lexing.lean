import DotLang.Proofs.Grammar
/-!
# Lexing a text that is written piece by piece

What the lexer gives depends on the characters ahead, and on the line so far in
one point only: whether a `#` may start a comment.  A text in which every token
starts with a character that starts neither a comment nor a joined string is
free of that dependence.  `Lexes` reads such a text from its front, and
`Lexes.lexemes` says that the lexer does the same wherever it stands.

So a piece of text is lexed in front of any rest that is lexed, and the pieces
of a writer are put together from the end of the text to its start.
-/

namespace DotLang

open Text

/-- The character is no blank, and starts neither a comment nor a further string
of a joined one. -/
structure StartsToken (c : Char) : Prop where
  not_blank : isBlank c = false
  not_hash : c ≠ '#'
  not_slash : c ≠ '/'
  not_plus : c ≠ '+'

/-- A text is read as tokens, each behind any number of blanks. -/
inductive Lexes : List Char → List Token → Prop
  | nil : Lexes [] []
  | blank {c : Char} {cs : List Char} {ts : List Token} (hc : isBlank c = true)
      (rest : Lexes cs ts) : Lexes (c :: cs) ts
  | token {c : Char} {cs rest : List Char} {t : Token} {ts : List Token}
      (starts : StartsToken c) (reads : readToken (c :: cs) = (t, rest))
      (more : Lexes rest ts) : Lexes (c :: cs) (t :: ts)

/-! ## Gaps -/

theorem comment?_eq_none {b : Bool} {c : Char} {cs : List Char} (hh : c ≠ '#') (hs : c ≠ '/') :
    comment? b (c :: cs) = none := by
  simp [comment?, hh, hs]

theorem not_hash_of_blank {c : Char} (h : isBlank c = true) : c ≠ '#' := by
  rintro rfl
  simp [isBlank] at h

theorem not_slash_of_blank {c : Char} (h : isBlank c = true) : c ≠ '/' := by
  rintro rfl
  simp [isBlank] at h

theorem skipGap_blank {b : Bool} {c : Char} {cs : List Char} (h : isBlank c = true) :
    skipGap b (c :: cs) = skipGap (b || c == '\n') cs := by
  rw [skipGap]
  split
  · next rest hc =>
      rw [comment?_eq_none (not_hash_of_blank h) (not_slash_of_blank h)] at hc
      cases hc
  · simp [h]

theorem StartsToken.skipGap {b : Bool} {c : Char} {cs : List Char} (h : StartsToken c) :
    skipGap b (c :: cs) = c :: cs := by
  rw [DotLang.skipGap]
  split
  · next rest hc =>
      rw [comment?_eq_none h.not_hash h.not_slash] at hc
      cases hc
  · simp [h.not_blank]

/-- Behind the gap there is nothing, or the first token. -/
theorem Lexes.skipGap {cs : List Char} {ts : List Token} (h : Lexes cs ts) (b : Bool) :
    (DotLang.skipGap b cs = [] ∧ ts = []) ∨
      ∃ c cs' t rest ts', DotLang.skipGap b cs = c :: cs' ∧ StartsToken c ∧
        readToken (c :: cs') = (t, rest) ∧ Lexes rest ts' ∧ ts = t :: ts' := by
  induction h generalizing b with
  | nil => exact Or.inl ⟨by simp [DotLang.skipGap, comment?], rfl⟩
  | blank hc _ ih =>
      rw [skipGap_blank hc]
      exact ih _
  | token starts reads more _ =>
      exact Or.inr ⟨_, _, _, _, _, starts.skipGap, starts, reads, more, rfl⟩

/-- No plus sign stands behind the gap, so a string in front of it is whole. -/
theorem Lexes.not_plus {cs after : List Char} {ts : List Token} (h : Lexes cs ts) (b : Bool) :
    DotLang.skipGap b cs ≠ '+' :: after := by
  intro he
  rcases h.skipGap b with hs | hs
  · rw [he] at hs
    cases hs.1
  · obtain ⟨c, cs', t, rest, ts', hc, starts, _⟩ := hs
    rw [he] at hc
    injection hc with hc
    exact starts.not_plus hc.symm

/-! ## Whole texts -/

theorem Lexer.head?_tokens (l : Lexer) :
    (l.lexemes.map Lexeme.token).head? = some (readToken l.toToken.ahead).1 := by
  by_cases hl : l.toToken.ahead = []
  · rw [lexemes_of_nil hl, hl]
    rfl
  · rw [lexemes_of_token hl]
    rfl

theorem tokensOf_head? (cs : List Char) :
    (tokensOf (String.ofList cs)).head? = some (readToken (skipGap true cs)).1 := by
  unfold tokensOf lexemesOf
  rw [String.toList_ofList, Lexer.head?_tokens, Lexer.ahead_toToken]
  rfl

/-- The lexer gives the tokens of the text ahead. -/
theorem Lexes.lexemes {l : Lexer} {ts : List Token} (h : Lexes l.ahead ts) :
    l.lexemes.map Lexeme.token = ts ++ [.finish] := by
  fun_induction Lexer.lexemes l generalizing ts with
  | case1 l hl =>
      rw [Lexer.ahead_toToken] at hl
      rcases h.skipGap l.lineBlank with hs | hs
      · rw [hs.2]
        rfl
      · obtain ⟨c, cs', t, rest, ts', hc, _⟩ := hs
        rw [hc] at hl
        cases hl
  | case2 l hl ih =>
      rw [Lexer.ahead_toToken] at hl
      rcases h.skipGap l.lineBlank with hs | hs
      · exact absurd hs.1 hl
      · obtain ⟨c, cs', t, rest, ts', hc, _, reads, more, rfl⟩ := hs
        have ht : l.next.1 = t := by
          show (readToken l.toToken.ahead).1 = t
          rw [Lexer.ahead_toToken, hc, reads]
        have hr : l.next.2.ahead = rest := by
          rw [Lexer.ahead_next, hc, reads]
        rw [List.map_cons, ih (hr ▸ more), ht]
        rfl

theorem Lexes.tokensOf {cs : List Char} {ts : List Token} (h : Lexes cs ts) :
    tokensOf (String.ofList cs) = ts ++ [.finish] := by
  unfold DotLang.tokensOf lexemesOf
  rw [String.toList_ofList]
  exact Lexes.lexemes h

/-! ## Blanks, marks and keywords -/

section Pieces
variable {cs : List Char} {ts : List Token}

theorem Lexes.blanks {bs : List Char} (hb : bs.all isBlank = true) (h : Lexes cs ts) :
    Lexes (bs ++ cs) ts := by
  induction bs with
  | nil => exact h
  | cons c bs ih =>
      rw [List.all_cons, Bool.and_eq_true] at hb
      exact .blank hb.1 (ih hb.2)

theorem startsToken_mark {c : Char} {m : Mark} (hm : Mark.ofChar? c = some m) :
    StartsToken c := by
  unfold Mark.ofChar? at hm
  split at hm
  · exact ⟨by decide, by decide, by decide, by decide⟩
  · exact ⟨by decide, by decide, by decide, by decide⟩
  · exact ⟨by decide, by decide, by decide, by decide⟩
  · exact ⟨by decide, by decide, by decide, by decide⟩
  · exact ⟨by decide, by decide, by decide, by decide⟩
  · exact ⟨by decide, by decide, by decide, by decide⟩
  · exact ⟨by decide, by decide, by decide, by decide⟩
  · exact ⟨by decide, by decide, by decide, by decide⟩
  · cases hm

theorem Lexes.mark {c : Char} {m : Mark} (hm : Mark.ofChar? c = some m) (h : Lexes cs ts) :
    Lexes (c :: cs) (.mark m :: ts) := by
  refine .token (startsToken_mark hm) ?_ h
  simp [readToken, hm]

theorem Lexes.op (op : EdgeOp) (h : Lexes cs ts) :
    Lexes (op.text.toList ++ cs) (.mark op.mark :: ts) := by
  cases op with
  | arrow => exact .token ⟨by decide, by decide, by decide, by decide⟩ rfl h
  | line => exact .token ⟨by decide, by decide, by decide, by decide⟩ rfl h

/-- What stands here goes on neither a word nor a numeral. -/
def Bounds (cs : List Char) : Prop :=
  ∀ c, cs.head? = some c → isIdChar c = false ∧ c ≠ '.'

theorem bounds_cons {c : Char} (hc : isIdChar c = false) (hp : c ≠ '.') (cs : List Char) :
    Bounds (c :: cs) := by
  intro d hd
  cases hd
  exact ⟨hc, hp⟩

/-- What stops `takeWhile` and `dropWhile`. -/
theorem span_append {p : Char → Bool} {w : List Char} (rest : List Char) (hw : w.all p = true)
    (stop : ∀ c, rest.head? = some c → p c = false) :
    (w ++ rest).takeWhile p = w ∧ (w ++ rest).dropWhile p = rest := by
  have hall : ∀ c ∈ w, p c = true := List.all_eq_true.1 hw
  rw [List.takeWhile_append_of_pos hall, List.dropWhile_append_of_pos hall]
  cases rest with
  | nil => simp
  | cons c rest => simp [stop c rfl]

theorem dropWhile_stops {p : Char → Bool} (cs : List Char) :
    ∀ c, (cs.dropWhile p).head? = some c → p c = false := by
  intro c hc
  have hn := List.head?_dropWhile_not p cs
  rw [hc] at hn
  simpa using hn

/-- A word is read as far as it goes. -/
theorem readWord_iff {w rest : List Char} : readWord cs = (w, rest) ↔
    cs = w ++ rest ∧ w.all isIdChar = true ∧ ∀ c, rest.head? = some c → isIdChar c = false := by
  constructor
  · intro h
    cases h
    exact ⟨List.takeWhile_append_dropWhile.symm, List.all_takeWhile, dropWhile_stops cs⟩
  · rintro ⟨rfl, hw, stop⟩
    obtain ⟨ht, hd⟩ := span_append _ hw stop
    rw [readWord, ht, hd]

/-- A word in front of a bound is read as a whole. -/
theorem readWord_append {w : List Char} (hw : w.all isIdChar = true) (hb : Bounds cs) :
    readWord (w ++ cs) = (w, cs) :=
  readWord_iff.2 ⟨rfl, hw, fun c hc => (hb c hc).1⟩

theorem ne_of_isIdStart {c d : Char} (hc : isIdStart c = true) (hd : isIdStart d = false) :
    c ≠ d := by
  rintro rfl
  rw [hc] at hd
  cases hd

theorem readToken_of_isIdStart {c : Char} (hc : isIdStart c = true) :
    readToken (c :: cs) = (Token.ofWord (readWord (c :: cs)).1, (readWord (c :: cs)).2) := by
  have hm : Mark.ofChar? c = none := by
    unfold Mark.ofChar?
    split <;> first | rfl | exact absurd hc (by decide)
  simp [readToken, hm, hc, ne_of_isIdStart hc (d := '"') (by decide),
    ne_of_isIdStart hc (d := '<') (by decide), ne_of_isIdStart hc (d := '-') (by decide)]

/-- A word is read as its keyword or as a plain ID. -/
theorem Lexes.word {c : Char} {w : List Char} (hb : isBlank c = false) (hc : isIdStart c = true)
    (hw : w.all isIdChar = true) (hbound : Bounds cs) (h : Lexes cs ts) :
    Lexes (c :: w ++ cs) (Token.ofWord (c :: w) :: ts) := by
  have hall : (c :: w).all isIdChar = true := by
    rw [List.all_cons, hw, Bool.and_true]
    simp [isIdChar, hc]
  refine .token ⟨hb, ?_, ?_, ?_⟩ ?_ h
  · exact ne_of_isIdStart hc (by decide)
  · exact ne_of_isIdStart hc (by decide)
  · exact ne_of_isIdStart hc (by decide)
  · show readToken (c :: (w ++ cs)) = _
    rw [readToken_of_isIdStart hc, ← List.cons_append, readWord_append hall hbound]

theorem Lexes.keyword (k : Keyword) (hb : Bounds cs) (h : Lexes cs ts) :
    Lexes (k.word.toList ++ cs) (.keyword k :: ts) := by
  cases k with
  | graph => exact .word (c := 'g') (w := "raph".toList) (by decide) (by decide) (by decide) hb h
  | digraph => exact .word (c := 'd') (w := "igraph".toList) (by decide) (by decide) (by decide) hb h
  | subgraph =>
      exact .word (c := 's') (w := "ubgraph".toList) (by decide) (by decide) (by decide) hb h
  | node => exact .word (c := 'n') (w := "ode".toList) (by decide) (by decide) (by decide) hb h
  | edge => exact .word (c := 'e') (w := "dge".toList) (by decide) (by decide) (by decide) hb h
  | strict => exact .word (c := 's') (w := "trict".toList) (by decide) (by decide) (by decide) hb h

end Pieces

end DotLang
