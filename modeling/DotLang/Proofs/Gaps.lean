import DotLang.Proofs.Lexing
/-!
# Gaps as texts

`skipGap` says how a gap is passed.  Here is what a gap is: a text made of blanks
and whole comments (`IsGap`).  A comment is whole in front of what stands behind
it.  A comment of one line ends where the line ends, a `/*` comment at the first
`*/`, and one that is not closed at the end of the text.

`skipGap` passes a gap (`exists_gap`), and it passes all of every gap that stands
at the front (`IsGap.skipGap`).  In front of a token a gap does not depend on what
the token is (`IsGap.in_front`), so a gap may be moved from one token to another.
-/

namespace DotLang

open Text

/-! ## Comments -/

/-- Behind a `/*` no `*/` follows. -/
def blockOpen : List Char → Bool
  | [] => true
  | [_] => true
  | c :: d :: cs => if c = '*' ∧ d = '/' then false else blockOpen (d :: cs)

/-- A comment that starts here, and the text behind it. -/
inductive Comments (lineBlank : Bool) : List Char → List Char → Prop
  | hash {cs : List Char} (hb : lineBlank = true) : Comments lineBlank ('#' :: cs) (afterLine cs)
  | line {cs : List Char} : Comments lineBlank ('/' :: '/' :: cs) (afterLine ('/' :: cs))
  | block {cs : List Char} : Comments lineBlank ('/' :: '*' :: cs) (afterBlock cs)

/-- The line ends here. -/
def EndsLine (behind : List Char) : Prop := ∀ c, behind.head? = some c → c = '\n'

/-- A whole comment, and the text behind it.  Only on a line that is blank so far
a `#` starts one. -/
inductive IsComment (lineBlank : Bool) : List Char → List Char → Prop
  | hash {body behind : List Char} (first : lineBlank = true) (oneLine : '\n' ∉ body)
      (ends : EndsLine behind) : IsComment lineBlank ('#' :: body) behind
  | line {body behind : List Char} (oneLine : '\n' ∉ body) (ends : EndsLine behind) :
      IsComment lineBlank ('/' :: '/' :: body) behind
  | block {body behind : List Char} (inside : ¬ ['*', '/'] <:+: body) :
      IsComment lineBlank ('/' :: '*' :: (body ++ ['*', '/'])) behind
  | unclosed {body : List Char} (inside : ¬ ['*', '/'] <:+: body) :
      IsComment lineBlank ('/' :: '*' :: body) []

theorem blockOpen_iff (cs : List Char) : blockOpen cs = true ↔ ¬ ['*', '/'] <:+: cs := by
  fun_induction blockOpen cs with
  | case1 => simp
  | case2 c =>
      refine iff_of_true rfl fun h => ?_
      have := h.length_le
      simp at this
  | case3 c d cs h =>
      obtain ⟨rfl, rfl⟩ := h
      exact iff_of_false (by simp) fun h => h ⟨[], cs, rfl⟩
  | case4 c d cs h ih =>
      have hi : ['*', '/'] <:+: c :: d :: cs ↔
          ['*', '/'] <+: c :: d :: cs ∨ ['*', '/'] <:+: d :: cs := List.infix_cons_iff
      rw [ih, hi]
      refine not_congr ⟨Or.inr, fun hi => hi.resolve_left fun hp => h ?_⟩
      obtain ⟨rest, hr⟩ := hp
      simp only [List.cons_append, List.cons.injEq] at hr
      exact ⟨hr.1.symm, hr.2.1.symm⟩

theorem afterBlock_of_open {cs : List Char} (h : blockOpen cs = true) : afterBlock cs = [] := by
  fun_induction afterBlock cs with
  | case1 => rfl
  | case2 => rfl
  | case3 c d cs hc => simp [blockOpen, hc] at h
  | case4 c d cs hc ih => exact ih (by simpa [blockOpen, hc] using h)

theorem comment?_eq_some {b : Bool} {cs rest : List Char} :
    comment? b cs = some rest ↔ Comments b cs rest := by
  constructor
  · intro h
    unfold comment? at h
    split at h
    · cases h
    · next c cs =>
        split at h
        · next hc =>
            obtain ⟨rfl, hb⟩ := hc
            cases h
            exact .hash hb
        · split at h
          · next hc =>
              obtain ⟨rfl, hd⟩ := hc
              obtain ⟨cs, rfl⟩ := List.head?_eq_some_iff.1 hd
              cases h
              exact .line
          · split at h
            · next hc =>
                obtain ⟨rfl, hd⟩ := hc
                obtain ⟨cs, rfl⟩ := List.head?_eq_some_iff.1 hd
                cases h
                exact .block
            · cases h
  · intro h
    cases h with
    | hash hb => simp [comment?, hb]
    | line => simp [comment?]
    | block => simp [comment?]

section Comments
variable {b : Bool} {body behind cs rest : List Char}

theorem afterLine_append (oneLine : '\n' ∉ body) (ends : EndsLine behind) :
    afterLine (body ++ behind) = behind := by
  have hbody : body.all (· ≠ '\n') = true :=
    List.all_eq_true.2 fun c hc => decide_eq_true fun he => oneLine (he ▸ hc)
  exact (span_append behind hbody fun c hc => by simpa using ends c hc).2

theorem exists_line (cs : List Char) :
    ∃ body, cs = body ++ afterLine cs ∧ '\n' ∉ body ∧ EndsLine (afterLine cs) := by
  refine ⟨cs.takeWhile (· ≠ '\n'), List.takeWhile_append_dropWhile.symm, fun hm => ?_, ?_⟩
  · have hn := List.all_eq_true.1 (List.all_takeWhile (p := (· ≠ '\n')) (l := cs)) _ hm
    simp at hn
  · exact fun c hc => by simpa using dropWhile_stops cs c hc

theorem afterBlock_closed (inside : ¬ ['*', '/'] <:+: body) :
    afterBlock (body ++ '*' :: '/' :: behind) = behind := by
  induction body with
  | nil => simp [afterBlock]
  | cons c body ih =>
      have hbody : ¬ ['*', '/'] <:+: body := fun h => inside (h.trans (List.suffix_cons c body).isInfix)
      -- A `*/` at the front would lie inside the body, or its slash would be the star.
      have hfront : ∀ d more, body ++ '*' :: '/' :: behind = d :: more → ¬ (c = '*' ∧ d = '/') := by
        rintro d more he ⟨rfl, rfl⟩
        cases body with
        | nil => cases he
        | cons e body =>
            cases he
            exact inside ⟨[], body, rfl⟩
      obtain ⟨d, more, he⟩ := List.exists_cons_of_ne_nil
        (show body ++ '*' :: '/' :: behind ≠ [] by simp)
      rw [List.cons_append, he, afterBlock, if_neg (hfront d more he), ← he, ih hbody]

theorem exists_block (h : blockOpen cs = false) :
    ∃ body, cs = body ++ '*' :: '/' :: afterBlock cs ∧ ¬ ['*', '/'] <:+: body := by
  fun_induction afterBlock cs with
  | case1 => cases h
  | case2 => cases h
  | case3 c d cs hc =>
      obtain ⟨rfl, rfl⟩ := hc
      exact ⟨[], rfl, by simp⟩
  | case4 c d cs hc ih =>
      obtain ⟨body, he, hbody⟩ := ih (by simpa [blockOpen, hc] using h)
      refine ⟨c :: body, by rw [List.cons_append, ← he], fun hi => ?_⟩
      rcases List.infix_cons_iff.1 hi with ⟨more, hp⟩ | hi
      · -- A `*/` at the front starts at `c`, and `d` is the character behind it.
        obtain ⟨rfl, rfl⟩ := List.cons.inj hp
        exact hc ⟨rfl, (List.cons.inj he).1⟩
      · exact hbody hi

/-- A comment that is passed is a whole one. -/
theorem comment?_eq_some_iff :
    comment? b cs = some rest ↔ ∃ comment, cs = comment ++ rest ∧ IsComment b comment rest := by
  rw [comment?_eq_some]
  constructor
  · intro h
    cases h with
    | @hash cs hb =>
        obtain ⟨body, he, oneLine, ends⟩ := exists_line cs
        exact ⟨'#' :: body, by rw [List.cons_append, ← he], .hash hb oneLine ends⟩
    | @line cs =>
        obtain ⟨body, he, oneLine, ends⟩ := exists_line cs
        have hs : afterLine ('/' :: cs) = afterLine cs := by simp [afterLine]
        rw [hs]
        exact ⟨'/' :: '/' :: body, by rw [List.cons_append, List.cons_append, ← he],
          .line oneLine ends⟩
    | @block cs =>
        cases ho : blockOpen cs with
        | true =>
            rw [afterBlock_of_open ho]
            exact ⟨_, (List.append_nil _).symm, .unclosed ((blockOpen_iff cs).1 ho)⟩
        | false =>
            obtain ⟨body, he, inside⟩ := exists_block ho
            refine ⟨'/' :: '*' :: (body ++ ['*', '/']), ?_, .block inside⟩
            simpa using he
  · rintro ⟨comment, rfl, h⟩
    cases h with
    | @hash body _ first oneLine ends =>
        have hc : Comments b ('#' :: (body ++ rest)) (afterLine (body ++ rest)) := .hash first
        rwa [afterLine_append oneLine ends] at hc
    | @line body _ oneLine ends =>
        have hc : Comments b ('/' :: '/' :: (body ++ rest)) (afterLine ('/' :: (body ++ rest))) :=
          .line
        have hs : afterLine ('/' :: (body ++ rest)) = afterLine (body ++ rest) := by simp [afterLine]
        rwa [hs, afterLine_append oneLine ends] at hc
    | @block body _ inside =>
        have hc : Comments b ('/' :: '*' :: (body ++ '*' :: '/' :: rest))
            (afterBlock (body ++ '*' :: '/' :: rest)) := .block
        rw [afterBlock_closed inside] at hc
        simpa using hc
    | @unclosed body inside =>
        have hc : Comments b ('/' :: '*' :: body) (afterBlock body) := .block
        rw [afterBlock_of_open ((blockOpen_iff body).2 inside)] at hc
        simpa using hc

end Comments

/-! ## Gaps -/

/-- Blanks and whole comments, and the text behind them. -/
inductive IsGap : Bool → List Char → List Char → Prop
  | nil {b : Bool} {behind : List Char} : IsGap b [] behind
  | blank {b : Bool} {c : Char} {gap behind : List Char} (hc : isBlank c = true)
      (rest : IsGap (b || c == '\n') gap behind) : IsGap b (c :: gap) behind
  | comment {b : Bool} {comment gap behind : List Char}
      (whole : IsComment b comment (gap ++ behind)) (rest : IsGap false gap behind) :
      IsGap b (comment ++ gap) behind

section Gaps
variable {b : Bool} {cs rest gap behind : List Char}

theorem skipGap_comment (h : comment? b cs = some rest) :
    skipGap b cs = skipGap false rest := by
  rw [skipGap]
  split
  · next hc =>
      rw [h] at hc
      cases hc
      rfl
  · next hc =>
      rw [h] at hc
      cases hc

theorem skipGap_token {c : Char} (h : comment? b (c :: cs) = none) (hb : isBlank c = false) :
    skipGap b (c :: cs) = c :: cs := by
  rw [skipGap]
  split
  · next hc =>
      rw [h] at hc
      cases hc
  · simp [hb]

/-- At the start of a line there are more comments. -/
theorem IsComment.mono {b' : Bool} {comment : List Char} (hb : b = true → b' = true)
    (h : IsComment b comment behind) : IsComment b' comment behind := by
  cases h with
  | hash first oneLine ends => exact .hash (hb first) oneLine ends
  | line oneLine ends => exact .line oneLine ends
  | block inside => exact .block inside
  | unclosed inside => exact .unclosed inside

/-- A gap is one at the start of a line as well. -/
theorem IsGap.mono {b' : Bool} (hb : b = true → b' = true) (h : IsGap b gap behind) :
    IsGap b' gap behind := by
  induction h generalizing b' with
  | nil => exact .nil
  | blank hc _ ih =>
      refine .blank hc (ih fun hor => ?_)
      rw [Bool.or_eq_true] at hor ⊢
      exact hor.imp_left hb
  | comment whole rest => exact .comment (whole.mono hb) rest

/-- What is passed is a gap. -/
theorem exists_gap (b : Bool) (cs : List Char) :
    ∃ gap, cs = gap ++ skipGap b cs ∧ IsGap b gap (skipGap b cs) := by
  fun_induction skipGap b cs with
  | case1 b cs rest hc ih =>
      obtain ⟨comment, rfl, whole⟩ := comment?_eq_some_iff.1 hc
      obtain ⟨gap, he, hgap⟩ := ih
      refine ⟨comment ++ gap, by rw [List.append_assoc, ← he], .comment ?_ hgap⟩
      rwa [← he]
  | case2 => exact ⟨[], rfl, .nil⟩
  | case3 b c rest hc hb ih =>
      obtain ⟨gap, he, hgap⟩ := ih
      exact ⟨c :: gap, by rw [List.cons_append, ← he], .blank hb hgap⟩
  | case4 => exact ⟨[], rfl, .nil⟩

/-- A gap at the front is passed as a whole. -/
theorem IsGap.skipGap (h : IsGap b gap behind) :
    ∃ b', DotLang.skipGap b (gap ++ behind) = DotLang.skipGap b' behind := by
  induction h with
  | nil => exact ⟨_, rfl⟩
  | blank hc _ ih =>
      obtain ⟨b', he⟩ := ih
      exact ⟨b', by rw [List.cons_append, skipGap_blank hc, he]⟩
  | comment whole _ ih =>
      obtain ⟨b', he⟩ := ih
      refine ⟨b', ?_⟩
      rw [List.append_assoc, skipGap_comment (comment?_eq_some_iff.2 ⟨_, rfl, whole⟩), he]

theorem skipGap_nil (b : Bool) : skipGap b [] = [] := by
  simp [DotLang.skipGap, comment?]

/-- Nothing but a gap is ahead exactly if all of it is passed. -/
theorem skipGap_eq_nil_iff : skipGap b cs = [] ↔ IsGap b cs [] := by
  constructor
  · intro h
    obtain ⟨gap, he, hgap⟩ := exists_gap b cs
    rw [h, List.append_nil] at he
    rw [h] at hgap
    rwa [he]
  · intro h
    obtain ⟨b', he⟩ := h.skipGap
    rw [List.append_nil] at he
    rw [he, skipGap_nil]

/-- In front of a character that starts no gap it is passed as far as that one. -/
theorem IsGap.skipGap_cons {c : Char} (h : IsGap b gap (c :: cs)) (hb : isBlank c = false)
    (hh : c ≠ '#') (hs : c ≠ '/') : DotLang.skipGap b (gap ++ c :: cs) = c :: cs := by
  obtain ⟨b', he⟩ := h.skipGap
  rw [he, skipGap_token (comment?_eq_none hh hs) hb]

/-- A gap in front of a character that is no line feed is a gap in front of
anything: its last comment is closed, or a line feed stands behind it. -/
theorem IsGap.in_front {c : Char} (h : IsGap b gap (c :: cs)) (hc : c ≠ '\n')
    (behind : List Char) : IsGap b gap behind := by
  generalize hx : c :: cs = xs at h
  induction h with
  | nil => exact .nil
  | blank hb _ ih => exact .blank hb (ih hx)
  | @comment b comment gap xs whole _ ih =>
      subst hx
      -- The line of the comment ends inside the gap.
      have ends : EndsLine (gap ++ c :: cs) → EndsLine (gap ++ behind) := by
        intro hl d hd
        cases gap with
        | nil => exact absurd (hl c rfl) hc
        | cons e gap => exact hl d hd
      refine .comment ?_ (ih rfl)
      generalize hy : gap ++ c :: cs = ys at whole
      cases whole with
      | hash first oneLine hl => exact .hash first oneLine (ends (hy ▸ hl))
      | line oneLine hl => exact .line oneLine (ends (hy ▸ hl))
      | block inside => exact .block inside
      | unclosed inside => simp at hy

end Gaps

end DotLang
