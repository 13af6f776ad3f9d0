import DotLang.Proofs.Completions
import DotLang.Proofs.WrittenTokens
import DotLang.Value
/-!
# A syntax error stands at the first token that is wrong

Tokens are viable if a text that parses begins with them.  The error of a text stands
at the first token up to which its tokens are not viable.

That they are not is a matter of the parser alone: a failure at a token is the failure
of every sequence of tokens that begins in the same way (`file_fails_with`).  That the
tokens in front of it are viable needs a text.  What the parser has passed when it fails
is completed to the tokens of a file (`file_leads`), and these tokens are written one by
one (`exists_text`).
-/

namespace DotLang

/-- A text that parses begins with the tokens. -/
def Viable (ts : List Token) : Prop :=
  ∃ text trees, Tree.parse text = .ok trees ∧ ts <+: tokensOf text

theorem Viable.of_prefix {ts us : List Token} (h : Viable us) (hp : ts <+: us) : Viable ts := by
  obtain ⟨text, trees, hok, hus⟩ := h
  exact ⟨text, trees, hok, hp.trans hus⟩

/-- A fault is nowhere in them. -/
theorem Viable.faultless {ts : List Token} (h : Viable ts) : Parser.Faultless ts := by
  obtain ⟨text, trees, hok, hts⟩ := h
  exact fun f hf => (Tree.parse_sound hok).faultless f (hts.subset hf)

theorem Parser.Filler.writable {t : Token} (h : Parser.Filler t) : t.Writable := by
  cases h with
  | id => exact ⟨['a'], .word (by decide) (by decide) rfl⟩
  | keyword k => exact writable_keyword k
  | mark m => exact writable_mark m

/-- Tokens of a text that begin a file are viable. -/
theorem viable_of_completes {text : String} {ts : List Token} (hts : ts ⊆ tokensOf text)
    (h : Parser.Completes Parser.IsFile ts) : Viable ts := by
  obtain ⟨us, fill, trees, spelled⟩ := h
  have inner : AllInner (ts ++ us) := by
    obtain ⟨vs, hvs, hinner⟩ := spelled.inner
    rwa [List.append_cancel_right hvs]
  have written : ∀ t ∈ ts ++ us, t.Writable := by
    intro t ht
    rcases List.mem_append.1 ht with hmem | hmem
    · exact Lexer.writable_of_mem (hts hmem) (inner t ht)
    · exact (fill t hmem).writable
  obtain ⟨other, hother⟩ := exists_text written
  refine ⟨other, trees, Tree.parse_complete (hother ▸ spelled), ?_⟩
  rw [hother, List.append_assoc]
  exact List.prefix_append ts _

/-- If the parser fails wherever a file begins with these tokens, no file that parses
begins with them. -/
theorem not_viable_of_fails {front : List Lexeme} {l : Lexeme} {f : SyntaxFault}
    (h : ∀ {p : Parser} {more room}, p.lexemes = ⟨.mark .colon, 0, 0⟩ :: front ++ l :: more →
      p.directed = false → 4 * p.rest.length ≤ room → Fails (Parser.file room) p f) :
    ¬ Viable (front.map Lexeme.token ++ [l.token]) := by
  rintro ⟨other, trees, hok, us, hus⟩
  let more : List Lexeme := us.map fun t => ⟨t, 0, 0⟩
  let p : Parser := ⟨⟨.mark .colon, 0, 0⟩, front ++ l :: more, false⟩
  have hmore : more.map Lexeme.token = us := by
    simp only [more, List.map_map]
    exact List.map_id us
  have spelled : SpellsFile (p.rest.map Lexeme.token) trees := by
    have hp : p.rest.map Lexeme.token = tokensOf other := by simp [p, hmore, ← hus]
    rw [hp]
    exact Tree.parse_sound hok
  obtain ⟨q, hq⟩ := spelled.runs rfl (Nat.lt_succ_self _)
  exact hq.not_fails (h rfl rfl (Nat.le_succ _))

/-! ## The end of a text -/

/-- The end of the text stands behind its last character. -/
theorem Lexer.finish_start {l : Lexer} {x : Lexeme} (h : x ∈ l.lexemes) (hx : x.token = .finish) :
    x.start = l.text.length := by
  fun_induction Lexer.lexemes l with
  | case1 l hl =>
      rw [List.mem_singleton.1 h, ← text_toToken, text, hl]
      simp [pos]
  | case2 l hl ih =>
      rcases List.mem_cons.1 h with rfl | h
      · obtain ⟨c, cs, hc⟩ := List.exists_cons_of_ne_nil hl
        exact absurd (hc ▸ hx) (readToken_not_finish c cs)
      · rw [ih h, text_next]

/-! ## Messages -/

/-- A message starts as its first part does. -/
theorem head?_message {s : String} {c : Char} (t : String) (h : s.toList.head? = some c) :
    (s ++ t).toList.head? = some c := by
  rw [String.toList_append, List.head?_append, h, Option.some_or]

/-- The message of no other reason begins as this one does. -/
theorem SyntaxReason.message_ne_pastEnd {reason : SyntaxReason} (h : reason ≠ .pastEnd) :
    reason.message ≠ "Can't parse after the end of the file" := by
  have first : ∃ c, reason.message.toList.head? = some c ∧ c ≠ 'C' := by
    cases reason with
    | unexpected what found =>
        exact ⟨'E', head?_message _ (head?_message _ (head?_message _ rfl)), by decide⟩
    | arrowInGraph | lineInDigraph => exact ⟨_, rfl, by decide⟩
    | fault f =>
        cases f with
        | openString | openHtml | stringExpected | strayDash => exact ⟨_, rfl, by decide⟩
        | strayChar c | afterNumeral c =>
            exact ⟨'U', head?_message _ (head?_message _ rfl), by decide⟩
    | pastEnd => exact absurd rfl h
  intro he
  obtain ⟨c, hc, hne⟩ := first
  rw [he] at hc
  exact hne (Option.some.inj hc).symm

/-! ## Syntax errors -/

section Errors
variable {text : String} {e : SyntaxError}

/-- The parser fails before it would go past the end of a text, and what it has passed
begins a file. -/
theorem Parser.ofText_leads {room : Nat} {f : SyntaxFault} {q : Parser}
    (h : Parser.file room (Parser.ofText text.toList) = .error f q) :
    f.reason ≠ .pastEnd ∧ ∃ ts, tokensOf text = ts ++ q.tokens ∧
      Parser.Completes Parser.IsFile ts := by
  have hc : (Parser.ofText text.toList).current.token ≠ .finish := by simp [Parser.ofText]
  rcases Parser.file_leads hc h with ⟨hr, hfin⟩ | ⟨hreason, ts, hts, completes⟩
  · have hs := (Parser.Local.file room).suffix (Parser.ofText text.toList)
    rw [h] at hs
    obtain ⟨front, hfront⟩ := hs
    obtain ⟨us, hus, _⟩ := tokensOf_finish text
    have hlast : front.map Lexeme.token ++ q.tokens = .mark .colon :: tokensOf text := by
      have hmap := congrArg (List.map Lexeme.token) hfront
      rwa [List.map_append] at hmap
    rw [Parser.tokens, hr, hus, ← List.cons_append] at hlast
    exact absurd (List.cons.inj (List.append_inj' hlast rfl).2).1 hfin
  · exact ⟨hreason, ts, (List.cons.inj hts).2, completes⟩

/-- The tokens of a text in front of the one that its error stands at. -/
theorem Tree.parse_error_split (h : Tree.parse text = .error e) :
    ∃ front l back, lexemesOf text.toList = front ++ l :: back ∧
      e.place = Text.placeAt text.toList l.start ∧ e.reason ≠ .pastEnd ∧
      Viable (front.map Lexeme.token) ∧ ¬ Viable (front.map Lexeme.token ++ [l.token]) := by
  obtain ⟨f, ⟨q, hq⟩, rfl⟩ := Tree.parse_eq_error.1 h
  obtain ⟨hreason, ts, hts, completes⟩ := Parser.ofText_leads hq
  obtain ⟨front, hfront, hfails⟩ := Parser.file_fails_with (by simp [Parser.ofText])
    (Nat.le_add_right _ 8) hq hreason
  have htokens : .mark .colon :: ts = front.map Lexeme.token := by
    have hmap := congrArg (List.map Lexeme.token) hfront
    rw [List.map_append] at hmap
    exact List.append_cancel_right ((congrArg (Token.mark .colon :: ·) hts).symm.trans hmap)
  cases front with
  | nil => cases htokens
  | cons c front =>
      obtain ⟨rfl, hlex⟩ := List.cons.inj hfront
      obtain ⟨_, rfl⟩ := List.cons.inj htokens
      have hmem : front.map Lexeme.token ⊆ tokensOf text := by simp [hts]
      refine ⟨front, q.current, q.rest, hlex, ?_, hreason, viable_of_completes hmem completes,
        not_viable_of_fails hfails⟩
      exact congrArg (Text.placeAt _) ((Parser.Local.file _).place hq)

/-- The error of a text stands at the first of its tokens up to which they are not
viable, and a fault is never viable.  The end of the text stands at its end, and the
parser does not try to go past it. -/
theorem Tree.parse_error_first (h : Tree.parse text = .error e) :
    ∃ n l, (lexemesOf text.toList)[n]? = some l ∧
      ¬ Viable ((tokensOf text).take (n + 1)) ∧
      (∀ m < n, Viable ((tokensOf text).take (m + 1))) ∧
      e.place = (Lexer.ofText text.toList).placeAt l.start ∧
      (l.token = .finish → l.start = text.toList.length) ∧
      (∀ ts, Viable ts → Parser.Faultless ts) ∧
      e.reason.message ≠ "Can't parse after the end of the file" := by
  obtain ⟨front, l, back, hlex, hplace, hreason, viable, offends⟩ := Tree.parse_error_split h
  have htokens : tokensOf text = front.map Lexeme.token ++ l.token :: back.map Lexeme.token := by
    simp [tokensOf, hlex]
  have hmem : l ∈ lexemesOf text.toList := by simp [hlex]
  refine ⟨front.length, l, by simp [hlex], ?_, fun m hm => viable.of_prefix ?_, hplace,
    Lexer.finish_start hmem, fun _ => Viable.faultless, SyntaxReason.message_ne_pastEnd hreason⟩
  · rw [htokens, List.take_append, List.take_of_length_le (by simp)]
    simpa using offends
  · rw [htokens, List.take_append_of_le_length (by simp; omega)]
    exact List.take_prefix _ _

/-- The graph is undirected, so the error stands at the arrow. -/
theorem Tree.parse_error_first_arrow :
    ∃ e n l, Tree.parse "graph \x7b a -> b \x7d" = .error e ∧ e.place = ⟨1, 11⟩ ∧
      (lexemesOf "graph \x7b a -> b \x7d".toList)[n]? = some l ∧
      ¬ Viable ((tokensOf "graph \x7b a -> b \x7d").take (n + 1)) ∧
      ∀ m < n, Viable ((tokensOf "graph \x7b a -> b \x7d").take (m + 1)) := by
  have hfails : (Tree.parse "graph \x7b a -> b \x7d").map (fun _ => ()) =
      .error ⟨⟨1, 11⟩, .arrowInGraph, "graph \x7b a -> b \x7d\n          ^"⟩ := by decide +kernel
  cases h : Tree.parse "graph \x7b a -> b \x7d" with
  | ok trees =>
      rw [h] at hfails
      cases hfails
  | error e =>
      rw [h] at hfails
      cases hfails
      obtain ⟨n, l, hl, offends, viable, _⟩ := Tree.parse_error_first h
      exact ⟨_, n, l, rfl, rfl, hl, offends, viable⟩

end Errors

end DotLang
