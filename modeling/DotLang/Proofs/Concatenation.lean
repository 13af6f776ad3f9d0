import DotLang.Proofs.Insertion
/-!
# Strings joined by plus signs

Behind a string the lexer looks over the gap for a plus sign.  If there is one, it goes
on with the string behind it, and if not, it comes back to the closing quote (`goOn`).  So
a plus sign and a literal add the value of the literal to what is read so far and change
nothing else (`Summand.goOn_text`), and a row of them adds the values one behind the other
(`goOn_summands`).  What was read ahead for the last one leaves no trace
(`Lexer.next_sum`).

The gaps around a plus sign are closed (`ClosedGap`): every comment in them ends in them,
so they are the same gaps in front of anything.
-/

namespace DotLang

open Text

/-! ## Closed gaps -/

/-- Blanks and comments that end in the gap.  Only on a line that is blank so far a `#`
starts one. -/
inductive ClosedGap : Bool → List Char → Prop
  | nil {b : Bool} : ClosedGap b []
  | blank {b : Bool} {c : Char} {gap : List Char} (hc : isBlank c = true)
      (rest : ClosedGap (b || c == '\n') gap) : ClosedGap b (c :: gap)
  | line {b : Bool} {body gap : List Char} (oneLine : '\n' ∉ body) (rest : ClosedGap true gap) :
      ClosedGap b ('/' :: '/' :: (body ++ '\n' :: gap))
  | block {b : Bool} {body gap : List Char} (inside : ¬ ['*', '/'] <:+: body)
      (rest : ClosedGap false gap) :
      ClosedGap b ('/' :: '*' :: (body ++ '*' :: '/' :: gap))
  | hash {body gap : List Char} (oneLine : '\n' ∉ body) (rest : ClosedGap true gap) :
      ClosedGap true ('#' :: (body ++ '\n' :: gap))

/-- The line feed behind a comment is a blank of the gap. -/
theorem endsLine_cons (cs : List Char) : EndsLine ('\n' :: cs) := by
  intro c hc
  cases hc
  rfl

theorem ClosedGap.isGap {b : Bool} {gap : List Char} (h : ClosedGap b gap) (behind : List Char) :
    IsGap b gap behind := by
  induction h with
  | nil => exact .nil
  | blank hc _ ih => exact .blank hc ih
  | @line b body gap oneLine _ ih =>
      rw [← List.cons_append, ← List.cons_append]
      exact .comment (.line oneLine (endsLine_cons _)) (.blank (by decide) ih)
  | @block b body gap inside _ ih =>
      have hsplit : '/' :: '*' :: (body ++ '*' :: '/' :: gap) =
          '/' :: '*' :: (body ++ ['*', '/']) ++ gap := by simp
      rw [hsplit]
      exact .comment (.block inside) ih
  | @hash body gap oneLine _ ih =>
      rw [← List.cons_append]
      exact .comment (.hash rfl oneLine (endsLine_cons _)) (.blank (by decide) ih)

/-! ## Literals and sums -/

/-- A text that is read as one string, from its first character to its last one, when it
stands alone. -/
structure StringLiteral where
  text : List Char
  value : String
  alone : lexemesOf text =
    [⟨.id (.quoted value), 0, text.length⟩, ⟨.finish, text.length, text.length⟩]

/-- A plus sign with the gaps around it, and the literal behind it. -/
structure Summand where
  before : List Char
  behind : List Char
  literal : StringLiteral
  before_closed : ClosedGap false before
  behind_closed : ClosedGap false behind

def Summand.text (a : Summand) : List Char := a.before ++ '+' :: (a.behind ++ a.literal.text)

/-- The text of literals that are joined by plus signs. -/
def sumText (first : StringLiteral) (more : List Summand) : List Char :=
  first.text ++ more.flatMap Summand.text

/-- The values of the literals, one behind the other. -/
def sumValue (first : StringLiteral) (more : List Summand) : String :=
  String.join (first.value :: more.map fun a => a.literal.value)

/-- A literal begins and ends with a quote, and it is read in front of any text. -/
theorem StringLiteral.exists_body (a : StringLiteral) :
    ∃ w, a.text = '"' :: (w ++ ['"']) ∧
      ∀ rest, joinedStrings (w ++ '"' :: rest) = goOn a.value.toList rest := by
  obtain ⟨text, value, alone⟩ := a
  have hne : (Lexer.ofText text).toToken.ahead ≠ [] := by
    intro hnil
    rw [lexemesOf, Lexer.lexemes_of_nil hnil] at alone
    cases alone
  rw [lexemesOf, Lexer.lexemes_of_token hne] at alone
  obtain ⟨hfirst, -⟩ := List.cons.inj alone
  obtain ⟨htoken, hstart, hend⟩ := Lexeme.mk.inj hfirst
  -- The token starts where the text does, and nothing is left behind it.
  have hahead : (Lexer.ofText text).toToken.ahead = text := by
    have hwhole := Lexer.text_toToken (Lexer.ofText text)
    rwa [Lexer.text, List.eq_nil_of_length_eq_zero hstart] at hwhole
  have hrest : (Lexer.ofText text).next.2.ahead = [] := by
    have hlength := Lexer.length_text (Lexer.ofText text).next.2
    rw [Lexer.text_next, hend] at hlength
    exact List.eq_nil_of_length_eq_zero (Nat.left_eq_add.1 hlength)
  have hreads := Lexer.readsToken_next (l := Lexer.ofText text) (htoken ▸ Token.Inner.id _)
  rw [htoken, hahead, hrest] at hreads
  generalize hs : Token.id (.quoted value) = t at hreads
  cases hreads with
  | string hj =>
      cases hs
      obtain ⟨w, rfl, hw⟩ := joinedStrings_replace hj
      exact ⟨w, rfl, by rwa [String.toList_ofList]⟩
  | word hc hw => exact absurd hs.symm (Token.ofWord_ne_quoted _ _)
  | mark | arrow | line | html | numeral | signed => cases hs

theorem Summand.goOn_text (a : Summand) (s rest : List Char) :
    goOn s (a.text ++ rest) = goOn (s ++ a.literal.value.toList) rest := by
  obtain ⟨w, htext, hw⟩ := a.literal.exists_body
  have hp : skipGap false (a.text ++ rest) = '+' :: (a.behind ++ '"' :: (w ++ '"' :: rest)) := by
    have hsplit : a.text ++ rest = a.before ++ '+' :: (a.behind ++ '"' :: (w ++ '"' :: rest)) := by
      simp [Summand.text, htext]
    rw [hsplit]
    exact (a.before_closed.isGap _).skipGap_cons (by decide) (by decide) (by decide)
  have hb : skipGap false (a.behind ++ '"' :: (w ++ '"' :: rest)) = '"' :: (w ++ '"' :: rest) :=
    (a.behind_closed.isGap _).skipGap_cons (by decide) (by decide) (by decide)
  rw [goOn_string hp hb, hw, goOn_prepend]

theorem goOn_summands (s : List Char) (more : List Summand) (rest : List Char) :
    goOn s (more.flatMap Summand.text ++ rest) =
      goOn (s ++ more.flatMap fun a => a.literal.value.toList) rest := by
  induction more generalizing s with
  | nil => simp
  | cons a more ih =>
      rw [List.flatMap_cons, List.append_assoc, a.goOn_text, ih, List.flatMap_cons,
        List.append_assoc]

theorem toList_sumValue (first : StringLiteral) (more : List Summand) :
    (sumValue first more).toList =
      first.value.toList ++ more.flatMap fun a => a.literal.value.toList := by
  rw [sumValue, String.toList_join, List.flatMap_cons, List.flatMap_map]

/-- A sum begins and ends with a quote, and it is read in front of any text. -/
theorem joinedStrings_sum (first : StringLiteral) (more : List Summand) :
    ∃ w, sumText first more = '"' :: (w ++ ['"']) ∧
      ∀ rest, joinedStrings (w ++ '"' :: rest) = goOn (sumValue first more).toList rest := by
  obtain ⟨u, htext, hu⟩ := first.exists_body
  have hall : joinedStrings (u ++ '"' :: more.flatMap Summand.text) =
      (.ok (sumValue first more).toList, []) := by
    rw [hu, ← List.append_nil (more.flatMap _), goOn_summands, ← toList_sumValue]
    exact goOn_end (by simp [skipGap_nil])
  obtain ⟨w, hw, hrest⟩ := joinedStrings_replace hall
  exact ⟨w, by rw [← hw, sumText, htext]; simp, hrest⟩

section
variable (first : StringLiteral) (more : List Summand) {rest after : List Char}

theorem readToken_sum (hp : ∀ after, skipGap false rest ≠ '+' :: after) :
    readToken (sumText first more ++ rest) = (.id (.quoted (sumValue first more)), rest) := by
  obtain ⟨w, htext, hw⟩ := joinedStrings_sum first more
  have hread := ReadsToken.string ((hw rest).trans (goOn_end hp))
  rw [String.ofList_toList] at hread
  rw [htext, List.cons_append, List.append_assoc]
  exact hread.readToken

theorem readToken_sum_fault (hp : skipGap false rest = '+' :: after)
    (hb : ∀ body, skipGap false after ≠ '"' :: body) :
    readToken (sumText first more ++ rest) = (.fault .stringExpected, skipGap false after) := by
  obtain ⟨w, htext, hw⟩ := joinedStrings_sum first more
  have hread := (hw rest).trans (goOn_fault hp hb)
  have hm : Mark.ofChar? '"' = none := rfl
  simp [htext, readToken, hm, readString, hread]

end

theorem lineBlank_behind_quote {l : Lexer} {w rest : List Char}
    (h : l.ahead = '"' :: (w ++ ['"']) ++ rest) : (l.moveTo rest).lineBlank = false := by
  rw [Lexer.lineBlank_moveTo h]
  simp [lineBlankAfter, isBlank]

/-- Literals that plus signs join are one string with the values one behind the other, if
the next character behind the gap is no plus sign.  The lexer then stands directly behind the
last closing quote, and reads on as any lexer with this text ahead.  A plus sign with no
string behind it is a fault. -/
theorem Lexer.next_sum (first : StringLiteral) (more : List Summand) {l : Lexer}
    {rest : List Char} (h : l.toToken.ahead = sumText first more ++ rest) :
    ((∀ after, skipGap false rest ≠ '+' :: after) →
      l.next.1 = .id (.quoted (sumValue first more)) ∧
      l.next.2 = l.toToken.advance (sumText first more).length ∧
      l.next.2.pos = l.toToken.pos + (sumText first more).length ∧
      l.next.2.behind.head? = some '"' ∧ l.next.2.ahead = rest ∧
      l.next.2.toToken.ahead = skipGap false rest ∧
      ∀ m : Lexer, m.ahead = rest → m.lineBlank = false →
        l.next.2.lexemes.map Lexeme.token = m.lexemes.map Lexeme.token) ∧
    (∀ after, skipGap false rest = '+' :: after → (∀ body, skipGap false after ≠ '"' :: body) →
      l.next.1 = .fault .stringExpected) ∧
    ∀ (m : Lexer) (after : List Char), m.toToken.ahead = '+' :: after →
      m.next.1 = .fault (.strayChar '+') := by
  refine ⟨fun hend => ?_, fun after hp hb => ?_, fun m after hm => ?_⟩
  · have hread := readToken_sum first more hend
    rw [← h] at hread
    have htoken : l.next.1 = .id (.quoted (sumValue first more)) := congrArg Prod.fst hread
    have hahead : l.next.2.ahead = rest := by
      rw [ahead_next, ← ahead_toToken, hread]
    have hnext : l.next.2 = l.toToken.moveTo rest := by
      rw [moveTo_next, hahead]
    obtain ⟨w, hw, _⟩ := joinedStrings_sum first more
    have hblank : l.next.2.lineBlank = false := by
      rw [hnext]
      exact lineBlank_behind_quote (by rw [h, hw])
    have hskip : l.next.2.toToken.ahead = skipGap false rest := by
      rw [ahead_toToken, hblank, hahead]
    refine ⟨htoken, ?_, ?_, ?_, hahead, hskip, fun m hm hline => ?_⟩
    · rw [hnext, moveTo, h, List.length_append, Nat.add_sub_cancel]
    · rw [hnext, moveTo_append h, pos, pos, List.length_append, List.length_reverse, Nat.add_comm]
    · rw [hnext, moveTo_append h, hw]
      simp
    · exact tokens_congr (by rw [hskip, ahead_toToken, hm, hline])
  · have hread := readToken_sum_fault first more hp hb
    rw [← h] at hread
    exact congrArg Prod.fst hread
  · calc m.next.1 = (readToken m.toToken.ahead).1 := rfl
      _ = .fault (.strayChar '+') := by rw [hm]; rfl

/-- Two literals, with a plus sign in the comment in front of the plus sign and a string in
the comment behind it. -/
theorem Lexer.next_sum_comments :
    ∃ (first : StringLiteral) (more : List Summand) (l : Lexer),
      l = .ofText "\n\"a\\\"\" /* + */ + // \"x\"\n\"b\" -> c".toList ∧ more ≠ [] ∧
      l.toToken.ahead = sumText first more ++ " -> c".toList ∧
      (∀ after, skipGap false " -> c".toList ≠ '+' :: after) ∧
      l.next.1 = .id (.quoted "a\"b") ∧ l.next.2.ahead = " -> c".toList := by
  let first : StringLiteral := ⟨"\"a\\\"\"".toList, "a\"", by decide +kernel⟩
  let second : StringLiteral := ⟨"\"b\"".toList, "b", by decide +kernel⟩
  let more : List Summand := [{
    before := " /* + */ ".toList
    behind := " // \"x\"\n".toList
    literal := second
    before_closed := .blank rfl (@ClosedGap.block _ [' ', '+', ' '] _ (by decide) (.blank rfl .nil))
    behind_closed := .blank rfl (@ClosedGap.line _ [' ', '"', 'x', '"'] _ (by decide) .nil) }]
  let l : Lexer := .ofText "\n\"a\\\"\" /* + */ + // \"x\"\n\"b\" -> c".toList
  have h : l.toToken.ahead = sumText first more ++ " -> c".toList := by decide +kernel
  have hend : ∀ after, skipGap false " -> c".toList ≠ '+' :: after := by
    have hskip : skipGap false " -> c".toList = "-> c".toList := by decide +kernel
    rw [hskip]
    simp
  obtain ⟨htoken, -, -, -, hahead, -⟩ := (Lexer.next_sum first more h).1 hend
  exact ⟨first, more, l, rfl, by simp [more], h, hend, htoken.trans (by decide), hahead⟩

end DotLang
