import DotLang.Proofs.Progress
import DotLang.Proofs.TokenForms
/-!
# Numerals

Three places say what a numeral is: `readNumber` with the two tokens that use it,
`isNumeral`, which decides how a text is written, and the grammar
`-?(.[0-9]+ | [0-9]+(.[0-9]*)?)`, here `IsNumeral`.  The last two are the same
(`isNumeral_iff`).

A numeral without a sign is read as the grammar has it, and no word stands behind
it.  Behind a minus sign neither is asked for: a point alone is read as a numeral,
and a word may follow.  `numerals_read` says that these are the only differences.
-/

namespace DotLang

open Text

/-- A number, with a minus sign in front of it or without. -/
def IsNumeral (cs : List Char) : Prop :=
  ∃ sign number, cs = sign ++ number ∧ (sign = [] ∨ sign = ['-']) ∧ IsNumber number

/-- A minus sign in front of the text makes the numeral with which it starts a
negative one, and if it starts with no numeral, the sign is a fault. -/
def SignFree (text : String) : Prop :=
  (∀ n, (tokensOf text).head? = some (.id ⟨n, .numeral⟩) →
    (tokensOf ("-" ++ text)).head? = some (.id ⟨"-" ++ n, .numeral⟩)) ∧
  ((∀ n, (tokensOf text).head? ≠ some (.id ⟨n, .numeral⟩)) →
    ∃ f, (tokensOf ("-" ++ text)).head? = some (.fault f))

section Reading
variable {c : Char} {cs number rest : List Char} {v : String}

/-! ## The grammar -/

theorem isNumeral_of_isNumber (hn : IsNumber number) :
    isNumeral number = true ∧ isNumeral ('-' :: number) = true := by
  have hsign := hn.not_sign
  have bare : isNumeral number = true := by
    cases hn with
    | int digits some_digit =>
        obtain ⟨ht, hd⟩ := span_append [] digits (by simp)
        rw [List.append_nil] at ht hd
        simp [isNumeral, hsign, ht, hd, some_digit]
    | @point int frac digits decimals some_digit =>
        obtain ⟨ht, hd⟩ := span_append ('.' :: frac) digits (by simp)
        rw [isNumeral, if_neg hsign]
        simp only [ht, hd, decimals]
        simpa using some_digit
  refine ⟨bare, ?_⟩
  rw [isNumeral, if_neg hsign] at bare
  exact bare

theorem isNumeral_iff : isNumeral cs = true ↔ IsNumeral cs := by
  constructor
  · exact isNumber_of_isNumeral
  · rintro ⟨sign, number, rfl, rfl | rfl, hn⟩
    · exact (isNumeral_of_isNumber hn).1
    · exact (isNumeral_of_isNumber hn).2

/-! ## Reading a numeral -/

theorem not_isNumber_point : ¬ IsNumber ['.'] := by
  intro h
  have hp := (isNumeral_of_isNumber h).1
  exact absurd hp (by decide)

/-- What is read behind a minus sign is a numeral of the grammar, but for the point
alone. -/
theorem isNumeral_signed_iff (hv : v.toList = '-' :: number)
    (hn : IsNumber number ∨ number = ['.']) : IsNumeral v.toList ↔ v ≠ "-." := by
  rcases hn with hn | rfl
  · refine iff_of_true ⟨['-'], number, hv, Or.inr rfl, hn⟩ ?_
    rintro rfl
    obtain rfl : number = ['.'] := (List.cons.inj hv).2.symm
    exact not_isNumber_point hn
  · have he : v = "-." := String.toList_inj.1 hv
    refine iff_of_false ?_ fun hne => hne he
    rw [← isNumeral_iff, he]
    decide

/-- A numeral token is a number with no word behind it, or a minus sign with a number
or a point. -/
theorem ReadsToken.isNumber_or_signed (h : ReadsToken cs (.id ⟨v, .numeral⟩) rest) :
    (IsNumber v.toList ∧ cs = v.toList ++ rest ∧ ¬ WordAhead rest) ∨
      ∃ number, v.toList = '-' :: number ∧ (IsNumber number ∨ number = ['.']) ∧
        cs = v.toList ++ rest := by
  generalize ht : Token.id ⟨v, .numeral⟩ = t at h
  cases h with
  | mark | arrow | line | string | html => cases ht
  | @word c cs w rest hc hw =>
      simp only [Token.ofWord] at ht
      split at ht <;> cases ht
  | numeral hs hr hw =>
      cases ht
      have hn := isNumber_of_startsNumeral hs hr
      exact Or.inl ⟨by simpa using hn, by simpa using (readNumber_iff.1 hr).1, hw⟩
  | signed hc hr =>
      cases ht
      exact Or.inr ⟨_, by simp, isNumber_or_point hc hr, by simpa using (readNumber_iff.1 hr).1⟩

/-! ## The first token -/

theorem startsToken_of_digit (hc : c.isDigit = true ∨ c = '.') : StartsToken c := by
  rcases hc with hc | rfl
  · have hs : startsNumeral [c] = true := by simp [startsNumeral, hc]
    exact (readToken_of_startsNumeral hs).1
  · exact ⟨by decide, by decide, by decide, by decide⟩

/-- What starts with a digit or a point starts with a numeral, if its number has a
digit and no word behind it, and with a fault otherwise. -/
theorem readToken_digit (hc : c.isDigit = true ∨ c = '.')
    (hr : readNumber (c :: cs) = (number, rest)) :
    if number ≠ ['.'] ∧ ¬ WordAhead rest then
      readToken (c :: cs) = (.id ⟨String.ofList number, .numeral⟩, rest)
    else ∃ f more, readToken (c :: cs) = (.fault f, more) := by
  obtain ⟨he, hread⟩ := readNumber_iff.1 hr
  by_cases hp : number = ['.']
  · rw [if_neg fun h => h.1 hp]
    subst hp
    obtain ⟨rfl, rfl⟩ := List.cons.inj he
    -- Behind the point there is no digit.
    have hs : startsNumeral ('.' :: cs) = false := by
      cases cs with
      | nil => rfl
      | cons d cs => simp [startsNumeral, (hread.stops d rfl).1]
    have hm : Mark.ofChar? '.' = none := rfl
    have hi : isIdStart '.' = false := by decide
    exact ⟨.strayChar '.', cs, by simp [readToken, hm, hi, hs]⟩
  · have hn : IsNumber number := (isNumber_or_point hc hr).resolve_right hp
    have hs : startsNumeral (c :: cs) = true := by
      rw [he]
      exact hn.startsNumeral rest
    rw [(readToken_of_startsNumeral hs).2]
    split
    · next h => exact readNumeral_of_not_wordAhead hr h.2
    · next h =>
        have hw : WordAhead rest := Decidable.not_not.1 fun hw => h ⟨hp, hw⟩
        obtain ⟨f, hf⟩ := readNumeral_of_wordAhead hr hw
        exact ⟨f, rest, hf⟩

theorem signFree_iff (hc : c.isDigit = true ∨ c = '.') (hr : readNumber (c :: cs) = (number, rest)) :
    SignFree (String.ofList (c :: cs)) ↔ number ≠ ['.'] ∧ ¬ WordAhead rest := by
  have hfirst : (tokensOf (String.ofList (c :: cs))).head? = some (readToken (c :: cs)).1 := by
    rw [tokensOf_head?, (startsToken_of_digit hc).skipGap]
  have hsigned : (tokensOf ("-" ++ String.ofList (c :: cs))).head? =
      some (.id ⟨"-" ++ String.ofList number, .numeral⟩) := by
    have ht : "-" ++ String.ofList (c :: cs) = String.ofList ('-' :: c :: cs) := by
      rw [← String.toList_inj]
      simp
    have hn : "-" ++ String.ofList number = String.ofList ('-' :: number) := by
      rw [← String.toList_inj]
      simp
    have hdash : StartsToken '-' := ⟨by decide, by decide, by decide, by decide⟩
    have hm : Mark.ofChar? '-' = none := rfl
    rw [ht, hn, tokensOf_head?, hdash.skipGap]
    simp [readToken, hm, readDash_of_digit hc hr]
  have hread := readToken_digit hc hr
  rw [SignFree, hfirst, hsigned]
  split at hread
  · next h =>
      rw [hread]
      refine iff_of_true ⟨fun n hn => ?_, fun hn => absurd rfl (hn _)⟩ h
      cases hn
      rfl
  · next h =>
      obtain ⟨f, more, hf⟩ := hread
      rw [hf]
      refine iff_of_false (fun hs => ?_) h
      obtain ⟨g, hg⟩ := hs.2 (by simp)
      cases hg

end Reading

/-! ## All numerals -/

theorem Lexer.span_next {l : Lexer} {w : List Char} (h : l.toToken.ahead = w ++ l.next.2.ahead) :
    (l.text.take l.next.2.pos).drop l.next.2.start = w := by
  have hpos : l.next.2.pos = (l.toToken.behind.reverse ++ w).length := by
    rw [moveTo_next, moveTo_append h]
    simp [pos, Nat.add_comm]
  have htext : l.text = l.toToken.behind.reverse ++ w ++ l.next.2.ahead := by
    rw [List.append_assoc, ← h]
    exact (text_toToken l).symm
  rw [hpos, start_next, ← length_reverse_behind, htext, List.take_left, List.drop_left]

/-- A numeral token is the text from its start to its end.  It is a numeral of the
grammar with no word behind it, unless it has a minus sign and is `-.` or a word
stands behind it.  So the sign makes a difference exactly for a point without digits
and for a number with a word behind it. -/
theorem numerals_read (l : Lexer) (text : String) :
    (∀ v, l.next.1 = .id ⟨v, .numeral⟩ →
      v.toList = (l.text.take l.next.2.pos).drop l.next.2.start ∧
      (IsNumeral v.toList ∧ isNumeral v.toList = true ∧ ¬ WordAhead l.next.2.ahead ↔
        (v.toList.head? = some '-' → v ≠ "-." ∧ ¬ WordAhead l.next.2.ahead))) ∧
    ∀ c, text.toList.head? = some c → c.isDigit = true ∨ c = '.' →
      (SignFree text ↔
        (readNumber text.toList).1 ≠ ['.'] ∧ ¬ WordAhead (readNumber text.toList).2) := by
  constructor
  · intro v h
    have hread : ReadsToken l.toToken.ahead l.next.1 l.next.2.ahead :=
      Lexer.readsToken_next (h ▸ .id _)
    rw [h] at hread
    rcases hread.isNumber_or_signed with ⟨hn, he, hw⟩ | ⟨number, hv, hn, he⟩
    · have hnumeral : IsNumeral v.toList := ⟨[], v.toList, rfl, Or.inl rfl, hn⟩
      refine ⟨(Lexer.span_next he).symm, ?_⟩
      exact iff_of_true ⟨hnumeral, isNumeral_iff.2 hnumeral, hw⟩ fun hsign =>
        absurd hsign hn.not_sign
    · have hsign : v.toList.head? = some '-' := by rw [hv]; rfl
      have hgrammar := isNumeral_signed_iff hv hn
      refine ⟨(Lexer.span_next he).symm, ?_, ?_⟩
      · rintro ⟨hn, _, hw⟩ _
        exact ⟨hgrammar.1 hn, hw⟩
      · intro h
        obtain ⟨hne, hw⟩ := h hsign
        have hn := hgrammar.2 hne
        exact ⟨hn, isNumeral_iff.2 hn, hw⟩
  · intro c hc hdigit
    obtain ⟨cs, hcs⟩ := List.head?_eq_some_iff.1 hc
    have h : SignFree (String.ofList (c :: cs)) ↔ _ := signFree_iff hdigit rfl
    rwa [← hcs, String.ofList_toList] at h

/-- A negative numeral in front of a word, and a number in front of a point. -/
theorem numerals_read_before_word :
    let l : Lexer := ⟨['['], "-1.5pt".toList, 0⟩
    l.next.1 = .id ⟨"-1.5", .numeral⟩ ∧
      "-1.5".toList = (l.text.take l.next.2.pos).drop l.next.2.start ∧ SignFree "1.5.pt" :=
  have hread : (Lexer.mk ['['] "-1.5pt".toList 0).next.1 = .id ⟨"-1.5", .numeral⟩ := by
    decide +kernel
  have hnumerals := numerals_read ⟨['['], "-1.5pt".toList, 0⟩ "1.5.pt"
  ⟨hread, (hnumerals.1 _ hread).1, (hnumerals.2 '1' rfl (by decide)).2 (by decide +kernel)⟩

/-- A point alone is a numeral behind a minus sign, which the grammar does not have,
and which it is not without the sign. -/
theorem dash_point_read_as_numeral :
    tokensOf "-." = [.id ⟨"-.", .numeral⟩, .finish] ∧ ¬ IsNumeral "-.".toList ∧
      ¬ SignFree "." := by
  refine ⟨by decide +kernel, ?_, ?_⟩
  · rw [← isNumeral_iff]
    decide
  · rintro ⟨_, h⟩
    have hpoint : (tokensOf ".").head? = some (.fault (.strayChar '.')) := by decide +kernel
    have hdash : (tokensOf ("-" ++ ".")).head? = some (.id ⟨"-.", .numeral⟩) := by decide +kernel
    obtain ⟨f, hf⟩ := h fun n hn => by
      rw [hpoint] at hn
      cases hn
    rw [hdash] at hf
    cases hf

end DotLang
