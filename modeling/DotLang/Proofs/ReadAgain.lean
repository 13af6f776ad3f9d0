import DotLang.Proofs.WrittenIds
import DotLang.Proofs.WrittenTokens
/-!
# IDs that were read are written and read again

An ID that the lexer has read is written in the form in which it was read.  A word
was read up to its end and is no keyword, and an HTML string was read up to the
bracket that closes it, so both can be written again.

What a quoted string holds is not every text.  A backslash before a double quote or
at the end of a line is dropped, and two backslashes stay two, so a single backslash
that is kept stands in front of some other character (`Decoded`).  That is so across
plus signs as well.  Hence the runs of backslashes are even before a double quote,
before a line feed and at the end, as a quoted form needs it.

One case is left.  A carriage return and a line feed end a line only together, and
what stands between them in the text may be dropped: a continued line, or the quotes
and the plus sign of joined strings.  So a single backslash may come to stand in front
of the end of a line that was none when it was read.  `Id.read_again_iff` says that
nothing else goes wrong.
-/

namespace DotLang

open Text

/-! ## What quoted strings hold -/

/-- Characters, pairs of backslashes, and single backslashes in front of characters
that give them no meaning. -/
inductive Decoded : List Char → Prop
  | nil : Decoded []
  | char {c : Char} {cs : List Char} (hc : c ≠ '\\') (rest : Decoded cs) : Decoded (c :: cs)
  | pair {cs : List Char} (rest : Decoded cs) : Decoded ('\\' :: '\\' :: cs)
  | single {c : Char} {cs : List Char} (hc : c ≠ '\\') (hquote : c ≠ '"') (hline : c ≠ '\n')
      (rest : Decoded cs) : Decoded ('\\' :: c :: cs)

/-- Before a carriage return and a line feed every whole run of backslashes is of
even length. -/
def ReturnsEven (cs : List Char) : Prop :=
  ∀ (before : List Char) (n : Nat) (behind : List Char),
    cs = before ++ List.replicate n '\\' ++ '\r' :: '\n' :: behind →
      before.getLast? ≠ some '\\' → n % 2 = 0

section Decoding
variable {c : Char} {cs s rest : List Char}

theorem Decoded.tail (h : Decoded (c :: cs)) (hc : c ≠ '\\') : Decoded cs := by
  cases h with
  | char _ rest => exact rest
  | pair => exact absurd rfl hc
  | single => exact absurd rfl hc

theorem Decoded.append {t : List Char} (hs : Decoded s) (ht : Decoded t) : Decoded (s ++ t) := by
  induction hs with
  | nil => exact ht
  | char hc _ ih => exact .char hc ih
  | pair _ ih => exact .pair ih
  | single hc hquote hline _ ih => exact .single hc hquote hline ih

theorem quotedBody_decoded (h : quotedBody cs = some (s, rest)) : Decoded s := by
  fun_induction quotedBody cs generalizing s with
  | case1 => cases h
  | case2 cs =>
      cases h
      exact .nil
  | case3 cs ih =>
      obtain ⟨⟨u, r⟩, hu, he⟩ := Option.map_eq_some_iff.1 h
      cases he
      exact .char (by decide) (ih hu)
  | case4 cs ih =>
      obtain ⟨⟨u, r⟩, hu, he⟩ := Option.map_eq_some_iff.1 h
      cases he
      exact .pair (ih hu)
  | case5 cs ih | case6 cs ih => exact ih h
  | case7 c cs _ hescape hback hline _ ih =>
      obtain ⟨⟨u, r⟩, hu, he⟩ := Option.map_eq_some_iff.1 h
      cases he
      by_cases hc : c = '\\'
      · -- The character behind the backslash is read next, and it is an ordinary one.
        cases cs with
        | nil => cases hu
        | cons d cs =>
            have hd : d ≠ '\\' := fun hd => hback cs hc (hd ▸ rfl)
            have hquote : d ≠ '"' := fun hd => hescape cs hc (hd ▸ rfl)
            have hrest := ih hu
            rw [quotedBody_other hquote hd] at hu
            obtain ⟨⟨v, r'⟩, hv, he⟩ := Option.map_eq_some_iff.1 hu
            cases he
            subst hc
            exact .single hd hquote (fun hd => hline cs rfl (hd ▸ rfl)) (hrest.tail hd)
      · exact .char hc (ih hu)

theorem joinedStrings_decoded (h : joinedStrings cs = (.ok s, rest)) : Decoded s := by
  fun_induction joinedStrings cs generalizing s with
  | case1 => cases h
  | case2 cs first rest' hq after hp body hb r rest'' hj ih =>
      obtain ⟨hr, rfl⟩ := Prod.mk.inj h
      cases r with
      | error => cases hr
      | ok more =>
          cases hr
          exact (quotedBody_decoded hq).append (ih hj)
  | case3 => cases h
  | case4 cs first rest' hq hp =>
      cases h
      exact quotedBody_decoded hq

/-! ## Runs of backslashes -/

theorem ReturnsEven.tail (h : ReturnsEven (c :: cs)) (hc : c ≠ '\\') : ReturnsEven cs := by
  intro before n behind he hlast
  refine h (c :: before) n behind (by rw [he]; rfl) ?_
  cases before with
  | nil => simpa using hc
  | cons d before => rwa [List.getLast?_cons_of_ne_nil (by simp)]

theorem ReturnsEven.behind_pair (h : ReturnsEven ('\\' :: '\\' :: cs)) : ReturnsEven cs := by
  intro before n behind he hlast
  cases before with
  | nil =>
      have hn := h [] (n + 2) behind (by rw [he]; rfl) (by simp)
      omega
  | cons d before =>
      refine h ('\\' :: '\\' :: d :: before) n behind (by rw [he]; rfl) ?_
      rwa [List.getLast?_cons_of_ne_nil (by simp), List.getLast?_cons_of_ne_nil (by simp)]

theorem ReturnsEven.behind_single (h : ReturnsEven ('\\' :: c :: cs)) (hc : c ≠ '\\') :
    ReturnsEven cs := by
  intro before n behind he hlast
  refine h ('\\' :: c :: before) n behind (by rw [he]; rfl) ?_
  rw [List.getLast?_cons_of_ne_nil (by simp)]
  cases before with
  | nil => simpa using hc
  | cons d before => rwa [List.getLast?_cons_of_ne_nil (by simp)]

theorem RunsEven.returnsEven (h : RunsEven cs) : ReturnsEven cs :=
  fun before n behind he hlast => h before n _ he hlast (by simp [endsRun])

/-- In what a string holds, only the runs before carriage returns can be odd. -/
theorem Decoded.runsEven_iff (h : Decoded s) : RunsEven s ↔ ReturnsEven s := by
  refine ⟨RunsEven.returnsEven, fun hr => ?_⟩
  rw [DotLang.runsEven_iff]
  induction h with
  | nil => rfl
  | @char c cs hc _ ih => simpa [runsEven, hc] using ih (hr.tail hc)
  | pair _ ih => simpa [runsEven] using ih hr.behind_pair
  | @single c cs hc hquote hline _ ih =>
      -- A line feed behind a carriage return would end the run of one backslash.
      have hend : endsRun (c :: cs) = false := by
        have hreturn : ¬ (c = '\r' ∧ cs.head? = some '\n') := by
          rintro ⟨rfl, hhead⟩
          obtain ⟨cs, rfl⟩ := List.head?_eq_some_iff.1 hhead
          have hodd := hr [] 1 cs rfl (by simp)
          cases hodd
        simpa [endsRun, hquote, hline] using hreturn
      simpa [runsEven, hc, hend] using ih (hr.behind_single hc)

end Decoding

/-! ## IDs -/

/-- What is read as an ID that is no numeral can be written in the same form, but for
runs of backslashes before carriage returns. -/
theorem ReadsToken.safe_iff {c : Char} {cs rest : List Char} {i : Id}
    (h : ReadsToken (c :: cs) (.id i) rest) (hb : isBlank c = false) (hk : i.kind ≠ .numeral) :
    i.Safe ↔ (i.kind = .quoted → ReturnsEven i.value.toList) := by
  generalize ht : Token.id i = t at h
  cases h with
  | mark | arrow | line => cases ht
  | string hj =>
      cases ht
      have hd := (joinedStrings_decoded hj).runsEven_iff
      simpa [Id.Safe, Id.quoted, IdKind.Holds] using hd
  | html hbody =>
      cases ht
      have hbal := (htmlBody_iff.1 hbody).2
      exact iff_of_true (by simpa [Id.Safe, Id.html, IdKind.Holds] using hbal) fun hq => by cases hq
  | @word _ _ w _ hc hw =>
      rw [readWord_cons hc] at hw
      cases hw
      rw [Token.ofWord] at ht
      split at ht
      · cases ht
      · next hkey =>
          cases ht
          refine iff_of_true ?_ fun hq => by cases hq
          have hplain : isPlain (c :: cs.takeWhile isIdChar) = true := by
            simp [isPlain, hc, hkey, List.all_takeWhile]
          simpa [Id.Safe, Id.plain, IdKind.Holds, hb] using hplain
  | numeral | signed =>
      cases ht
      exact absurd rfl hk

/-- An ID that is no numeral and was read somewhere in a text is read again from its
spelling, as the one token before the end, unless it is a quoted string that holds an
odd run of backslashes before a carriage return and a line feed. -/
theorem Id.read_again_iff {text : String} {i : Id} (h : .id i ∈ tokensOf text)
    (hk : i.kind ≠ .numeral) :
    tokensOf i.text = [.id i, .finish] ↔ (i.kind = .quoted → ReturnsEven i.value.toList) := by
  obtain ⟨c, cs, rest, hb, hread⟩ := Lexer.exists_readsToken h (.id i)
  rw [← hread.safe_iff hb hk]
  constructor
  · intro hi
    obtain ⟨he, hs⟩ := tokensOf_text_iff.1 ⟨hi, rfl⟩
    rwa [← he] at hs
  · intro hs
    exact (tokensOf_text_iff.2 ⟨hs.spelled.symm, by rwa [hs.spelled]⟩).1

/-- Joined strings with an escaped quote, a pair of backslashes at an end, a single
backslash and a continued line. -/
theorem Id.read_again_joined :
    Token.id (.quoted "a\"\\\\b\\c") ∈ tokensOf "\"a\\\"\\\\\" /**/ + \"b\\\r\n\\c\"" ∧
      tokensOf (Id.quoted "a\"\\\\b\\c").text = [.id (.quoted "a\"\\\\b\\c"), .finish] :=
  have hmem : Token.id (.quoted "a\"\\\\b\\c") ∈
      tokensOf "\"a\\\"\\\\\" /**/ + \"b\\\r\n\\c\"" := by decide +kernel
  ⟨hmem, (read_again_iff hmem (by decide)).2 fun _ => RunsEven.returnsEven (by decide +kernel)⟩

/-- A backslash and a carriage return are joined with a line feed, and the line that
they end is continued when the string is read again. -/
theorem Id.joined_return_lost :
    Token.id (.quoted "\\\r\n") ∈ tokensOf "\"\\\r\" + \"\n\"" ∧
      tokensOf (Id.quoted "\\\r\n").text = [.id (.quoted ""), .finish] :=
  ⟨by decide +kernel, by decide +kernel⟩

end DotLang
