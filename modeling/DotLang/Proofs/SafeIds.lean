import DotLang.Proofs.Lexing
/-!
# IDs that can be read back

An ID is written in its own form, and that form may fail to hold its text: a
bracket may close an HTML string too early, and a backslash may take the closing
quote of a quoted string with it.  `Id.Safe` says of each form which texts it
can hold, and `Lexes.id` that a safe ID is read back wherever it is written.
-/

namespace DotLang

open Text

/-! ## Which texts a form can hold -/

/-- The angle brackets balance, and none closes before it is opened. -/
def Balanced (cs : List Char) : Prop :=
  cs.count '>' = cs.count '<' ∧
    ∀ n ≤ cs.length, (cs.take n).count '>' ≤ (cs.take n).count '<'

instance (cs : List Char) : Decidable (Balanced cs) :=
  inferInstanceAs (Decidable (_ ∧ ∀ n ≤ cs.length, _))

/-- What stands here gives the backslashes in front of it a meaning: a double
quote, the end of a line, or the end of the text. -/
def endsRun : List Char → Bool
  | [] => true
  | c :: cs => c == '"' || c == '\n' || (c == '\r' && cs.head? == some '\n')

/-- Every whole run of backslashes that has a meaning is of even length. -/
def RunsEven (cs : List Char) : Prop :=
  ∀ (before : List Char) (n : Nat) (behind : List Char),
    cs = before ++ List.replicate n '\\' ++ behind → before.getLast? ≠ some '\\' →
      endsRun behind = true → n % 2 = 0

/-- The text can be written in that form and be read back. -/
def IdKind.Holds : IdKind → List Char → Prop
  | .plain, cs => isPlain cs = true ∧ cs.head?.all (! isBlank ·) = true
  | .numeral, cs => isNumeral cs = true
  | .quoted, cs => RunsEven cs
  | .html, cs => Balanced cs

/-- The ID can be written and be read back. -/
def Id.Safe (i : Id) : Prop := i.kind.Holds i.value.toList

/-! ## Runs of backslashes from left to right -/

/-- The runs are even, where an odd number of backslashes may stand in
front. -/
def runsEven (odd : Bool) : List Char → Bool
  | [] => ! odd
  | c :: cs =>
      if c = '\\' then runsEven (! odd) cs
      else ! (odd && endsRun (c :: cs)) && runsEven false cs

/-- The run that stands here is even together with the one in front. -/
def FirstEven (odd : Bool) (cs : List Char) : Prop :=
  ∀ (n : Nat) (behind : List Char), cs = List.replicate n '\\' ++ behind →
    endsRun behind = true → (n + odd.toNat) % 2 = 0

/-- The runs behind the one that stands here are even. -/
def OthersEven (cs : List Char) : Prop :=
  ∀ (before : List Char) (n : Nat) (behind : List Char),
    cs = before ++ List.replicate n '\\' ++ behind → before ≠ [] →
      before.getLast? ≠ some '\\' → endsRun behind = true → n % 2 = 0

theorem firstEven_nil {odd : Bool} : FirstEven odd [] ↔ odd = false := by
  constructor
  · intro h
    have he := h 0 [] rfl rfl
    cases odd with
    | false => rfl
    | true => simp at he
  · rintro rfl n behind he _
    have hn : n = 0 := by
      have hlen := congrArg List.length he
      simp at hlen
      omega
    subst hn
    rfl

theorem firstEven_backslash {odd : Bool} {cs : List Char} :
    FirstEven odd ('\\' :: cs) ↔ FirstEven (! odd) cs := by
  have hflip : ∀ n : Nat, (n + 1 + odd.toNat) % 2 = 0 ↔ (n + (! odd).toNat) % 2 = 0 := by
    intro n
    cases odd with
    | false => simp
    | true => simp; omega
  constructor
  · intro h n behind he hb
    exact (hflip n).1 (h (n + 1) behind (by rw [he]; rfl) hb)
  · intro h n behind he hb
    cases n with
    | zero =>
        subst he
        simp [endsRun] at hb
    | succ n =>
        refine (hflip n).2 (h n behind ?_ hb)
        rw [List.replicate_succ, List.cons_append] at he
        exact (List.cons.inj he).2

theorem firstEven_other {odd : Bool} {c : Char} {cs : List Char} (hc : c ≠ '\\') :
    FirstEven odd (c :: cs) ↔ (odd && endsRun (c :: cs)) = false := by
  constructor
  · intro h
    cases hb : endsRun (c :: cs) with
    | false => simp
    | true =>
        have he := h 0 (c :: cs) rfl hb
        cases odd with
        | false => rfl
        | true => simp at he
  · intro h n behind he hb
    cases n with
    | zero =>
        subst he
        rw [hb, Bool.and_true] at h
        subst h
        rfl
    | succ n =>
        rw [List.replicate_succ, List.cons_append] at he
        exact absurd (List.cons.inj he).1 hc

theorem othersEven_nil : OthersEven [] := by
  intro before n behind he hne
  have hlen := congrArg List.length he
  simp at hlen
  exact absurd (List.eq_nil_of_length_eq_zero (by omega)) hne

theorem othersEven_backslash {cs : List Char} : OthersEven ('\\' :: cs) ↔ OthersEven cs := by
  constructor
  · intro h before n behind he hne hlast hb
    refine h ('\\' :: before) n behind (by rw [he]; rfl) (by simp) ?_ hb
    rw [List.getLast?_cons_of_ne_nil hne]
    exact hlast
  · intro h before n behind he hne hlast hb
    cases before with
    | nil => exact absurd rfl hne
    | cons d before =>
        obtain ⟨rfl, hcs⟩ := List.cons.inj he
        cases before with
        | nil => exact absurd rfl hlast
        | cons d before =>
            rw [List.getLast?_cons_of_ne_nil (by simp)] at hlast
            exact h (d :: before) n behind hcs (by simp) hlast hb

theorem othersEven_other {c : Char} {cs : List Char} (hc : c ≠ '\\') :
    OthersEven (c :: cs) ↔ FirstEven false cs ∧ OthersEven cs := by
  constructor
  · intro h
    constructor
    · intro n behind he hb
      exact h [c] n behind (by rw [he]; rfl) (by simp) (by simpa using hc) hb
    · intro before n behind he hne hlast hb
      refine h (c :: before) n behind (by rw [he]; rfl) (by simp) ?_ hb
      rw [List.getLast?_cons_of_ne_nil hne]
      exact hlast
  · rintro ⟨hf, ho⟩ before n behind he hne hlast hb
    cases before with
    | nil => exact absurd rfl hne
    | cons d before =>
        obtain ⟨rfl, hcs⟩ := List.cons.inj he
        cases before with
        | nil => simpa using hf n behind hcs hb
        | cons d before =>
            rw [List.getLast?_cons_of_ne_nil (by simp)] at hlast
            exact ho (d :: before) n behind hcs (by simp) hlast hb

theorem runsEven_eq_true {odd : Bool} {cs : List Char} :
    runsEven odd cs = true ↔ FirstEven odd cs ∧ OthersEven cs := by
  induction cs generalizing odd with
  | nil => simp [runsEven, firstEven_nil, othersEven_nil]
  | cons c cs ih =>
      rw [runsEven]
      split
      · next hc =>
          subst hc
          rw [ih, firstEven_backslash, othersEven_backslash]
      · next hc =>
          rw [Bool.and_eq_true, ih, firstEven_other hc, othersEven_other hc, Bool.not_eq_true']

theorem runsEven_iff {cs : List Char} : RunsEven cs ↔ runsEven false cs = true := by
  rw [runsEven_eq_true]
  constructor
  · intro h
    exact ⟨fun n behind he hb => h [] n behind he (by simp) hb,
      fun before n behind he _ hlast hb => h before n behind he hlast hb⟩
  · rintro ⟨hf, ho⟩ before n behind he hlast hb
    cases before with
    | nil => exact hf n behind he hb
    | cons d before => exact ho (d :: before) n behind he (by simp) hlast hb

instance (cs : List Char) : Decidable (RunsEven cs) := decidable_of_iff _ runsEven_iff.symm

instance (k : IdKind) (cs : List Char) : Decidable (k.Holds cs) :=
  match k with
  | .plain => inferInstanceAs (Decidable (_ ∧ _))
  | .numeral => inferInstanceAs (Decidable (_ = _))
  | .quoted => inferInstanceAs (Decidable (RunsEven cs))
  | .html => inferInstanceAs (Decidable (Balanced cs))

instance (i : Id) : Decidable i.Safe := inferInstanceAs (Decidable (i.kind.Holds _))

example : (Id.quoted "a\\\\\"b\\c").Safe := by decide
example : ¬ (Id.quoted "a\\").Safe := by decide
example : ¬ (Id.html "<b>>x<").Safe := by decide

/-! ## Quoted strings -/

section Quoted
variable {c : Char} {cs rest : List Char} {ts : List Token}

theorem quotedBody_other (hq : c ≠ '"') (hb : c ≠ '\\') :
    quotedBody (c :: cs) = (quotedBody cs).map fun p => (c :: p.1, p.2) := by
  rw [quotedBody] <;> simp [hq, hb]

/-- A backslash in front of a character that gives it no meaning. -/
theorem quotedBody_backslash (he : endsRun (c :: cs) = false) (hb : c ≠ '\\') :
    quotedBody ('\\' :: c :: cs) = (quotedBody (c :: cs)).map fun p => ('\\' :: p.1, p.2) := by
  simp only [endsRun, Bool.or_eq_false_iff, beq_eq_false_iff_ne, Bool.and_eq_false_iff] at he
  obtain ⟨⟨hq, hn⟩, hr⟩ := he
  rw [quotedBody]
  · simp
  · intro cs' _ h
    exact hq (List.cons.inj h).1
  · intro cs' _ h
    exact hb (List.cons.inj h).1
  · intro cs' _ h
    exact hn (List.cons.inj h).1
  · intro cs' _ h
    obtain ⟨rfl, rfl⟩ := List.cons.inj h
    simp at hr

/-- Escaping and the closing quote do not change what stands behind a run. -/
theorem endsRun_escapeQuotes (rest : List Char) (he : endsRun (c :: cs) = false) :
    endsRun (c :: (Id.escapeQuotes cs ++ '"' :: rest)) = false := by
  cases cs with
  | nil => simpa [endsRun, Id.escapeQuotes] using he
  | cons d cs =>
      by_cases hd : d = '"'
      · subst hd
        simpa [endsRun, Id.escapeQuotes] using he
      · simpa [endsRun, Id.escapeQuotes, hd] using he

/-- A text with even runs is read back from between its quotes, also when it
takes a backslash from in front with it. -/
theorem quotedBody_escapeQuotes (rest : List Char) (odd : Bool) (h : runsEven odd cs = true) :
    quotedBody ((if odd then ['\\'] else []) ++ Id.escapeQuotes cs ++ '"' :: rest) =
      some ((if odd then ['\\'] else []) ++ cs, rest) := by
  induction cs generalizing odd with
  | nil =>
      cases odd with
      | false => simp [Id.escapeQuotes, quotedBody]
      | true => cases h
  | cons c cs ih =>
      rw [runsEven] at h
      split at h
      · next hc =>
          subst hc
          have ih := ih _ h
          have he : Id.escapeQuotes ('\\' :: cs) = '\\' :: Id.escapeQuotes cs := by
            simp [Id.escapeQuotes]
          cases odd with
          | false => simpa [he] using ih
          | true =>
              simp only [Bool.not_true, Bool.false_eq_true, if_false, List.nil_append] at ih
              simp [he, quotedBody, ih]
      · next hc =>
          rw [Bool.and_eq_true, Bool.not_eq_true'] at h
          have ih := ih false h.2
          simp only [Bool.false_eq_true, if_false, List.nil_append] at ih
          by_cases hq : c = '"'
          · subst hq
            have ho : odd = false := by simpa [endsRun] using h.1
            subst ho
            simp [Id.escapeQuotes, quotedBody, ih]
          · have he : Id.escapeQuotes (c :: cs) = c :: Id.escapeQuotes cs := by
              simp [Id.escapeQuotes, hq]
            have hread : quotedBody (c :: (Id.escapeQuotes cs ++ '"' :: rest)) =
                some (c :: cs, rest) := by
              rw [quotedBody_other hq hc, ih]
              rfl
            cases odd with
            | false => simpa [he] using hread
            | true =>
                have hend : endsRun (c :: cs) = false := by simpa using h.1
                have hread' := quotedBody_backslash (endsRun_escapeQuotes rest hend) hc
                rw [hread] at hread'
                simpa [he] using hread'

theorem Lexes.quoted (hs : RunsEven cs) (h : Lexes rest ts) :
    Lexes (Id.renderQuoted cs ++ rest) (.id (.quoted (String.ofList cs)) :: ts) := by
  have hbody := quotedBody_escapeQuotes rest false (runsEven_iff.1 hs)
  simp only [Bool.false_eq_true, if_false, List.nil_append] at hbody
  have hjoin : joinedStrings (Id.escapeQuotes cs ++ '"' :: rest) = (.ok cs, rest) := by
    rw [joinedStrings]
    split
    · next hn =>
        rw [hbody] at hn
        cases hn
    · next s r hr =>
        rw [hbody] at hr
        obtain ⟨rfl, rfl⟩ := Prod.mk.inj (Option.some.inj hr)
        split
        · next after hp => exact absurd hp (h.not_plus false)
        · rfl
  have hcons : Id.renderQuoted cs ++ rest = '"' :: (Id.escapeQuotes cs ++ '"' :: rest) := by
    simp [Id.renderQuoted]
  rw [hcons]
  refine .token ⟨by decide, by decide, by decide, by decide⟩ ?_ h
  have hm : Mark.ofChar? '"' = none := rfl
  simp [readToken, hm, readString, hjoin]

end Quoted

/-! ## HTML strings -/

section Html
variable {cs s rest : List Char} {depth : Nat} {ts : List Token}

/-- A text that closes all its brackets and `depth` more, and no bracket too
early, ends in front of the next closing bracket. -/
theorem htmlBody_append (depth : Nat) (hc : cs.count '>' = cs.count '<' + depth)
    (hp : ∀ n ≤ cs.length, (cs.take n).count '>' ≤ (cs.take n).count '<' + depth) :
    htmlBody depth (cs ++ '>' :: rest) = some (cs, rest) := by
  induction cs generalizing depth with
  | nil =>
      have hd : depth = 0 := by simpa using hc.symm
      subst hd
      simp [htmlBody]
  | cons c cs ih =>
      have hp : ∀ n ≤ cs.length, (c :: cs.take n).count '>' ≤ (c :: cs.take n).count '<' + depth :=
        fun n hn => hp (n + 1) (Nat.succ_le_succ hn)
      simp only [List.cons_append, htmlBody]
      simp only [List.count_cons] at hc hp
      by_cases ho : c = '<'
      · subst ho
        rw [if_pos rfl, ih (depth + 1) (by simp at hc; omega) ?_]
        · rfl
        · intro n hn
          have := hp n hn
          simp at this
          omega
      · rw [if_neg ho]
        by_cases hcl : c = '>'
        · subst hcl
          rw [if_pos rfl]
          cases depth with
          | zero =>
              have := hp 0 (Nat.zero_le _)
              simp at this
          | succ depth =>
              show Option.map _ (htmlBody depth (cs ++ '>' :: rest)) = _
              rw [ih depth (by simp at hc; omega) ?_]
              · rfl
              · intro n hn
                have := hp n hn
                simp at this
                omega
        · rw [if_neg hcl, ih depth (by simpa [ho, hcl] using hc) ?_]
          · rfl
          · intro n hn
            simpa [ho, hcl] using hp n hn

/-- What is closed inside `depth` brackets balances together with them. -/
theorem htmlBody_sound (h : htmlBody depth cs = some (s, rest)) :
    cs = s ++ '>' :: rest ∧ s.count '>' = s.count '<' + depth ∧
      ∀ n ≤ s.length, (s.take n).count '>' ≤ (s.take n).count '<' + depth := by
  induction cs generalizing depth s with
  | nil => cases h
  | cons c cs ih =>
      simp only [htmlBody] at h
      split at h
      · next hc =>
          subst hc
          obtain ⟨⟨u, r⟩, hu, he⟩ := Option.map_eq_some_iff.1 h
          cases he
          obtain ⟨rfl, hcount, hprefix⟩ := ih hu
          refine ⟨rfl, by simp [hcount]; omega, fun n hn => ?_⟩
          cases n with
          | zero => simp
          | succ n =>
              have := hprefix n (Nat.le_of_succ_le_succ hn)
              simp
              omega
      · next ho =>
          split at h
          · next hc =>
              subst hc
              cases depth with
              | zero =>
                  cases h
                  exact ⟨rfl, by simp, fun n _ => by simp⟩
              | succ depth =>
                  obtain ⟨⟨u, r⟩, hu, he⟩ := Option.map_eq_some_iff.1 h
                  cases he
                  obtain ⟨rfl, hcount, hprefix⟩ := ih hu
                  refine ⟨rfl, by simp [hcount]; omega, fun n hn => ?_⟩
                  cases n with
                  | zero => simp
                  | succ n =>
                      have := hprefix n (Nat.le_of_succ_le_succ hn)
                      simp
                      omega
          · next hc =>
              obtain ⟨⟨u, r⟩, hu, he⟩ := Option.map_eq_some_iff.1 h
              cases he
              obtain ⟨rfl, hcount, hprefix⟩ := ih hu
              refine ⟨rfl, by simpa [ho, hc] using hcount, fun n hn => ?_⟩
              cases n with
              | zero => simp
              | succ n => simpa [ho, hc] using hprefix n (Nat.le_of_succ_le_succ hn)

/-- A string that ends at the outermost bracket is balanced. -/
theorem htmlBody_iff : htmlBody 0 cs = some (s, rest) ↔ cs = s ++ '>' :: rest ∧ Balanced s := by
  constructor
  · intro h
    obtain ⟨rfl, hcount, hprefix⟩ := htmlBody_sound h
    exact ⟨rfl, hcount, hprefix⟩
  · rintro ⟨rfl, hcount, hprefix⟩
    exact htmlBody_append 0 hcount hprefix

theorem Lexes.html (hb : Balanced cs) (h : Lexes rest ts) :
    Lexes ('<' :: cs ++ '>' :: rest) (.id (.html (String.ofList cs)) :: ts) := by
  refine .token ⟨by decide, by decide, by decide, by decide⟩ ?_ h
  have hbody : htmlBody 0 (cs ++ '>' :: rest) = some (cs, rest) := htmlBody_iff.2 ⟨rfl, hb⟩
  have hm : Mark.ofChar? '<' = none := rfl
  show readToken ('<' :: (cs ++ '>' :: rest)) = _
  simp [readToken, hm, readHtml, hbody]

end Html

/-! ## Words and numerals -/

section Bare
variable {cs rest : List Char} {ts : List Token}

theorem Lexes.plain (hp : isPlain cs = true) (hb : cs.head?.all (! isBlank ·) = true)
    (hbound : Bounds rest) (h : Lexes rest ts) :
    Lexes (cs ++ rest) (.id (.plain (String.ofList cs)) :: ts) := by
  cases cs with
  | nil => cases hp
  | cons c cs =>
      simp only [isPlain, Bool.and_eq_true] at hp
      obtain ⟨⟨hc, hw⟩, hk⟩ := hp
      have hword : Token.ofWord (c :: cs) = .id (.plain (String.ofList (c :: cs))) := by
        unfold Token.ofWord
        rw [Option.isNone_iff_eq_none.1 hk]
      rw [← hword]
      exact .word (by simpa using hb) hc hw hbound h

/-- The characters of a numeral without its sign. -/
inductive IsNumber : List Char → Prop
  | int {int : List Char} (digits : int.all Char.isDigit = true) (some_digit : int ≠ []) :
      IsNumber int
  | point {int frac : List Char} (digits : int.all Char.isDigit = true)
      (decimals : frac.all Char.isDigit = true) (some_digit : int ≠ [] ∨ frac ≠ []) :
      IsNumber (int ++ '.' :: frac)

theorem isNumber_of_isNumeral (h : isNumeral cs = true) :
    ∃ sign number, cs = sign ++ number ∧ (sign = [] ∨ sign = ['-']) ∧ IsNumber number := by
  unfold isNumeral at h
  have hsplit : ∃ sign, cs = sign ++ (if cs.head? = some '-' then cs.tail else cs) ∧
      (sign = [] ∨ sign = ['-']) := by
    split
    · next hs =>
        obtain ⟨rest, rfl⟩ := List.head?_eq_some_iff.1 hs
        exact ⟨['-'], rfl, Or.inr rfl⟩
    · exact ⟨[], rfl, Or.inl rfl⟩
  obtain ⟨sign, he, hsign⟩ := hsplit
  refine ⟨sign, _, he, hsign, ?_⟩
  generalize (if cs.head? = some '-' then cs.tail else cs) = body at h
  have hall : (body.takeWhile Char.isDigit).all Char.isDigit = true :=
    List.all_takeWhile
  have hbody := List.takeWhile_append_dropWhile (p := Char.isDigit) (l := body)
  dsimp only at h
  split at h
  · next hd =>
      rw [hd, List.append_nil] at hbody
      rw [hbody] at h hall
      exact .int hall (by simpa using h)
  · next c frac hd =>
      simp only [Bool.and_eq_true, Bool.not_eq_true', Bool.and_eq_false_iff,
        List.isEmpty_eq_false_iff, beq_iff_eq] at h
      obtain ⟨⟨rfl, hf⟩, hsome⟩ := h
      rw [← hbody, hd]
      exact .point hall hf hsome

theorem Bounds.not_digit {c : Char} (h : Bounds (c :: rest)) : c.isDigit = false := by
  have hc := (h c rfl).1
  rw [isIdChar, Bool.or_eq_false_iff] at hc
  exact hc.2

/-- Digits with at most one point among them, and a text that does not go on with
them. -/
inductive ReadsNumber : List Char → List Char → Prop
  | int {int rest : List Char} (digits : int.all Char.isDigit = true)
      (stop : ∀ c, rest.head? = some c → c.isDigit = false ∧ c ≠ '.') : ReadsNumber int rest
  | point {int frac rest : List Char} (digits : int.all Char.isDigit = true)
      (decimals : frac.all Char.isDigit = true)
      (stop : ∀ c, rest.head? = some c → c.isDigit = false) :
      ReadsNumber (int ++ '.' :: frac) rest

/-- Digits are read as far as they go. -/
theorem readNumber_iff {number : List Char} :
    readNumber cs = (number, rest) ↔ cs = number ++ rest ∧ ReadsNumber number rest := by
  constructor
  · intro h
    have hsplit := List.takeWhile_append_dropWhile (p := Char.isDigit) (l := cs)
    have hstop := dropWhile_stops (p := Char.isDigit) cs
    simp only [readNumber] at h
    split at h
    · next hd =>
        cases h
        rw [hd] at hsplit
        exact ⟨hsplit.symm, .int List.all_takeWhile (by simp)⟩
    · next c more hd =>
        rw [hd] at hsplit hstop
        split at h
        · next hc =>
            cases h
            refine ⟨?_, .point List.all_takeWhile List.all_takeWhile (dropWhile_stops more)⟩
            rw [List.append_assoc, List.cons_append, List.takeWhile_append_dropWhile, ← hc, hsplit]
        · next hc =>
            cases h
            refine ⟨hsplit.symm, .int List.all_takeWhile fun d hd => ?_⟩
            cases hd
            exact ⟨hstop c rfl, hc⟩
  · rintro ⟨rfl, h⟩
    cases h with
    | int digits stop =>
        obtain ⟨ht, hd⟩ := span_append rest digits fun c hc => (stop c hc).1
        rw [readNumber, ht, hd]
        cases rest with
        | nil => rfl
        | cons c rest => simp [(stop c rfl).2]
    | @point int frac _ digits decimals stop =>
        obtain ⟨ht, hd⟩ := span_append ('.' :: (frac ++ rest)) digits (by simp)
        obtain ⟨ht', hd'⟩ := span_append rest decimals stop
        rw [readNumber, List.append_assoc, List.cons_append, ht, hd]
        simp [ht', hd']

/-- A number in front of a bound is read as a whole. -/
theorem readNumber_append (hn : IsNumber cs) (hb : Bounds rest) :
    readNumber (cs ++ rest) = (cs, rest) := by
  have not_digit : ∀ c, rest.head? = some c → c.isDigit = false := by
    intro c hc
    obtain ⟨rest, rfl⟩ := List.head?_eq_some_iff.1 hc
    exact hb.not_digit
  refine readNumber_iff.2 ⟨rfl, ?_⟩
  cases hn with
  | int digits _ => exact .int digits fun c hc => ⟨not_digit c hc, (hb c hc).2⟩
  | point digits decimals _ => exact .point digits decimals not_digit

/-! ### The first character of a number -/

/-- A number starts with a digit, or with a point and a digit behind it. -/
theorem IsNumber.first (hn : IsNumber cs) :
    ∃ c tail, cs = c :: tail ∧ (c.isDigit = true ∨ c = '.' ∧ tail.head?.any Char.isDigit = true) := by
  cases hn with
  | int digits some_digit =>
      obtain ⟨c, tail, rfl⟩ := List.exists_cons_of_ne_nil some_digit
      rw [List.all_cons, Bool.and_eq_true] at digits
      exact ⟨c, tail, rfl, Or.inl digits.1⟩
  | @point int frac digits decimals some_digit =>
      cases int with
      | cons c int =>
          rw [List.all_cons, Bool.and_eq_true] at digits
          exact ⟨c, _, rfl, Or.inl digits.1⟩
      | nil =>
          obtain ⟨d, frac, rfl⟩ := List.exists_cons_of_ne_nil (some_digit.resolve_left (by simp))
          rw [List.all_cons, Bool.and_eq_true] at decimals
          exact ⟨'.', _, rfl, Or.inr ⟨rfl, by simpa using decimals.1⟩⟩

theorem IsNumber.startsNumeral (hn : IsNumber cs) (rest : List Char) :
    DotLang.startsNumeral (cs ++ rest) = true := by
  obtain ⟨c, tail, rfl, hc⟩ := hn.first
  rcases hc with hc | ⟨rfl, ht⟩
  · simp [DotLang.startsNumeral, hc]
  · cases tail with
    | nil => simp at ht
    | cons d tail => simpa [DotLang.startsNumeral] using ht

theorem IsNumber.not_sign (hn : IsNumber cs) : cs.head? ≠ some '-' := by
  obtain ⟨c, tail, rfl, hc⟩ := hn.first
  intro h
  cases h
  rcases hc with hc | ⟨hc, _⟩
  · exact absurd hc (by decide)
  · cases hc

theorem isDigit_toNat {c : Char} (h : c.isDigit = true) : 48 ≤ c.toNat ∧ c.toNat ≤ 57 :=
  Char.isDigit_iff_toNat.1 h

theorem isAlpha_toNat {c : Char} (h : c.isAlpha = true) : 65 ≤ c.toNat ∧ c.toNat ≤ 122 := by
  have hor : c.isUpper = true ∨ c.isLower = true := Bool.or_eq_true_iff.1 h
  rcases hor with hu | hl
  · obtain ⟨hlow, hhigh⟩ : 65 ≤ c.toNat ∧ c.toNat ≤ 90 := of_decide_eq_true hu
    omega
  · have hlow : 97 ≤ c.toNat := of_decide_eq_true (Bool.and_eq_true_iff.1 hl).1
    have hhigh : c.toNat ≤ 122 := of_decide_eq_true (Bool.and_eq_true_iff.1 hl).2
    omega

/-- A digit is no letter. -/
theorem isAlpha_of_isDigit {c : Char} (h : c.isDigit = true) : c.isAlpha = false := by
  refine Bool.eq_false_iff.2 fun ha => ?_
  have hd := isDigit_toNat h
  have hl := isAlpha_toNat ha
  omega

theorem ne_of_isDigit {c d : Char} (hc : c.isDigit = true) (hd : d.isDigit = false) : c ≠ d := by
  rintro rfl
  rw [hc] at hd
  cases hd

/-- A digit starts no word. -/
theorem isIdStart_of_isDigit {c : Char} (h : c.isDigit = true) : isIdStart c = false := by
  have hn := isDigit_toNat h
  have hu : (c == '_') = false := by simpa using ne_of_isDigit h (d := '_') (by decide)
  unfold isIdStart
  rw [isAlpha_of_isDigit h, hu]
  simp
  omega

/-- A character that starts a number starts no other token. -/
theorem readToken_of_startsNumeral {c : Char} (h : startsNumeral (c :: cs) = true) :
    StartsToken c ∧ readToken (c :: cs) = readNumeral (c :: cs) := by
  have hc : c.isDigit = true ∨ c = '.' := by
    simp only [startsNumeral, Bool.or_eq_true, Bool.and_eq_true, beq_iff_eq] at h
    exact h.imp id And.left
  rcases hc with hc | hc
  · have hn := isDigit_toNat hc
    have hblank : isBlank c = false := by
      unfold isBlank
      simp
      omega
    have hstart : isIdStart c = false := isIdStart_of_isDigit hc
    have hm : Mark.ofChar? c = none := by
      unfold Mark.ofChar?
      split <;> first | rfl | exact absurd hc (by decide)
    refine ⟨⟨hblank, ?_, ?_, ?_⟩, ?_⟩
    · exact ne_of_isDigit hc (by decide)
    · exact ne_of_isDigit hc (by decide)
    · exact ne_of_isDigit hc (by decide)
    · simp [readToken, hm, hstart, h, ne_of_isDigit hc (d := '"') (by decide),
        ne_of_isDigit hc (d := '<') (by decide), ne_of_isDigit hc (d := '-') (by decide)]
  · subst hc
    refine ⟨⟨by decide, by decide, by decide, by decide⟩, ?_⟩
    have hm : Mark.ofChar? '.' = none := rfl
    have hstart : isIdStart '.' = false := by decide
    simp [readToken, hm, hstart, h]

theorem readNumeral_append (hn : IsNumber cs) (hb : Bounds rest) :
    readNumeral (cs ++ rest) = (.id ⟨String.ofList cs, .numeral⟩, rest) := by
  unfold readNumeral
  rw [readNumber_append hn hb]
  cases rest with
  | nil => rfl
  | cons c rest =>
      have hc := (hb c rfl).1
      rw [isIdChar, Bool.or_eq_false_iff] at hc
      simp [hc.1]

theorem readDash_append (hn : IsNumber cs) (hb : Bounds rest) :
    readDash (cs ++ rest) = (.id ⟨String.ofList ('-' :: cs), .numeral⟩, rest) := by
  have hread := readNumber_append hn hb
  obtain ⟨c, tail, rfl, hc⟩ := hn.first
  rw [List.cons_append] at hread ⊢
  have hd : (c.isDigit || decide (c = '.')) = true ∧ c ≠ '>' ∧ c ≠ '-' := by
    rcases hc with hc | hc
    · exact ⟨by simp [hc], ne_of_isDigit hc (by decide), ne_of_isDigit hc (by decide)⟩
    · obtain ⟨rfl, _⟩ := hc
      decide
  simp [readDash, hread, hd.1, hd.2]

theorem Lexes.number (hn : IsNumber cs) (hb : Bounds rest) (h : Lexes rest ts) :
    Lexes (cs ++ rest) (.id ⟨String.ofList cs, .numeral⟩ :: ts) := by
  have hread := readNumeral_append hn hb
  have hs := hn.startsNumeral rest
  obtain ⟨c, tail, rfl, _⟩ := hn.first
  obtain ⟨starts, hr⟩ := readToken_of_startsNumeral hs
  exact .token starts (hr.trans hread) h

/-- Behind a minus sign. -/
theorem Lexes.dash {t : Token} (hr : readDash cs = (t, rest)) (h : Lexes rest ts) :
    Lexes ('-' :: cs) (t :: ts) := by
  have hm : Mark.ofChar? '-' = none := rfl
  exact .token ⟨by decide, by decide, by decide, by decide⟩ (by simp [readToken, hm, hr]) h

theorem Lexes.numeral (hn : isNumeral cs = true) (hb : Bounds rest) (h : Lexes rest ts) :
    Lexes (cs ++ rest) (.id ⟨String.ofList cs, .numeral⟩ :: ts) := by
  obtain ⟨sign, number, rfl, hsign, hnumber⟩ := isNumber_of_isNumeral hn
  rcases hsign with rfl | rfl
  · exact .number hnumber hb h
  · exact .dash (readDash_append hnumber hb) h

end Bare

/-! ## IDs -/

/-- A safe ID is read back, if what follows does not go on a word. -/
theorem Lexes.id {i : Id} {rest : List Char} {ts : List Token} (hs : i.Safe) (hb : Bounds rest)
    (h : Lexes rest ts) : Lexes (i.render ++ rest) (.id i :: ts) := by
  obtain ⟨value, kind⟩ := i
  have hv : String.ofList value.toList = value := String.ofList_toList
  have hs : kind.Holds value.toList := hs
  cases kind with
  | plain =>
      have hr : Id.render ⟨value, .plain⟩ = value.toList := by simp [Id.render, hs.1]
      rw [hr]
      simpa [Id.plain, hv] using Lexes.plain hs.1 hs.2 hb h
  | numeral =>
      have hr : Id.render ⟨value, .numeral⟩ = value.toList := by
        have hn : isNumeral value.toList = true := hs
        simp [Id.render, hn]
      rw [hr]
      simpa [hv] using Lexes.numeral hs hb h
  | quoted => simpa [Id.render, Id.quoted, hv] using Lexes.quoted hs h
  | html => simpa [Id.render, Id.html, hv] using Lexes.html hs h

end DotLang
