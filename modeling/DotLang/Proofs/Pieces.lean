import DotLang.Text.Blank
import DotLang.Text.Pieces
import Mathlib.Data.List.Forall2
/-!
# Cutting text and putting it together

Each function that cuts a text is read by the text that it came from: what follows a
lead is the text without the lead, what precedes the first occurrence of a character is
free of it, and the pieces of a split are joined again by the separators.

Splitting and joining are those of the standard library (`splitAt_eq`, `joinWith_eq`),
so that joining undoes a split, and a split undoes joining if no piece has a separator
in it.  Where each piece is then read, the readings are the values (`mapM_eq_ok_iff`).
A text is trimmed if no blank stands at an end, and trimming gives such a text
(`trimmed_trim`) and leaves it as it is (`Trimmed.trim_eq`).
-/

namespace DotLang.Text

variable {sep : Char} {lead tail cs rest before after piece : List Char}
  {pieces : List (List Char)}

/-! ## Leads and tails -/

theorem afterLead?_eq_some_iff : afterLead? lead cs = some rest ↔ cs = lead ++ rest := by
  fun_induction afterLead? lead cs with
  | case1 => simp
  | case2 => simp
  | case3 l ls c cs hc ih =>
      obtain rfl := eq_of_beq hc
      simpa using ih
  | case4 l ls c cs hc =>
      have hne : c ≠ l := fun he => hc (by simp [he])
      simp [hne]

theorem beforeTail?_eq_some_iff : beforeTail? tail cs = some rest ↔ cs = rest ++ tail := by
  unfold beforeTail?
  rw [Option.map_eq_some_iff]
  constructor
  · rintro ⟨front, hfront, rfl⟩
    rw [afterLead?_eq_some_iff, List.reverse_eq_append_iff] at hfront
    rw [hfront, List.reverse_reverse]
  · rintro rfl
    exact ⟨rest.reverse, afterLead?_eq_some_iff.2 (by simp), by simp⟩

/-- A tail with a character that the text does not have is not dropped. -/
theorem dropTails_of_not_mem {c : Char} (hc : c ∈ tail) (free : c ∉ cs) :
    dropTails tail cs = cs := by
  have hnone : beforeTail? tail cs = none := by
    refine Option.eq_none_iff_forall_ne_some.2 fun rest hrest => free ?_
    rw [beforeTail?_eq_some_iff.1 hrest]
    exact List.mem_append_right rest hc
  rw [dropTails, hnone]

/-! ## The first occurrence -/

theorem cutFirst_eq_some_iff : cutFirst sep cs = some (before, after) ↔
    cs = before ++ sep :: after ∧ sep ∉ before := by
  induction cs generalizing before with
  | nil => simp [cutFirst]
  | cons c cs ih =>
      rw [cutFirst]
      split
      · next hc =>
          obtain rfl := eq_of_beq hc
          cases before with
          | nil => simp [eq_comm]
          | cons d before =>
              refine iff_of_false (by simp) fun h => h.2 ?_
              simp [(List.cons.inj h.1).1]
      · next hc =>
          have hne : sep ≠ c := fun he => hc (by simp [he])
          rw [Option.map_eq_some_iff]
          cases before with
          | nil => simp [hne.symm]
          | cons d before =>
              rw [List.cons_append, List.cons.injEq, List.mem_cons, not_or, and_assoc]
              constructor
              · rintro ⟨⟨before', after'⟩, hcut, he⟩
                cases he
                obtain ⟨hcs, free⟩ := ih.1 hcut
                exact ⟨rfl, hcs, hne, free⟩
              · rintro ⟨rfl, hcs, _, free⟩
                exact ⟨(before, after), ih.2 ⟨hcs, free⟩, rfl⟩

theorem cutFirst_eq_none_iff : cutFirst sep cs = none ↔ sep ∉ cs := by
  induction cs with
  | nil => simp [cutFirst]
  | cons c cs ih =>
      rw [cutFirst]
      split
      · next hc => simp [eq_of_beq hc]
      · next hc =>
          have hne : sep ≠ c := fun he => hc (by simp [he])
          simp [ih, hne]

/-! ## Splitting and joining -/

theorem splitWhere_eq (p : Char → Bool) (cs : List Char) : splitWhere p cs = cs.splitOnP p := by
  induction cs with
  | nil => rfl
  | cons c cs ih =>
      rw [splitWhere, List.splitOnP_cons_eq_if_modifyHead, ih]
      split
      · rfl
      · cases h : cs.splitOnP p with
        | nil => exact absurd h (List.splitOnP_ne_nil p cs)
        | cons first others => rfl

theorem splitAt_eq (sep : Char) (cs : List Char) : splitAt sep cs = cs.splitOn sep :=
  splitWhere_eq (· == sep) cs

theorem joinWith_eq (sep : List Char) (pieces : List (List Char)) :
    joinWith sep pieces = sep.intercalate pieces := by
  fun_induction joinWith sep pieces with
  | case1 => rfl
  | case2 piece => exact List.intercalate_singleton.symm
  | case3 piece pieces hne ih =>
      rw [ih, List.intercalate_cons_of_ne_nil hne, List.append_assoc]

/-- The pieces of a split are joined to the text. -/
theorem joinWith_splitAt (sep : Char) (cs : List Char) :
    joinWith [sep] (splitAt sep cs) = cs := by
  rw [joinWith_eq, splitAt_eq, List.intercalate_splitOn]

/-- Pieces without a separator are split again as they were joined. -/
theorem splitAt_joinWith (some_piece : pieces ≠ []) (free : ∀ piece ∈ pieces, sep ∉ piece) :
    splitAt sep (joinWith [sep] pieces) = pieces := by
  rw [joinWith_eq, splitAt_eq, List.splitOn_intercalate sep free some_piece]

/-- The pieces of a split have no separator in them. -/
theorem not_mem_of_mem_splitAt (h : piece ∈ splitAt sep cs) : sep ∉ piece := by
  unfold splitAt at h
  fun_induction splitWhere (· == sep) cs generalizing piece with
  | case1 =>
      obtain rfl := List.mem_singleton.1 h
      exact List.not_mem_nil
  | case2 c cs hc ih =>
      rcases List.mem_cons.1 h with rfl | h
      · exact List.not_mem_nil
      · exact ih h
  | case3 c cs hc hnil => exact absurd hnil (splitWhere_ne_nil _ cs)
  | case4 c cs hc first others hs ih =>
      rw [hs] at ih
      rcases List.mem_cons.1 h with rfl | h
      · have hne : sep ≠ c := fun he => hc (by simp [he])
        simpa [hne] using ih List.mem_cons_self
      · exact ih (List.mem_cons_of_mem _ h)

/-- A text without a separator is a word. -/
theorem wordsBy_word {p : Char → Bool} (hne : cs ≠ []) (free : ∀ c ∈ cs, p c = false) :
    wordsBy p cs = [cs] := by
  rw [wordsBy, splitWhere_eq, List.splitOnP_eq_singleton free]
  simp [hne]

/-- Words are found again as they were joined. -/
theorem wordsBy_joinWith {p : Char → Bool} (selected : p sep = true)
    (free : ∀ piece ∈ pieces, piece ≠ [] ∧ ∀ c ∈ piece, p c = false) :
    wordsBy p (joinWith [sep] pieces) = pieces := by
  unfold wordsBy
  rw [splitWhere_eq, joinWith_eq]
  induction pieces with
  | nil => rfl
  | cons first others ih =>
      obtain ⟨⟨hne, hfree⟩, hothers⟩ := List.forall_mem_cons.1 free
      cases others with
      | nil =>
          rw [List.intercalate_singleton, List.splitOnP_eq_singleton hfree]
          simp [hne]
      | cons second others =>
          rw [List.intercalate_cons_of_ne_nil (List.cons_ne_nil second others), List.append_assoc,
            List.singleton_append, List.splitOnP_append_cons_of_forall_mem hfree _ selected]
          simp [hne, ih hothers]

/-- What begins with another character than a separator begins with a word. -/
theorem exists_wordsBy_cons {p : Char → Bool} {c : Char} (hc : p c = false) (cs : List Char) :
    ∃ w ws, wordsBy p (c :: cs) = (c :: w) :: ws := by
  unfold wordsBy splitWhere
  rw [if_neg (by simp [hc])]
  cases splitWhere p cs with
  | nil => exact ⟨[], [], rfl⟩
  | cons first others => exact ⟨first, _, rfl⟩

/-- The characters of a joined text are those of its pieces and the separators. -/
theorem mem_joinWith {c : Char} (h : c ∈ joinWith [sep] pieces) :
    c = sep ∨ ∃ piece ∈ pieces, c ∈ piece := by
  fun_induction joinWith [sep] pieces with
  | case1 => cases h
  | case2 piece => exact Or.inr ⟨piece, List.mem_singleton_self _, h⟩
  | case3 piece others hne ih =>
      rcases List.mem_append.1 h with h | h
      · rcases List.mem_append.1 h with h | h
        · exact Or.inr ⟨piece, List.mem_cons_self, h⟩
        · exact Or.inl (List.mem_singleton.1 h)
      · refine (ih h).imp_right ?_
        rintro ⟨piece', hpiece, hc⟩
        exact ⟨piece', List.mem_cons_of_mem _ hpiece, hc⟩

/-! ## Reading pieces in turn -/

section Reading
variable {ε α β γ : Type} {f : α → Except ε β} {g : γ → α}

@[simp] theorem bind_eq_ok_iff {x : Except ε α} {b : β} :
    (x >>= f) = .ok b ↔ ∃ a, x = .ok a ∧ f a = .ok b := by
  cases x with
  | error reason => simp [bind, Except.bind]
  | ok a => simp [bind, Except.bind]

@[simp] theorem map_eq_ok_iff {h : α → β} {x : Except ε α} {b : β} :
    h <$> x = .ok b ↔ ∃ a, x = .ok a ∧ h a = b := by
  cases x with
  | error reason => simp [Functor.map, Except.map]
  | ok a => simp [Functor.map, Except.map]

@[simp] theorem pure_eq_ok_iff {a b : α} : (pure a : Except ε α) = .ok b ↔ a = b :=
  Except.ok.injEq a b ▸ Iff.rfl

theorem toOption_eq_some_iff {x : Except ε α} {a : α} : x.toOption = some a ↔ x = .ok a := by
  cases x <;> simp [Except.toOption]

theorem mapM_eq_ok_iff {l : List α} {l' : List β} :
    l.mapM f = .ok l' ↔ List.Forall₂ (fun a b => f a = .ok b) l l' := by
  induction l generalizing l' with
  | nil => cases l' <;> simp
  | cons a l ih => cases l' <;> simp [List.mapM_cons, ih]

/-- Where each text of a list is read, the list of the texts is read as the list of the
values. -/
theorem mapM_map_eq_ok {r : γ → β} {l : List γ} (h : ∀ c ∈ l, f (g c) = .ok (r c)) :
    (l.map g).mapM f = .ok (l.map r) := by
  rw [mapM_eq_ok_iff, List.forall₂_map_left_iff, List.forall₂_map_right_iff, List.forall₂_same]
  exact h

/-- What holds of every reading holds of all values that are read. -/
theorem forall_of_mapM {P : β → Prop} {l : List α} {l' : List β} (h : l.mapM f = .ok l')
    (reads : ∀ a b, f a = .ok b → P b) : ∀ b ∈ l', P b := by
  rw [mapM_eq_ok_iff] at h
  induction h with
  | nil => simp
  | cons hread _ ih => exact List.forall_mem_cons.2 ⟨reads _ _ hread, ih⟩

end Reading

/-! ## Trimming -/

/-- The visible characters of ASCII are no blanks. -/
theorem isBlank_of_visible {c : Char} (low : 0x21 ≤ c.toNat) (high : c.toNat ≤ 0x7E) :
    isBlank c = false := by
  simp only [isBlank, Bool.or_eq_false_iff, Bool.and_eq_false_iff, decide_eq_false_iff_not,
    beq_eq_false_iff_ne]
  omega

/-- No blank stands at an end of the text. -/
structure Trimmed (cs : List Char) : Prop where
  first : ∀ c, cs.head? = some c → isBlank c = false
  last : ∀ c, cs.getLast? = some c → isBlank c = false

theorem Trimmed.trim_eq (h : Trimmed cs) : trim cs = cs := by
  have hleft : trimLeft cs = cs := by
    cases cs with
    | nil => rfl
    | cons c cs => exact List.dropWhile_cons_of_neg (by simp [h.first c rfl])
  have hright : trimRight cs = cs := by
    unfold trimRight
    cases hr : cs.reverse with
    | nil => simp [List.reverse_eq_nil_iff.1 hr]
    | cons c front =>
        have hc : isBlank c = false := h.last c (by rw [← List.head?_reverse, hr]; rfl)
        rw [List.dropWhile_cons_of_neg (by simp [hc]), ← hr, List.reverse_reverse]
  rw [trim, hleft, hright]

/-- A text without blanks is not changed. -/
theorem trim_of_not_blank (h : ∀ c ∈ cs, isBlank c = false) : trim cs = cs :=
  Trimmed.trim_eq ⟨fun c hc => h c (List.mem_of_mem_head? hc),
    fun c hc => h c (List.mem_of_mem_getLast? hc)⟩

theorem exists_trimLeft (cs : List Char) :
    ∃ left, cs = left ++ trimLeft cs ∧ left.all isBlank = true :=
  ⟨cs.takeWhile isBlank, List.takeWhile_append_dropWhile.symm, List.all_takeWhile⟩

theorem exists_trimRight (cs : List Char) :
    ∃ right, cs = trimRight cs ++ right ∧ right.all isBlank = true := by
  refine ⟨(cs.reverse.takeWhile isBlank).reverse, ?_, ?_⟩
  · rw [trimRight, ← List.reverse_append, List.takeWhile_append_dropWhile, List.reverse_reverse]
  · rw [List.all_reverse]
    exact List.all_takeWhile

/-- Trimming takes blanks from both ends. -/
theorem exists_trim (cs : List Char) :
    ∃ left right, cs = left ++ trim cs ++ right ∧ left.all isBlank = true ∧
      right.all isBlank = true := by
  obtain ⟨left, hleft, blank⟩ := exists_trimLeft cs
  obtain ⟨right, hright, blank'⟩ := exists_trimRight (trimLeft cs)
  refine ⟨left, right, ?_, blank, blank'⟩
  rw [trim, List.append_assoc, ← hright]
  exact hleft

theorem trimmed_trim (cs : List Char) : Trimmed (trim cs) where
  first c hc := by
    -- What is left behind the leading blanks begins as the trimmed text.
    have hleft : (trimLeft cs).head? = some c := by
      obtain ⟨right, hright, _⟩ := exists_trimRight (trimLeft cs)
      obtain ⟨more, hmore⟩ := List.head?_eq_some_iff.1 hc
      rw [trim] at hmore
      rw [hright, hmore]
      rfl
    have hn := List.head?_dropWhile_not isBlank cs
    rw [← trimLeft, hleft] at hn
    simpa using hn
  last c hc := by
    have hn := List.head?_dropWhile_not isBlank (trimLeft cs).reverse
    have hlast : ((trimLeft cs).reverse.dropWhile isBlank).head? = some c := by
      rwa [trim, trimRight, List.getLast?_reverse] at hc
    rw [hlast] at hn
    simpa using hn

theorem trim_trim (cs : List Char) : trim (trim cs) = trim cs := (trimmed_trim cs).trim_eq

theorem mem_of_mem_trim {c : Char} (h : c ∈ trim cs) : c ∈ cs := by
  obtain ⟨left, right, he, _⟩ := exists_trim cs
  rw [he]
  simp [h]

/-- Only blanks are taken from the front. -/
theorem exists_trim_cons {c : Char} (hc : isBlank c = false) (cs : List Char) :
    ∃ w, trim (c :: cs) = c :: w := by
  obtain ⟨left, right, he, hleft, hright⟩ := exists_trim (c :: cs)
  cases left with
  | cons d left =>
      obtain rfl : c = d := (List.cons.inj he).1
      simp [hc] at hleft
  | nil =>
      cases htrim : trim (c :: cs) with
      | cons d w =>
          rw [htrim] at he
          obtain rfl : c = d := (List.cons.inj he).1
          exact ⟨w, rfl⟩
      | nil =>
          rw [htrim] at he
          have hright : (c :: cs).all isBlank = true := he ▸ hright
          simp [hc] at hright

end DotLang.Text
