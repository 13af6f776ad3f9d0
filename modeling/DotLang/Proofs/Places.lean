import DotLang.Token.Lexer
import DotLang.Tree.Error
import Mathlib.Data.List.DropRight
import Mathlib.Data.Nat.SuccPred
import Mathlib.Data.Prod.Lex
import Mathlib.Order.Interval.Set.Monotone
/-!
# A place and its excerpt agree

The place of a character and the excerpt around it are found in two ways: a place counts the
characters in front of it, and an excerpt looks for the line feeds around it.  What they have
in common is the line so far.  A place has as many lines in front of it as there are line
feeds, and its column is the one behind the line so far (`foldl_after`).  Among the lines of
the text, the one with that number is the line so far and what follows up to the next line
feed (`getElem?_splitOn`).  So the mark of an excerpt stands below the line of the place, in
the column of the place (`Place.shown_excerptAt`).

Every character moves the place on (`Place.lt_after`), so no two positions of a text have the
same place.
-/

namespace DotLang

namespace Text

/-! ## Lines -/

section Lines
variable (upper lower text before behind : List Char)

/-- A line feed divides the lines of the texts on its two sides. -/
theorem splitOn_append_newline :
    (upper ++ '\n' :: lower).splitOn '\n' = upper.splitOn '\n' ++ lower.splitOn '\n' := by
  simp only [List.splitOn_eq_splitOnP]
  induction upper with
  | nil => simp [List.splitOnP_cons_eq_if_modifyHead]
  | cons c upper ih =>
      rw [List.cons_append, List.splitOnP_cons_eq_if_modifyHead,
        List.splitOnP_cons_eq_if_modifyHead, ih]
      split
      · rfl
      · cases h : upper.splitOnP (· == '\n') with
        | nil => exact absurd h (List.splitOnP_ne_nil _ upper)
        | cons line lines => rfl

theorem length_splitOn : (text.splitOn '\n').length = text.count '\n' + 1 := by
  simp only [List.splitOn_eq_splitOnP]
  induction text with
  | nil => rfl
  | cons c text ih =>
      rw [List.splitOnP_cons_eq_if_modifyHead, List.count_cons]
      split
      · rw [List.length_cons, ih]
      · rw [List.length_modifyHead, ih]

/-- The first line of a text ends at its first line feed. -/
theorem getElem?_splitOn_zero : (text.splitOn '\n')[0]? = some (text.takeWhile (· ≠ '\n')) := by
  simp only [List.splitOn_eq_splitOnP]
  induction text with
  | nil => rfl
  | cons c text ih =>
      rw [List.splitOnP_cons_eq_if_modifyHead, List.takeWhile_cons]
      by_cases hc : c = '\n'
      · simp [hc]
      · cases h : text.splitOnP (· == '\n') with
        | nil => exact absurd h (List.splitOnP_ne_nil _ text)
        | cons line lines =>
            rw [h] at ih
            simpa [hc] using ih

/-- The line at a point of a text is the line so far and what follows up to the next line
feed. -/
theorem getElem?_splitOn :
    ((before ++ behind).splitOn '\n')[before.count '\n']? =
      some (before.rtakeWhile (· ≠ '\n') ++ behind.takeWhile (· ≠ '\n')) := by
  induction before using List.reverseRecOn generalizing behind with
  | nil => exact getElem?_splitOn_zero behind
  | append_singleton before c ih =>
      rw [List.append_assoc, List.singleton_append, List.rtakeWhile_concat, List.count_append]
      by_cases hc : c = '\n'
      · subst hc
        -- The line feed ends the lines of `before`, so the first line of `behind` is next.
        rw [splitOn_append_newline, List.count_singleton_self, ← length_splitOn,
          List.getElem?_append_right (Nat.le_refl _), Nat.sub_self, getElem?_splitOn_zero]
        rfl
      · have hcount : [c].count '\n' = 0 := List.count_eq_zero.2 (by simpa using Ne.symm hc)
        rw [hcount, Nat.add_zero, ih, List.takeWhile_cons]
        simp [hc]

end Lines

/-- A line is what is shown of it and the carriage returns at its end. -/
theorem exists_returns (line : List Char) :
    ∃ n, line = dropReturns line ++ List.replicate n '\r' ∧
      (dropReturns line).getLast? ≠ some '\r' := by
  have hdrop : dropReturns line = line.rdropWhile (· == '\r') := rfl
  have htake : line.rtakeWhile (· == '\r') =
      List.replicate (line.rtakeWhile (· == '\r')).length '\r' :=
    List.eq_replicate_iff.2 ⟨rfl, fun c hc => by simpa using List.mem_rtakeWhile_imp hc⟩
  refine ⟨(line.rtakeWhile (· == '\r')).length, ?_, fun hlast => ?_⟩
  · rw [hdrop, ← htake, List.rdropWhile_append_rtakeWhile]
  · rw [hdrop] at hlast
    have hc := List.getLast_of_getLast?_eq_some hlast
    exact List.rdropWhile_last_not _ _ _ (by rw [hc]; rfl)

/-! ## Places -/

namespace Place

/-- Places are ordered by lines, and in a line by columns. -/
def key (p : Place) : ℕ ×ₗ ℕ := toLex (p.line, p.column)

theorem lt_after (p : Place) (c : Char) : p.key < (p.after c).key := by
  rw [key, key, Prod.Lex.toLex_lt_toLex]
  unfold after
  split
  · exact Or.inl (Nat.lt_succ_self _)
  · exact Or.inr ⟨rfl, Nat.lt_succ_self _⟩

end Place

/-- The place behind a text counts its line feeds and the characters behind the last one. -/
theorem foldl_after (before : List Char) :
    before.foldl Place.after ⟨1, 1⟩ =
      ⟨before.count '\n' + 1, (before.rtakeWhile (· ≠ '\n')).length + 1⟩ := by
  induction before using List.reverseRecOn with
  | nil => rfl
  | append_singleton before c ih =>
      rw [List.foldl_append, ih, List.rtakeWhile_concat, List.count_append]
      by_cases hc : c = '\n'
      · simp [Place.after, hc]
      · simp [Place.after, hc]

variable (text : List Char)

theorem placeAt_succ {i : Nat} (h : i < text.length) :
    placeAt text (i + 1) = (placeAt text i).after text[i] := by
  unfold placeAt
  rw [List.take_succ_eq_append_getElem h, List.foldl_append]
  rfl

theorem placeAt_of_length_le {i : Nat} (h : text.length ≤ i) :
    placeAt text i = placeAt text text.length := by
  unfold placeAt
  rw [List.take_of_length_le h, List.take_length]

theorem strictMonoOn_placeAt :
    StrictMonoOn (fun i => (placeAt text i).key) (Set.Iic text.length) := by
  refine strictMonoOn_Iic_of_lt_succ fun i hi => ?_
  show _ < (placeAt text (i + 1)).key
  rw [placeAt_succ text hi]
  exact Place.lt_after _ _

/-! ## Excerpts -/

/-- The excerpt shows the place: the line of the text with the number of the place, without
the carriage returns at its end, and below it a mark in the column of the place. -/
def Place.Shown (p : Place) (excerpt : List Char) : Prop :=
  ∃ line column shown returns, p = ⟨line + 1, column + 1⟩ ∧
    (text.splitOn '\n')[line]? = some (shown ++ List.replicate returns '\r') ∧
      shown.getLast? ≠ some '\r' ∧
        excerpt = shown ++ '\n' :: List.replicate column ' ' ++ ['^']

theorem shown_excerptAt (i : Nat) : (placeAt text i).Shown text (excerptAt text i) := by
  obtain ⟨returns, hline, hlast⟩ := exists_returns (lineBefore text i ++ lineFrom text i)
  refine ⟨_, _, _, returns, foldl_after (text.take i), ?_, hlast, rfl⟩
  have h := getElem?_splitOn (text.take i) (text.drop i)
  rw [List.take_append_drop] at h
  rw [h, ← hline]
  rfl

end Text

/-- The excerpt at a position of a text shows the place of the position, past the end as well,
and so does every error that is reported.  Up to the end of the text each position has a
later place than those in front of it, and past the end the place stays. -/
theorem Lexer.place_shown (l : Lexer) :
    (∀ i, (l.placeAt i).Shown l.text (l.excerptAt i).toList) ∧
      (∀ f : SyntaxFault, (f.inText l.text).place.Shown l.text (f.inText l.text).excerpt.toList) ∧
        StrictMonoOn (fun i => (l.placeAt i).key) (Set.Iic l.text.length) ∧
          (∀ i, l.text.length ≤ i → l.placeAt i = l.placeAt l.text.length) ∧
            Set.InjOn l.placeAt (Set.Iic l.text.length) := by
  have shown : ∀ i, (Text.placeAt l.text i).Shown l.text
      (String.ofList (Text.excerptAt l.text i)).toList := by
    intro i
    rw [String.toList_ofList]
    exact Text.shown_excerptAt l.text i
  have increasing := Text.strictMonoOn_placeAt l.text
  refine ⟨shown, fun f => shown f.start, increasing, fun i => Text.placeAt_of_length_le l.text,
    fun i hi j hj he => ?_⟩
  exact increasing.injOn hi hj (congrArg Text.Place.key he)

end DotLang
