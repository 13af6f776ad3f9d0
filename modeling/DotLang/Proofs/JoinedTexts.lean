import DotLang.Import
import DotLang.Proofs.ParserTracking
/-!
# Importing one text below another

Two texts are joined by a line feed.  If the upper one can be imported and does
not end inside a `/*` comment, the joined text gives the models of the upper text
and then those of the lower one.  Nothing goes from one graph to the next: no
token crosses the line feed (`lexemesOf_below`), the parser comes to the lower
text as to a text of its own (`Parser.file_fails_behind`), and every model starts
from nothing.

So the joined text fails as the lower text alone does.  A syntax error has the
same reason, column and excerpt there, and its line is further down by the lines
of the upper text.  Only a lower text without any token does not fail there: alone
it wants a graph, and below another text it is a gap at the end
(`importText_joined_blank`).
-/

namespace DotLang

open Text

/-! ## Places -/

namespace Text

/-- The place below `lines` further lines. -/
def Place.down (lines : Nat) (p : Place) : Place := ⟨p.line + lines, p.column⟩

theorem Place.after_down (lines : Nat) (p : Place) (c : Char) :
    (p.down lines).after c = (p.after c).down lines := by
  unfold Place.after Place.down
  split
  · simp only [Nat.add_right_comm]
  · rfl

theorem foldl_after_down (lines : Nat) (cs : List Char) (p : Place) :
    cs.foldl Place.after (p.down lines) = (cs.foldl Place.after p).down lines := by
  induction cs generalizing p with
  | nil => rfl
  | cons c cs ih => rw [List.foldl_cons, List.foldl_cons, Place.after_down, ih]

theorem foldl_after_line (cs : List Char) (p : Place) :
    (cs.foldl Place.after p).line = p.line + cs.count '\n' := by
  induction cs generalizing p with
  | nil => rfl
  | cons c cs ih =>
      rw [List.foldl_cons, ih, List.count_cons]
      unfold Place.after
      by_cases hc : c = '\n'
      · simp [hc]
        omega
      · simp [hc]

section Below
variable (upper lower : List Char) (i : Nat)

theorem take_below : (upper ++ '\n' :: lower).take (i + (upper.length + 1)) =
    upper ++ '\n' :: lower.take i := by
  have hi : i + (upper.length + 1) = upper.length + (i + 1) := by omega
  rw [hi, List.take_length_add_append, List.take_succ_cons]

theorem drop_below : (upper ++ '\n' :: lower).drop (i + (upper.length + 1)) =
    lower.drop i := by
  have hi : i + (upper.length + 1) = upper.length + (i + 1) := by omega
  rw [hi, List.drop_length_add_append, List.drop_succ_cons]

/-- A place of the lower text is further down in the joined one. -/
theorem placeAt_below : placeAt (upper ++ '\n' :: lower) (i + (upper.length + 1)) =
    (placeAt lower i).down (1 + upper.count '\n') := by
  have hstart : (upper.foldl Place.after ⟨1, 1⟩).after '\n' =
      Place.down (1 + upper.count '\n') ⟨1, 1⟩ := by
    have hline := foldl_after_line upper ⟨1, 1⟩
    generalize upper.foldl Place.after ⟨1, 1⟩ = p at hline ⊢
    unfold Place.after Place.down
    rw [if_pos rfl, hline, Nat.add_assoc, Nat.add_comm (upper.count '\n') 1]
  unfold placeAt
  rw [take_below, List.foldl_append, List.foldl_cons, hstart, foldl_after_down]

theorem lineBefore_below :
    lineBefore (upper ++ '\n' :: lower) (i + (upper.length + 1)) = lineBefore lower i := by
  unfold lineBefore
  rw [take_below, List.reverse_append, List.reverse_cons, List.append_assoc,
    List.singleton_append, takeWhile_line (by simp)]

theorem excerptAt_below : excerptAt (upper ++ '\n' :: lower) (i + (upper.length + 1)) =
    excerptAt lower i := by
  unfold excerptAt lineFrom
  rw [lineBefore_below, drop_below]

end Below

end Text

/-- The error as it is reported below another text. -/
def SyntaxError.below (upper : String) (e : SyntaxError) : SyntaxError :=
  { e with place := e.place.down (1 + upper.toList.count '\n') }

theorem toList_joined (upper lower : String) :
    (upper ++ "\n" ++ lower).toList = upper.toList ++ '\n' :: lower.toList := by simp

/-- A fault of the lower text as the joined text reports it. -/
theorem SyntaxFault.inText_below (upper lower : String) (f : SyntaxFault) :
    (f.shift (upper.toList.length + 1)).inText (upper ++ "\n" ++ lower).toList =
      (f.inText lower.toList).below upper := by
  unfold SyntaxFault.inText SyntaxFault.shift SyntaxError.below
  rw [toList_joined, placeAt_below, excerptAt_below]

/-! ## Parsing -/

/-- Graphs may be written in front of a file. -/
theorem SpellsFile.append {us vs ts : List Token} {trees more : List Tree}
    (h : SpellsFile us trees) (hus : us = ts ++ [.finish]) (h' : SpellsFile vs more) :
    SpellsFile (ts ++ vs) (trees ++ more) := by
  induction h generalizing ts with
  | one tree =>
      obtain ⟨rfl, _⟩ := List.append_inj' hus rfl
      exact .cons tree h'
  | cons tree rest ih =>
      obtain ⟨us, rfl⟩ := Parser.spellsFile_last rest
      rw [← List.append_assoc] at hus
      obtain ⟨rfl, _⟩ := List.append_inj' hus rfl
      rw [List.append_assoc]
      exact .cons tree (ih rfl)

/-- A graph ends with a closing brace. -/
theorem SpellsTree.last {ts : List Token} {tree : Tree} (h : SpellsTree ts tree) :
    ts.getLast? = some (.mark .closeBrace) := by
  cases h with
  | mk => simp [List.getLast?_append, List.getLast?_cons]

theorem SpellsFile.endsMarked {us ts : List Token} {trees : List Tree}
    (h : SpellsFile us trees) (hus : us = ts ++ [.finish]) : Lexer.EndsMarked ts := by
  induction h generalizing ts with
  | one tree =>
      obtain ⟨rfl, _⟩ := List.append_inj' hus rfl
      intro t ht
      rw [tree.last] at ht
      cases ht
      exact ⟨_, rfl⟩
  | cons tree rest ih =>
      obtain ⟨us, rfl⟩ := Parser.spellsFile_last rest
      rw [← List.append_assoc] at hus
      obtain ⟨rfl, _⟩ := List.append_inj' hus rfl
      intro t ht
      cases hl : us.getLast? with
      | none => 
          rw [List.getLast?_append, tree.last, hl] at ht
          cases ht
          exact ⟨_, rfl⟩
      | some u =>
          rw [List.getLast?_append, hl] at ht
          exact ih rfl t (hl.trans ht)

section Parse
variable {upper lower : String} {trees : List Tree}

/-- The tokens of a joined text are those of its two parts. -/
theorem lexemesOf_joined (lower : String) (h : Tree.parse upper = .ok trees)
    (closed : endsInComment upper = false) :
    ∃ front, SpellsFile (front.map Lexeme.token ++ [.finish]) trees ∧
      lexemesOf (upper ++ "\n" ++ lower).toList =
        front ++ (lexemesOf lower.toList).map (Lexeme.shift (upper.toList.length + 1)) := by
  have spelled := Tree.parse_sound h
  obtain ⟨ts, hts, inner⟩ := spelled.inner
  obtain ⟨front, hfront, hl⟩ := lexemesOf_below lower hts inner (spelled.endsMarked hts) closed
  refine ⟨front, ?_, hl⟩
  rw [hfront, ← hts]
  exact spelled

theorem tokensOf_joined (lower : String) (h : Tree.parse upper = .ok trees)
    (closed : endsInComment upper = false) :
    ∃ ts, SpellsFile (ts ++ [.finish]) trees ∧
      tokensOf (upper ++ "\n" ++ lower) = ts ++ tokensOf lower := by
  obtain ⟨front, spelled, hl⟩ := lexemesOf_joined lower h closed
  refine ⟨front.map Lexeme.token, spelled, ?_⟩
  unfold tokensOf
  rw [hl, List.map_append, List.map_map, Lexeme.token_comp_shift]

theorem Tree.parse_joined_ok {more : List Tree} (h : Tree.parse upper = .ok trees)
    (closed : endsInComment upper = false) (h' : Tree.parse lower = .ok more) :
    Tree.parse (upper ++ "\n" ++ lower) = .ok (trees ++ more) := by
  obtain ⟨ts, spelled, ht⟩ := tokensOf_joined lower h closed
  refine Tree.parse_complete ?_
  rw [ht]
  exact spelled.append rfl (Tree.parse_sound h')

/-- A lower text without a token changes nothing. -/
theorem Tree.parse_joined_blank (h : Tree.parse upper = .ok trees)
    (closed : endsInComment upper = false) (blank : tokensOf lower = [.finish]) :
    Tree.parse (upper ++ "\n" ++ lower) = .ok trees := by
  obtain ⟨ts, spelled, ht⟩ := tokensOf_joined lower h closed
  refine Tree.parse_complete ?_
  rw [ht, blank]
  exact spelled

/-- A text with a token has one that is not the end. -/
theorem exists_lexeme (h : tokensOf lower ≠ [.finish]) :
    ∃ l back, lexemesOf lower.toList = l :: back ∧ l.token ≠ .finish := by
  obtain ⟨ts, hts, hn⟩ := tokensOf_finish lower
  cases ts with
  | nil => exact absurd hts h
  | cons t ts =>
      obtain ⟨l, back, hl, ht, _⟩ := List.map_eq_cons_iff.1 hts
      exact ⟨l, back, hl, fun hf => hn (by simp [← ht, hf])⟩

theorem Tree.parse_joined_error {e : SyntaxError} (h : Tree.parse upper = .ok trees)
    (closed : endsInComment upper = false) (some_token : tokensOf lower ≠ [.finish])
    (h' : Tree.parse lower = .error e) :
    Tree.parse (upper ++ "\n" ++ lower) = .error (e.below upper) := by
  obtain ⟨front, spelled, hl⟩ := lexemesOf_joined lower h closed
  obtain ⟨f, hf, rfl⟩ := Tree.parse_eq_error.1 h'
  obtain ⟨l, back, hlex, hfin⟩ := exists_lexeme some_token
  refine Tree.parse_eq_error.2 ⟨f.shift (upper.toList.length + 1), ?_,
    (SyntaxFault.inText_below upper lower f).symm⟩
  rw [hlex] at hl
  refine Parser.file_fails_behind (by simp [Parser.ofText]) hlex hfin ?_
    (by simp [Parser.ofText]) hl ?_ spelled hf
  · unfold Parser.room
    omega
  · unfold Parser.room
    omega

end Parse

/-! ## Importing -/

/-- The error as it is reported below another text.  Only syntax errors have a
place. -/
def ImportError.below (upper : String) : ImportError → ImportError
  | .parse e => .parse (e.below upper)
  | .build e => .build e
  | .unreadable path fault => .unreadable path fault

/-- Building a tree fails without a place. -/
theorem importTrees_error {ts : List Tree} {e : ImportError}
    (h : (importTrees ts).result = .error e) : ∃ b, e = .build b := by
  induction ts with
  | nil => cases h
  | cons t ts ih =>
      rw [importTrees] at h
      split at h
      · next b log hb =>
          cases h
          exact ⟨b, rfl⟩
      · cases hr : (importTrees ts).result with
        | ok models => simp [hr, Except.map] at h
        | error e' =>
            simp only [hr, Except.map, Except.error.injEq] at h
            exact ih (h ▸ hr)

/-- The trees are built one by one, each from nothing. -/
theorem importTrees_append {ts us : List Tree} {models : List Model}
    (h : (importTrees ts).result = .ok models) :
    (importTrees (ts ++ us)).result = (importTrees us).result.map (models ++ ·) := by
  induction ts generalizing models with
  | nil =>
      cases h
      cases hr : (importTrees us).result with
      | ok more => simp [hr, Except.map]
      | error e => simp [hr, Except.map]
  | cons t ts ih =>
      rw [importTrees] at h
      rw [List.cons_append, importTrees]
      split at h
      · cases h
      · next m log hb =>
          cases hr : (importTrees ts).result with
          | error e => simp [hr, Except.map] at h
          | ok first =>
              simp only [hr, Except.map, Except.ok.injEq] at h
              subst h
              simp only [ih hr]
              cases (importTrees us).result with
              | ok more => rfl
              | error e => rfl

theorem importText_of_ok {text : String} {trees : List Tree}
    (h : Tree.parse text = .ok trees) : importText text = importTrees trees := by
  unfold importText
  rw [h]

theorem importText_of_error {text : String} {e : SyntaxError}
    (h : Tree.parse text = .error e) : (importText text).result = .error (.parse e) := by
  unfold importText
  rw [h]

theorem importText_joined_blank {upper lower : String} {models : List Model}
    (h : (importText upper).result = .ok models) (closed : endsInComment upper = false)
    (blank : tokensOf lower = [.finish]) :
    (importText (upper ++ "\n" ++ lower)).result = .ok models := by
  cases hu : Tree.parse upper with
  | error e =>
      rw [importText_of_error hu] at h
      cases h
  | ok trees =>
      rw [importText_of_ok (Tree.parse_joined_blank hu closed blank), ← importText_of_ok hu]
      exact h

/-- The models of a joined text are those of its parts, and it fails as its lower
part does. -/
theorem importText_joined (upper lower : String) {models : List Model}
    (h : (importText upper).result = .ok models) (closed : endsInComment upper = false) :
    (∀ more, (importText lower).result = .ok more →
      (importText (upper ++ "\n" ++ lower)).result = .ok (models ++ more)) ∧
    (tokensOf lower ≠ [.finish] → ∀ e, (importText lower).result = .error e →
      (importText (upper ++ "\n" ++ lower)).result = .error (e.below upper)) := by
  cases hu : Tree.parse upper with
  | error e =>
      rw [importText_of_error hu] at h
      cases h
  | ok trees =>
      rw [importText_of_ok hu] at h
      cases hl : Tree.parse lower with
      | error e =>
          rw [importText_of_error hl]
          refine ⟨fun more hm => (by cases hm), fun some_token e' he => ?_⟩
          cases he
          exact importText_of_error (Tree.parse_joined_error hu closed some_token hl)
      | ok others =>
          rw [importText_of_ok hl, importText_of_ok (Tree.parse_joined_ok hu closed hl),
            importTrees_append h]
          refine ⟨fun more hm => by rw [hm]; rfl, fun _ e he => ?_⟩
          obtain ⟨b, rfl⟩ := importTrees_error he
          rw [he]
          rfl

/-- The comment at the end of the upper text ends with its line, and the brace of
the lower text stands on the fourth line of the joined one. -/
theorem importText_joined_comment :
    let upper := "graph A \x7b a \x7d\n// \x7d"
    let lower := "digraph \x7b b \x7d"
    let wrong := "digraph \x7b\n b -> \x7d"
    let m := ((Model.new .graph (some "A")).addNode Model.root "a" .empty).2
    let m' := ((Model.new .digraph none).addNode Model.root "b" .empty).2
    let e := ImportError.parse
      ⟨⟨2, 7⟩, .unexpected .nodeName (.mark .closeBrace), " b -> \x7d\n      ^"⟩
    (importText upper).result = .ok [m] ∧ endsInComment upper = false ∧
      (importText (upper ++ "\n" ++ lower)).result = .ok ([m] ++ [m']) ∧
      tokensOf wrong ≠ [.finish] ∧
      (importText (upper ++ "\n" ++ wrong)).result = .error (e.below upper) := by
  intro upper lower wrong m m' e
  have imported : (importText upper).result = .ok [m] := by decide +kernel
  have closed : endsInComment upper = false := by decide +kernel
  have some_token : tokensOf wrong ≠ [.finish] := by decide +kernel
  exact ⟨imported, closed,
    (importText_joined upper lower imported closed).1 [m'] (by decide +kernel), some_token,
    (importText_joined upper wrong imported closed).2 some_token e (by decide +kernel)⟩

-- An open comment of the upper text swallows the lower one.
example : endsInComment "graph \x7b \x7d /*" = true ∧
    (importText "graph \x7b \x7d /*\ngraph \x7b \x7d").result = .ok [Model.new .graph none] := by
  decide +kernel

end DotLang
