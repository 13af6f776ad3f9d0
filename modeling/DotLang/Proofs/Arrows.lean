import DotLang.Proofs.Pieces
import DotLang.Value.Arrow
/-!
# Arrows are read in one way

An arrow is read from the left: a mark for a hollow shape if there is one, a letter for
a side if there is one, and the first name of the table that fits.  Nothing is taken
back, so it matters that no choice can be wrong.  No name begins with a mark or a letter
for a side (`ArrowShape.name_head`), and no name begins with another one
(`ArrowShape.name_unique`).  Hence a shape in front of any text is read as that shape
(`ArrowShape.read_eq_ok_iff`), and a text is read as the shapes that it is put together
from (`Arrow.readShapes_eq_ok_iff`).

The names kept from older files come first, and none of them is put together from shapes
(`Arrow.deprecated_not_shapes`).
-/

namespace DotLang

open Text

namespace ArrowShape

variable {cs rest : List Char} {name : String} {s : ArrowShape}

/-! ## The table of names -/

/-- No name begins as a modifier does. -/
theorem name_head :
    ∀ name ∈ names, ∃ c, name.toList.head? = some c ∧ c ≠ 'o' ∧ c ≠ 'l' ∧ c ≠ 'r' := by
  have htable : ∀ name ∈ names, name.toList.head?.any (fun c => c ≠ 'o' ∧ c ≠ 'l' ∧ c ≠ 'r') =
      true := by decide
  intro name hname
  obtain ⟨c, hc, hne⟩ := (Option.any_eq_true ..).1 (htable name hname)
  exact ⟨c, hc, of_decide_eq_true hne⟩

/-- No name begins with another one. -/
theorem name_unique : ∀ name ∈ names, ∀ other ∈ names,
    name.toList <+: other.toList → name = other := by
  decide

/-! ## One shape -/

theorem readName_eq_some_iff :
    readName cs = some (name, rest) ↔ name ∈ names ∧ cs = name.toList ++ rest := by
  have sound : ∀ {name rest}, readName cs = some (name, rest) →
      name ∈ names ∧ cs = name.toList ++ rest := by
    intro name rest h
    obtain ⟨other, hother, hlead⟩ := List.exists_of_findSome?_eq_some h
    obtain ⟨rest', hlead, he⟩ := Option.map_eq_some_iff.1 hlead
    cases he
    exact ⟨hother, afterLead?_eq_some_iff.1 hlead⟩
  refine ⟨sound, ?_⟩
  rintro ⟨hname, hcs⟩
  cases h : readName cs with
  | none =>
      have hnone := List.findSome?_eq_none_iff.1 h name hname
      rw [afterLead?_eq_some_iff.2 hcs] at hnone
      cases hnone
  | some found =>
      -- Of two names in front of one text, one begins with the other.
      obtain ⟨other, rest'⟩ := found
      obtain ⟨hother, hcs'⟩ := sound h
      have hname_lead : name.toList <+: cs := ⟨rest, hcs.symm⟩
      have hother_lead : other.toList <+: cs := ⟨rest', hcs'.symm⟩
      have he : other = name := by
        rcases List.prefix_or_prefix_of_prefix hother_lead hname_lead with hp | hp
        · exact name_unique other hother name hname hp
        · exact (name_unique name hname other hother hp).symm
      subst he
      rw [List.append_cancel_left (hcs.symm.trans hcs')]

/-- The mark of a hollow shape. -/
def hollowText (hollow : Bool) : List Char := if hollow then ['o'] else []

/-- The letter for a side. -/
def sideText : Option ArrowSide → List Char
  | none => []
  | some .left => ['l']
  | some .right => ['r']

theorem text_eq (s : ArrowShape) :
    s.text = hollowText s.hollow ++ (sideText s.side ++ s.name.toList) := by
  obtain ⟨hollow, side, name⟩ := s
  rw [text, List.append_assoc]
  rcases side with _ | _ | _ <;> rfl

/-- The mark is read if it is there. -/
theorem readHollow_iff {hollow : Bool} : readHollow cs = (hollow, rest) ↔
    cs = hollowText hollow ++ rest ∧ (hollow = false → cs.head? ≠ some 'o') := by
  unfold readHollow
  split
  · cases hollow <;> simp [hollowText]
  · next h =>
      have hhead : cs.head? ≠ some 'o' := fun hc =>
        let ⟨rest, he⟩ := List.head?_eq_some_iff.1 hc
        h rest he
      cases hollow with
      | false => simp [hollowText, hhead]
      | true => exact iff_of_false (by simp) fun he => h rest he.1

/-- The letter is read if it is there. -/
theorem readSide_iff {side : Option ArrowSide} : readSide cs = (side, rest) ↔
    cs = sideText side ++ rest ∧
      (side = none → cs.head? ≠ some 'l' ∧ cs.head? ≠ some 'r') := by
  unfold readSide
  split
  · rcases side with _ | _ | _ <;> simp [sideText]
  · rcases side with _ | _ | _ <;> simp [sideText]
  · next hl hr =>
      have hhead : cs.head? ≠ some 'l' ∧ cs.head? ≠ some 'r' := by
        refine ⟨fun hc => ?_, fun hc => ?_⟩
        · obtain ⟨rest, he⟩ := List.head?_eq_some_iff.1 hc
          exact hl rest he
        · obtain ⟨rest, he⟩ := List.head?_eq_some_iff.1 hc
          exact hr rest he
      rcases side with _ | _ | _
      · simp [sideText, hhead]
      · exact iff_of_false (by simp) fun he => hl rest he.1
      · exact iff_of_false (by simp) fun he => hr rest he.1

/-- A shape is read in front of any text, and what is read is a shape in front of the
rest. -/
theorem read_eq_ok_iff : read cs = .ok (s, rest) ↔ s.name ∈ names ∧ cs = s.text ++ rest := by
  constructor
  · intro h
    rcases hh : readHollow cs with ⟨hollow, cs1⟩
    rcases hs : readSide cs1 with ⟨side, cs2⟩
    simp only [read, hh, hs] at h
    split at h
    · next name rest' hn =>
        cases h
        obtain ⟨hname, rfl⟩ := readName_eq_some_iff.1 hn
        obtain ⟨rfl, _⟩ := readSide_iff.1 hs
        obtain ⟨rfl, _⟩ := readHollow_iff.1 hh
        exact ⟨hname, by rw [text_eq, List.append_assoc, List.append_assoc]⟩
    · cases h
  · rintro ⟨hname, rfl⟩
    obtain ⟨c, hc, ho, hl, hr⟩ := name_head s.name hname
    obtain ⟨w, hw⟩ := List.head?_eq_some_iff.1 hc
    have hn : readName (s.name.toList ++ rest) = some (s.name, rest) :=
      readName_eq_some_iff.2 ⟨hname, rfl⟩
    -- A modifier that is not there is not read from the name behind it.
    have hside : readSide (sideText s.side ++ (s.name.toList ++ rest)) =
        (s.side, s.name.toList ++ rest) :=
      readSide_iff.2 ⟨rfl, fun hnone => by simp [hnone, sideText, hw, hl, hr]⟩
    have hhollow : readHollow (s.text ++ rest) =
        (s.hollow, sideText s.side ++ (s.name.toList ++ rest)) := by
      refine readHollow_iff.2 ⟨by rw [text_eq, List.append_assoc, List.append_assoc], fun hno => ?_⟩
      rw [text_eq, hno, hw]
      rcases s.side with _ | _ | _ <;> simp [hollowText, sideText, ho]
    simp only [read, hhollow, hside, hn]

theorem text_ne_nil (h : s.name ∈ names) : s.text ≠ [] := by
  obtain ⟨c, hc, _⟩ := name_head s.name h
  obtain ⟨w, hw⟩ := List.head?_eq_some_iff.1 hc
  rw [text_eq, hw]
  simp

end ArrowShape

namespace Arrow

variable {cs : List Char} {l : List ArrowShape}

/-! ## Whole arrows -/

/-- The shapes are those of the table. -/
def Named (l : List ArrowShape) : Prop := ∀ s ∈ l, s.name ∈ ArrowShape.names

theorem named_cons {s : ArrowShape} :
    Named (s :: l) ↔ s.name ∈ ArrowShape.names ∧ Named l := List.forall_mem_cons

theorem readShapes_sound (h : readShapes cs = .ok l) :
    Named l ∧ cs = l.flatMap ArrowShape.text := by
  fun_induction readShapes cs generalizing l with
  | case1 cs hnil =>
      cases h
      exact ⟨nofun, List.isEmpty_iff.1 hnil⟩
  | case2 => cases h
  | case3 cs hne s rest hread ih =>
      cases hrest : readShapes rest with
      | error reason =>
          rw [hrest] at h
          cases h
      | ok others =>
          rw [hrest] at h
          cases h
          obtain ⟨named, hothers⟩ := ih hrest
          obtain ⟨hname, hcs⟩ := ArrowShape.read_eq_ok_iff.1 hread
          exact ⟨named_cons.2 ⟨hname, named⟩, by rw [List.flatMap_cons, ← hothers, hcs]⟩

theorem readShapes_text (named : Named l) : readShapes (l.flatMap ArrowShape.text) = .ok l := by
  induction l with
  | nil => rw [List.flatMap_nil, readShapes, List.isEmpty_nil, if_pos rfl]
  | cons s l ih =>
      obtain ⟨hname, named⟩ := named_cons.1 named
      have hread : ArrowShape.read ((s :: l).flatMap ArrowShape.text) =
          .ok (s, l.flatMap ArrowShape.text) :=
        ArrowShape.read_eq_ok_iff.2 ⟨hname, List.flatMap_cons⟩
      have hne : (s :: l).flatMap ArrowShape.text ≠ [] := by
        rw [List.flatMap_cons]
        exact List.append_ne_nil_of_left_ne_nil (ArrowShape.text_ne_nil hname) _
      rw [readShapes, if_neg (by rwa [List.isEmpty_iff])]
      split
      · next h =>
          rw [hread] at h
          cases h
      · next h =>
          rw [hread] at h
          cases h
          rw [ih named]
          rfl

/-- A text is read as shapes exactly if it is put together from them. -/
theorem readShapes_eq_ok_iff :
    readShapes cs = .ok l ↔ Named l ∧ cs = l.flatMap ArrowShape.text :=
  ⟨readShapes_sound, fun ⟨named, hcs⟩ => hcs ▸ readShapes_text named⟩

/-- No name kept from older files is put together from shapes. -/
theorem deprecated_not_shapes : ∀ name ∈ deprecatedNames, ∀ l,
    readShapes name.toList ≠ .ok l := by
  have htable : ∀ name ∈ deprecatedNames,
      (readShapes name.toList).isOk = false := by decide +kernel
  intro name hname l h
  have hfails := htable name hname
  rw [h] at hfails
  cases hfails

/-- One to four shapes of the table. -/
structure IsShapes (l : List ArrowShape) : Prop where
  named : Named l
  some_shape : l ≠ []
  at_most : l.length ≤ 4

/-- A name kept from older files, or one to four shapes of the table. -/
def Proper : Arrow → Prop
  | .deprecated name => name ∈ deprecatedNames
  | .shapes l => IsShapes l

theorem read_of_deprecated (h : String.ofList cs ∈ deprecatedNames) :
    read cs = .ok (.deprecated (String.ofList cs)) := by
  rw [read, if_pos (List.contains_iff_mem.2 h)]

theorem read_of_not_deprecated {a : Arrow} (h : String.ofList cs ∉ deprecatedNames) :
    read cs = .ok a ↔ ∃ l, readShapes cs = .ok l ∧ l ≠ [] ∧ l.length ≤ 4 ∧ a = .shapes l := by
  rw [read, if_neg (mt List.contains_iff_mem.1 h), bind_eq_ok_iff]
  refine exists_congr fun l => and_congr_right fun _ => ?_
  by_cases hcount : (l.isEmpty || 4 < l.length) = true
  · rw [if_pos hcount]
    refine iff_of_false (fun he => by cases he) fun ⟨hne, hle, _⟩ => ?_
    simp [hne, Nat.not_lt.2 hle] at hcount
  · rw [if_neg hcount]
    have hshape : l ≠ [] ∧ l.length ≤ 4 := by simpa using hcount
    simp [hshape, eq_comm (b := a)]

/-- An arrow is read from its text, and from no other. -/
theorem read_eq_ok_iff {a : Arrow} : read cs = .ok a ↔ a.Proper ∧ cs = a.text := by
  by_cases hold : String.ofList cs ∈ deprecatedNames
  · rw [read_of_deprecated hold]
    constructor
    · intro h
      cases h
      exact ⟨hold, String.toList_ofList.symm⟩
    · rintro ⟨proper, rfl⟩
      cases a with
      | deprecated name => rw [text, String.ofList_toList]
      | shapes l =>
          have hnot := deprecated_not_shapes _ hold l
          rw [String.toList_ofList] at hnot
          exact absurd (readShapes_text proper.named) hnot
  · rw [read_of_not_deprecated hold]
    constructor
    · rintro ⟨l, hread, hne, hle, rfl⟩
      obtain ⟨named, hcs⟩ := readShapes_sound hread
      exact ⟨⟨named, hne, hle⟩, hcs⟩
    · rintro ⟨proper, rfl⟩
      cases a with
      | deprecated name =>
          rw [text, String.ofList_toList] at hold
          exact absurd proper hold
      | shapes l =>
          exact ⟨l, readShapes_text proper.named, proper.some_shape, proper.at_most, rfl⟩

end Arrow

/-- A text is an arrow exactly if it is a name kept from older files or is put together
from one to four shapes of the table.  No two arrows have one text, the text of an arrow
is the one that it was read from, and one to four shapes are read from their text. -/
theorem Arrow.parse_unambiguous :
    (∀ t : String, (∃ a, AttrValue.parse Arrow t = .ok a) ↔
      t ∈ deprecatedNames ∨ ∃ l, IsShapes l ∧ AttrValue.show (Arrow.shapes l) = t) ∧
    (∀ (t : String) (a : Arrow), AttrValue.parse Arrow t = .ok a →
      AttrValue.show a = t ∧ ∀ b : Arrow, b.Proper → AttrValue.show b = t → b = a) ∧
    ∀ l, IsShapes l → AttrValue.parse Arrow (AttrValue.show (Arrow.shapes l)) = .ok (.shapes l) := by
  have parse_iff : ∀ (t : String) (a : Arrow),
      AttrValue.parse Arrow t = .ok a ↔ a.Proper ∧ AttrValue.show a = t := by
    intro t a
    have hshow : AttrValue.show a = t ↔ t.toList = a.text := by
      rw [← String.toList_inj, AttrValue.show, String.toList_ofList, eq_comm]
      rfl
    rw [hshow]
    exact read_eq_ok_iff
  refine ⟨fun t => ?_, fun t a h => ?_, fun l hl => (parse_iff _ _).2 ⟨hl, rfl⟩⟩
  · simp only [parse_iff]
    constructor
    · rintro ⟨a, proper, rfl⟩
      cases a with
      | deprecated name =>
          refine Or.inl ?_
          rwa [AttrValue.show, show AttrValue.text (Arrow.deprecated name) = name.toList from rfl,
            String.ofList_toList]
      | shapes l => exact Or.inr ⟨l, proper, rfl⟩
    · rintro (hold | ⟨l, hl, rfl⟩)
      · exact ⟨.deprecated t, hold, String.ofList_toList⟩
      · exact ⟨.shapes l, hl, rfl⟩
  · obtain ⟨_, hshow⟩ := (parse_iff t a).1 h
    refine ⟨hshow, fun b proper hb => ?_⟩
    have hread := (parse_iff t b).2 ⟨proper, hb⟩
    exact Except.ok.inj (hread.symm.trans h)

end DotLang
