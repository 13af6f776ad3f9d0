import DotLang.Proofs.NumberTexts
import DotLang.Value.Position
/-!
# Routes are read from their texts

The text of a route has four separators inside each other: semicolons between splines,
blanks between the items of a spline, commas between coordinates, and the marks of an item
in front of a point and behind it.  A number is written with digits, signs and points
alone, so a point has no separator of an outer level in it, and it begins like a number
and so like no mark (`Point.text_chars`, `Point.exists_text`).

A route is written with the end points first, whatever their order was.  They are accepted
there, since no control point stands before them (`Spline.read_text`).
-/

namespace DotLang

open Text

variable {cs : List Char} {c : Char}

namespace Point

variable {p : Point}

/-! ## Points -/

/-- The coordinates are finite numbers. -/
structure Finite (p : Point) : Prop where
  x : p.x.isFinite = true
  y : p.y.isFinite = true
  z : ∀ z ∈ p.z, z.isFinite = true

/-- The texts of the coordinates. -/
def coords (p : Point) : List (List Char) :=
  p.x.text :: p.y.text :: (p.z.map Double.text).toList

theorem text_eq (p : Point) :
    p.text = joinWith [','] p.coords ++ if p.fixed then ['!'] else [] := by
  obtain ⟨x, y, z, fixed⟩ := p
  cases z <;> simp [text, coords, joinWith]

theorem Finite.coords (h : p.Finite) : ∀ w ∈ p.coords, NumberText w := by
  intro w hw
  rcases List.mem_cons.1 hw with rfl | hw
  · exact Double.numberText h.x
  · rcases List.mem_cons.1 hw with rfl | hw
    · exact Double.numberText h.y
    · obtain ⟨z, hz, rfl⟩ := Option.map_eq_some_iff.1 (Option.mem_toList.1 hw)
      exact Double.numberText (h.z z hz)

/-- The characters that points are written with. -/
def isPointChar (c : Char) : Bool := isNumberChar c || c == ',' || c == '!'

theorem isBlank_of_isPointChar (h : isPointChar c = true) : isBlank c = false := by
  simp only [isPointChar, Bool.or_eq_true, beq_iff_eq] at h
  rcases h with (h | rfl) | rfl
  · exact isBlank_of_isNumberChar h
  · rfl
  · rfl

/-- A point has no blank and no semicolon in it. -/
theorem text_chars (h : p.Finite) : ∀ c ∈ p.text, isPointChar c = true := by
  intro c hc
  rw [text_eq] at hc
  rcases List.mem_append.1 hc with hc | hc
  · rcases mem_joinWith hc with rfl | ⟨w, hw, hc⟩
    · rfl
    · simp [isPointChar, (h.coords w hw).chars c hc]
  · split at hc
    · obtain rfl := List.mem_singleton.1 hc
      rfl
    · cases hc

/-- A point begins as a number does. -/
theorem exists_text (h : p.Finite) : ∃ c w, p.text = c :: w ∧ isNumberChar c = true := by
  have hx := Double.numberText h.x
  obtain ⟨c, w, hw⟩ := List.exists_cons_of_ne_nil hx.not_nil
  have hc : isNumberChar c = true := hx.chars c (hw ▸ List.mem_cons_self)
  simp [text, hw, hc]

/-- A point is read from its text. -/
theorem read_text (h : p.Finite) : read p.text = .ok p := by
  have htrim : trim p.text = p.text :=
    trim_of_not_blank fun c hc => isBlank_of_isPointChar (text_chars h c hc)
  have hsplit : splitAt ',' (joinWith [','] p.coords) = p.coords :=
    splitAt_joinWith (List.cons_ne_nil _ _) fun w hw => (h.coords w hw).not_mem rfl
  have hbefore : beforeTail? ['!'] p.text =
      if p.fixed then some (joinWith [','] p.coords) else none := by
    split
    · next hp => exact beforeTail?_eq_some_iff.2 (by rw [text_eq, if_pos hp])
    · next hp =>
        -- No coordinate has the mark in it.
        refine Option.eq_none_iff_forall_ne_some.2 fun rest hrest => ?_
        have hmark : '!' ∈ joinWith [','] p.coords := by
          have htext := beforeTail?_eq_some_iff.1 hrest
          rw [text_eq, if_neg hp, List.append_nil] at htext
          rw [htext]
          simp
        rcases mem_joinWith hmark with hc | ⟨w, hw, hc⟩
        · exact absurd hc (by decide)
        · exact (h.coords w hw).not_mem rfl hc
  have hx := readNumberValue_text h.x
  have hy := readNumberValue_text h.y
  have hz : ∀ z ∈ p.z, readNumberValue z.text = .ok z := fun z hz =>
    readNumberValue_text (h.z z hz)
  obtain ⟨x, y, z, fixed⟩ := p
  cases fixed with
  | false =>
      have htext := text_eq ⟨x, y, z, false⟩
      simp only [Bool.false_eq_true, if_false, List.append_nil] at htext hbefore
      simp only [read, htrim, hbefore]
      rw [htext, hsplit]
      cases z with
      | none => simp [coords, hx, hy]
      | some z => simp [coords, hx, hy, hz z rfl]
  | true =>
      simp only [if_true] at hbefore
      simp only [read, htrim, hbefore]
      rw [hsplit]
      cases z with
      | none => simp [coords, hx, hy]
      | some z => simp [coords, hx, hy, hz z rfl]

theorem finite_of_read (h : read cs = .ok p) : p.Finite := by
  unfold read at h
  dsimp only at h
  split at h
  · simp only [bind_eq_ok_iff, pure_eq_ok_iff, readNumberValue_eq_ok_iff] at h
    obtain ⟨x, hx, y, hy, rfl⟩ := h
    exact ⟨hx.2, hy.2, by simp⟩
  · simp only [bind_eq_ok_iff, pure_eq_ok_iff, readNumberValue_eq_ok_iff] at h
    obtain ⟨x, hx, y, hy, z, hz, rfl⟩ := h
    exact ⟨hx.2, hy.2, by simpa using hz.2⟩
  · cases h

end Point

namespace Spline

variable {s s' : Spline} {p : Point}

/-! ## Splines -/

/-- The points of the spline have finite coordinates. -/
structure Finite (s : Spline) : Prop where
  finish : ∀ p ∈ s.finish, p.Finite
  start : ∀ p ∈ s.start, p.Finite
  points : ∀ p ∈ s.points, p.Finite

/-- The texts of the items of a spline. -/
def items (s : Spline) : List (List Char) :=
  (s.finish.map fun p => 'e' :: ',' :: p.text).toList ++
    (s.start.map fun p => 's' :: ',' :: p.text).toList ++ s.points.map Point.text

theorem text_eq (s : Spline) : s.text = joinWith [' '] s.items := rfl

/-- An item is not empty and has no blank and no semicolon in it. -/
theorem Finite.items (h : s.Finite) :
    ∀ w ∈ s.items, w ≠ [] ∧ ∀ c ∈ w, isBlank c = false ∧ c ≠ ';' := by
  have hpoint : ∀ {p : Point}, p.Finite → ∀ c ∈ p.text, isBlank c = false ∧ c ≠ ';' := by
    intro p hp c hc
    have hchar := Point.text_chars hp c hc
    refine ⟨Point.isBlank_of_isPointChar hchar, ?_⟩
    rintro rfl
    exact absurd hchar (by decide)
  intro w hw
  rcases List.mem_append.1 hw with hw | hw
  · rcases List.mem_append.1 hw with hw | hw
    · obtain ⟨p, hp, rfl⟩ := Option.map_eq_some_iff.1 (Option.mem_toList.1 hw)
      simpa using ⟨by decide, by decide, hpoint (h.finish p hp)⟩
    · obtain ⟨p, hp, rfl⟩ := Option.map_eq_some_iff.1 (Option.mem_toList.1 hw)
      simpa using ⟨by decide, by decide, hpoint (h.start p hp)⟩
  · obtain ⟨p, hp, rfl⟩ := List.mem_map.1 hw
    obtain ⟨c, w, hcw, _⟩ := Point.exists_text (h.points p hp)
    exact ⟨by simp [hcw], hpoint (h.points p hp)⟩

/-- A point is no marked item. -/
theorem addItem_point (h : p.Finite) :
    s.addItem p.text = .ok { s with points := s.points ++ [p] } := by
  obtain ⟨c, w, hcw, hc⟩ := Point.exists_text h
  unfold addItem
  split
  · next hmark =>
      rw [hcw, List.cons.injEq] at hmark
      rw [hmark.1] at hc
      exact absurd hc (by decide)
  · next hmark =>
      rw [hcw, List.cons.injEq] at hmark
      rw [hmark.1] at hc
      exact absurd hc (by decide)
  · simp [Point.read_text h]

/-- The points of a list are added in order. -/
theorem addItem_points {ps : List Point} (h : ∀ p ∈ ps, p.Finite) :
    (ps.map Point.text).foldlM addItem s = .ok { s with points := s.points ++ ps } := by
  induction ps generalizing s with
  | nil => simp
  | cons p ps ih =>
      obtain ⟨hp, hps⟩ := List.forall_mem_cons.1 h
      rw [List.map_cons, List.foldlM_cons, addItem_point hp]
      simpa using ih hps (s := { s with points := s.points ++ [p] })

/-- The items of a spline are added to the empty one: the end points find no control
points before them. -/
theorem addItem_items (h : s.Finite) : s.items.foldlM addItem ⟨none, none, []⟩ = .ok s := by
  have hfinish : (s.finish.map fun p => 'e' :: ',' :: p.text).toList.foldlM addItem
      ⟨none, none, []⟩ = .ok ⟨s.finish, none, []⟩ := by
    cases hp : s.finish with
    | none => rfl
    | some p => simp [addItem, Point.read_text (h.finish p hp)]
  have hstart : (s.start.map fun p => 's' :: ',' :: p.text).toList.foldlM addItem
      ⟨s.finish, none, []⟩ = .ok ⟨s.finish, s.start, []⟩ := by
    cases hp : s.start with
    | none => rfl
    | some p => simp [addItem, Point.read_text (h.start p hp)]
  have hpoints : (s.points.map Point.text).foldlM addItem ⟨s.finish, s.start, []⟩ = .ok s :=
    addItem_points h.points
  rw [items, List.foldlM_append, List.foldlM_append, bind_eq_ok_iff]
  exact ⟨_, bind_eq_ok_iff.2 ⟨_, hfinish, hstart⟩, hpoints⟩

/-- A spline is read from its text. -/
theorem read_text (h : s.Finite) (count : goodCount s.points.length = true) :
    read s.text = .ok s := by
  have hwords : wordsBy isBlank s.text = s.items :=
    wordsBy_joinWith (by decide) fun w hw =>
      ⟨(h.items w hw).1, fun c hc => ((h.items w hw).2 c hc).1⟩
  rw [read, hwords, addItem_items h]
  simp [count]

theorem addItem_finite (h : s.Finite) (hadd : s.addItem cs = .ok s') : s'.Finite := by
  unfold addItem at hadd
  split at hadd
  · split at hadd
    · cases hadd
    · simp only [bind_eq_ok_iff, pure_eq_ok_iff] at hadd
      obtain ⟨p, hp, rfl⟩ := hadd
      exact ⟨by simpa using Point.finite_of_read hp, h.start, h.points⟩
  · split at hadd
    · cases hadd
    · simp only [bind_eq_ok_iff, pure_eq_ok_iff] at hadd
      obtain ⟨p, hp, rfl⟩ := hadd
      exact ⟨h.finish, by simpa using Point.finite_of_read hp, h.points⟩
  · simp only [bind_eq_ok_iff, pure_eq_ok_iff] at hadd
    obtain ⟨p, hp, rfl⟩ := hadd
    exact ⟨h.finish, h.start, by
      simpa [or_imp, forall_and] using ⟨h.points, Point.finite_of_read hp⟩⟩

theorem addItems_finite {items : List (List Char)} (h : s.Finite)
    (hadd : items.foldlM addItem s = .ok s') : s'.Finite := by
  induction items generalizing s with
  | nil =>
      simp only [List.foldlM_nil, pure_eq_ok_iff] at hadd
      exact hadd ▸ h
  | cons item items ih =>
      rw [List.foldlM_cons, bind_eq_ok_iff] at hadd
      obtain ⟨s1, hitem, hrest⟩ := hadd
      exact ih (addItem_finite h hitem) hrest

theorem finite_of_read (h : read cs = .ok s) :
    s.Finite ∧ goodCount s.points.length = true := by
  unfold read at h
  rw [bind_eq_ok_iff] at h
  obtain ⟨s', hadd, hs⟩ := h
  have hempty : Finite ⟨none, none, []⟩ := ⟨by simp, by simp, by simp⟩
  split at hs
  · next hcount =>
      cases hs
      exact ⟨addItems_finite hempty hadd, hcount⟩
  · cases hs

end Spline

/-! ## Lists of splines -/

/-- A text that is read as a route has a spline, and every spline of it has one control point
more than a positive multiple of three.  The text of the route is read as the same route. -/
theorem SplineList.parse_show_route {t : String} {v : SplineList}
    (h : AttrValue.parse SplineList t = .ok v) :
    AttrValue.parse SplineList (AttrValue.show v) = .ok v ∧ v.splines ≠ [] ∧
      ∀ s ∈ v.splines, ∃ n, 1 ≤ n ∧ s.points.length = 3 * n + 1 := by
  change SplineList.read t.toList = .ok v at h
  simp only [SplineList.read, bind_eq_ok_iff, pure_eq_ok_iff] at h
  obtain ⟨splines, hread, rfl⟩ := h
  have hgood : ∀ s ∈ splines, s.Finite ∧ Spline.goodCount s.points.length = true :=
    forall_of_mapM hread fun _ _ => Spline.finite_of_read
  have hne : splines ≠ [] := by
    rintro rfl
    have hlength := (mapM_eq_ok_iff.1 hread).length_eq
    exact splitWhere_ne_nil _ _ (List.length_eq_zero_iff.1 hlength)
  refine ⟨?_, hne, fun s hs => ?_⟩
  · have hsplit : splitAt ';' (joinWith [';'] (splines.map Spline.text)) =
        splines.map Spline.text := by
      refine splitAt_joinWith (by simpa using hne) fun piece hpiece hmem => ?_
      obtain ⟨s, hs, rfl⟩ := List.mem_map.1 hpiece
      rcases mem_joinWith hmem with hc | ⟨w, hw, hc⟩
      · exact absurd hc (by decide)
      · exact (((hgood s hs).1.items w hw).2 _ hc).2 rfl
    have hagain : (splines.map Spline.text).mapM Spline.read = .ok (splines.map id) :=
      mapM_map_eq_ok fun s hs => Spline.read_text (hgood s hs).1 (hgood s hs).2
    show SplineList.read (String.ofList (SplineList.text ⟨splines⟩)).toList = .ok ⟨splines⟩
    rw [String.toList_ofList, SplineList.read, SplineList.text, hsplit, hagain, List.map_id]
    rfl
  · have hcount := (hgood s hs).2
    simp only [Spline.goodCount, Bool.and_eq_true, decide_eq_true_eq, beq_iff_eq] at hcount
    exact ⟨s.points.length / 3, by omega, by omega⟩

/-- The point at the tail in front of the one at the head, marks, a third coordinate, blanks
beyond ASCII, and numbers in other spellings. -/
theorem SplineList.parse_show_marked :
    let t := "s,5,.50! e,-0,1e1,+2. 0,0\u00a01,1!  2,2 3,3;0,0 1,1 2,2 3,3 4,4 5,5 0.1,1e-2"
    let shown := "e,-0,10,2 s,5,0.5! 0,0 1,1! 2,2 3,3;0,0 1,1 2,2 3,3 4,4 5,5 0.1,0.01"
    ∃ v, AttrValue.parse SplineList t = .ok v ∧ AttrValue.show v = shown ∧
      AttrValue.parse SplineList (AttrValue.show v) = .ok v ∧ v.splines ≠ [] ∧
      ∀ s ∈ v.splines, ∃ n, 1 ≤ n ∧ s.points.length = 3 * n + 1 := by
  intro t shown
  have hshown : (AttrValue.parse SplineList t).toOption.map AttrValue.show = some shown := by
    decide +kernel
  obtain ⟨v, hv, hshow⟩ := Option.map_eq_some_iff.1 hshown
  have hparse : AttrValue.parse SplineList t = .ok v := toOption_eq_some_iff.1 hv
  exact ⟨v, hparse, hshow, SplineList.parse_show_route hparse⟩

end DotLang
