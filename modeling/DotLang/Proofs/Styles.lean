import DotLang.Proofs.Pieces
import DotLang.Value.Style
/-!
# Styles are read again

A style is cut twice: into items at the commas outside parentheses, and the arguments of
an item at every comma between its parentheses.  The second cut looks at no depth, so an
argument may be a part such as `b(c` that does not balance.  What makes up for it is that
cutting, trimming and joining again drop blanks and nothing else.  The parentheses and
commas of an item (`marks`) stay as they are (`StyleItem.Reads.marks_text`), and
they alone say where an item ends (`depthAfter_marks`).

`StyleItem.Reads` and `Style.ReadsItems` say which text is read as which item and which
items.  The text of an item is read as that item (`StyleItem.Reads.text`), and so is the
text of a style.
-/

namespace DotLang

open Text

/-! ## Names -/

theorem isName_ne_nil {cs : List Char} (h : isName cs = true) : cs ≠ [] := by
  rintro rfl
  cases h

namespace Style

variable {cs w piece : List Char} {d e : Nat}

/-! ## Depth -/

/-- A parenthesis or a comma. -/
def isMark (c : Char) : Bool := c == '(' || c == ')' || c == ','

/-- The parentheses and commas of a text. -/
def marks (cs : List Char) : List Char := cs.filter isMark

theorem marks_append (cs w : List Char) : marks (cs ++ w) = marks cs ++ marks w :=
  List.filter_append ..

theorem isMark_of_blank {c : Char} (h : isBlank c = true) : isMark c = false := by
  unfold isMark
  simp only [Bool.or_eq_false_iff, beq_eq_false_iff_ne, ne_eq]
  refine ⟨⟨?_, ?_⟩, ?_⟩ <;> rintro rfl <;> revert h <;> decide

theorem marks_of_blank (h : w.all isBlank = true) : marks w = [] :=
  List.filter_eq_nil_iff.2 fun c hc => by simp [isMark_of_blank (List.all_eq_true.1 h c hc)]

/-- Trimming drops blanks only. -/
theorem marks_trim (cs : List Char) : marks (trim cs) = marks cs := by
  obtain ⟨left, right, he, hleft, hright⟩ := exists_trim cs
  rw [he, marks_append, marks_append, marks_of_blank hleft, marks_of_blank hright, ← he]
  simp

theorem marks_joinWith_trim (sep : List Char) (pieces : List (List Char)) :
    marks (joinWith sep (pieces.map trim)) = marks (joinWith sep pieces) := by
  fun_induction joinWith sep pieces with
  | case1 => rfl
  | case2 piece => exact marks_trim piece
  | case3 piece pieces hne ih =>
      rw [List.map_cons, joinWith, marks_append, marks_append, marks_append, marks_append, ih,
        marks_trim]
      exact mt List.map_eq_nil_iff.1 hne

/-- A name has no parenthesis and no comma. -/
theorem marks_of_isName (h : isName cs = true) : marks cs = [] := by
  refine List.filter_eq_nil_iff.2 fun c hc => ?_
  simp only [isName, Bool.and_eq_true, List.all_eq_true, Bool.or_eq_true, beq_iff_eq] at h
  have hn := h.2 c hc
  unfold isMark
  simp only [Bool.or_eq_true, beq_iff_eq]
  rintro ((rfl | rfl) | rfl) <;> revert hn <;> decide

/-- The number of open parentheses behind a text that is inside `d` of them, if no
partner is missing and no comma is outside all of them. -/
def depthAfter (d : Nat) : List Char → Option Nat
  | [] => some d
  | c :: cs =>
      if c = '(' then depthAfter (d + 1) cs
      else if c = ')' then if d = 0 then none else depthAfter (d - 1) cs
      else if c = ',' ∧ d = 0 then none
      else depthAfter d cs

/-- The text has all its parentheses and can be an item. -/
def Whole (cs : List Char) : Prop := depthAfter 0 cs = some 0

theorem depthAfter_append (d : Nat) (u v : List Char) :
    depthAfter d (u ++ v) = (depthAfter d u).bind fun e => depthAfter e v := by
  fun_induction depthAfter d u with
  | case1 => rfl
  | case2 d cs ih => simpa [depthAfter] using ih
  | case3 cs => simp [depthAfter]
  | case4 d cs hd _ ih => simpa [depthAfter, hd] using ih
  | case5 d c cs ho hc h => simp [depthAfter, h]
  | case6 d c cs ho hc h ih => simpa [depthAfter, ho, hc, h] using ih

/-- Only parentheses and commas matter. -/
theorem depthAfter_marks (d : Nat) (cs : List Char) :
    depthAfter d (marks cs) = depthAfter d cs := by
  unfold marks
  fun_induction depthAfter d cs with
  | case1 => rfl
  | case2 d cs ih => simpa [isMark, depthAfter] using ih
  | case3 cs => simp [isMark, depthAfter]
  | case4 d cs hd _ ih => simpa [isMark, depthAfter, hd] using ih
  | case5 d c cs ho hc h => simp [isMark, depthAfter, h]
  | case6 d c cs ho hc h ih =>
      by_cases hcomma : c = ','
      · have hd : d ≠ 0 := fun hd => h ⟨hcomma, hd⟩
        simpa [isMark, depthAfter, hcomma, hd] using ih
      · simpa [isMark, ho, hc, hcomma] using ih

theorem Whole.of_marks (h : Whole cs) (he : marks w = marks cs) : Whole w := by
  unfold Whole at h ⊢
  rw [← depthAfter_marks, he, depthAfter_marks, h]

/-- A closed parenthesis was open. -/
theorem depthAfter_count (h : depthAfter d w = some e) :
    d + w.count '(' = e + w.count ')' := by
  fun_induction depthAfter d w with
  | case1 d =>
      cases h
      rfl
  | case2 d cs ih =>
      have := ih h
      simp only [List.count_cons_self, List.count_cons_of_ne (show '(' ≠ ')' by decide)]
      omega
  | case3 => cases h
  | case4 d cs hd _ ih =>
      have := ih h
      simp only [List.count_cons_self, List.count_cons_of_ne (show ')' ≠ '(' by decide)]
      omega
  | case5 => cases h
  | case6 d c cs ho hc _ ih =>
      have := ih h
      rwa [List.count_cons_of_ne ho, List.count_cons_of_ne hc]

/-! ## Balance and outer commas -/

/-- The parentheses balance, and none closes before it is opened. -/
def ParensBalance (cs : List Char) : Prop :=
  cs.count '(' = cs.count ')' ∧ ∀ n, (cs.take n).count ')' ≤ (cs.take n).count '('

/-- The number of commas outside parentheses: as many parentheses are closed before such
a comma as are opened. -/
def outerCommas (cs : List Char) : Nat :=
  (List.range cs.length).countP fun i =>
    cs[i]? = some ',' ∧ (cs.take i).count '(' = (cs.take i).count ')'

theorem exists_depthAfter_take (h : depthAfter d w = some e) (n : Nat) :
    ∃ k, depthAfter d (w.take n) = some k ∧ depthAfter k (w.drop n) = some e := by
  rw [← List.take_append_drop n w, depthAfter_append] at h
  exact Option.bind_eq_some_iff.1 h

theorem Whole.parensBalance (h : Whole cs) : ParensBalance cs := by
  refine ⟨by simpa using depthAfter_count h, fun n => ?_⟩
  obtain ⟨k, hk, _⟩ := exists_depthAfter_take h n
  have := depthAfter_count hk
  omega

theorem ParensBalance.append (h : ParensBalance cs) (h' : ParensBalance w) :
    ParensBalance (cs ++ w) := by
  refine ⟨by rw [List.count_append, List.count_append, h.1, h'.1], fun n => ?_⟩
  have hfront := h.2 n
  have hback := h'.2 (n - cs.length)
  rw [List.take_append, List.count_append, List.count_append]
  omega

theorem parensBalance_comma : ParensBalance [','] :=
  ⟨rfl, fun n => by cases n <;> simp⟩

/-- No comma of a whole text is outside its parentheses. -/
theorem Whole.outerCommas_eq (h : Whole cs) : outerCommas cs = 0 := by
  refine List.countP_eq_zero.2 fun i _ hi => ?_
  obtain ⟨hcomma, hcount⟩ := of_decide_eq_true hi
  obtain ⟨k, hk, hrest⟩ := exists_depthAfter_take h i
  have hzero : k = 0 := by
    have := depthAfter_count hk
    omega
  obtain ⟨hi, hcomma⟩ := List.getElem?_eq_some_iff.1 hcomma
  rw [List.drop_eq_getElem_cons hi, hcomma, hzero] at hrest
  cases hrest

/-- Behind balanced parentheses the commas are counted anew. -/
theorem outerCommas_append (h : cs.count '(' = cs.count ')') (w : List Char) :
    outerCommas (cs ++ w) = outerCommas cs + outerCommas w := by
  unfold outerCommas
  rw [List.length_append, List.range_add, List.countP_append, List.countP_map]
  congr 1
  · refine List.countP_congr fun i hi => ?_
    have hlt := List.mem_range.1 hi
    rw [List.getElem?_append_left hlt, List.take_append_of_le_length (Nat.le_of_lt hlt)]
  · refine List.countP_congr fun i _ => ?_
    have hget : (cs ++ w)[cs.length + i]? = w[i]? := by
      rw [List.getElem?_append_right (Nat.le_add_right _ _), Nat.add_sub_cancel_left]
    simp only [Function.comp_apply, hget, List.take_length_add_append, List.count_append, h,
      Nat.add_right_inj]

theorem outerCommas_comma (w : List Char) : outerCommas (',' :: w) = 1 + outerCommas w :=
  outerCommas_append (show [','].count '(' = [','].count ')' from rfl) w

/-! ## Items -/

end Style

/-- The text is read as the item: a name alone, or a name and what stands between the
first parenthesis and the last one, cut at every comma. -/
inductive StyleItem.Reads (cs : List Char) : StyleItem → Prop
  | bare (good : isName (trim cs) = true) : StyleItem.Reads cs ⟨String.ofList (trim cs), []⟩
  | call {name inner : List Char} (cut : trim cs = name ++ '(' :: (inner ++ [')']))
      (good : isName (trim name) = true) :
      StyleItem.Reads cs ⟨String.ofList (trim name),
        (splitAt ',' inner).map fun a => String.ofList (trim a)⟩

namespace StyleItem

variable {cs : List Char} {i : StyleItem}

theorem named_eq_ok_iff {name : List Char} {args : List String} :
    named name args = .ok i ↔
      isName (trim name) = true ∧ i = ⟨String.ofList (trim name), args⟩ := by
  unfold named
  split
  · next h => simp [h, eq_comm]
  · next h => simp [h]

/-- What a name is cut from has no parenthesis. -/
theorem not_open_of_isName {name : List Char} (h : isName (trim name) = true) : '(' ∉ name := by
  intro hmem
  have hmark : '(' ∈ Style.marks name := List.mem_filter.2 ⟨hmem, rfl⟩
  rw [← Style.marks_trim, Style.marks_of_isName h] at hmark
  cases hmark

theorem read_eq_ok_iff : read cs = .ok i ↔ Reads cs i := by
  unfold read
  constructor
  · intro h
    split at h
    · obtain ⟨good, rfl⟩ := named_eq_ok_iff.1 h
      rw [trim_trim] at good ⊢
      exact .bare good
    · next name rest hcut =>
        split at h
        · cases h
        · next inner htail =>
            obtain ⟨good, rfl⟩ := named_eq_ok_iff.1 h
            have hrest := beforeTail?_eq_some_iff.1 htail
            rw [hrest] at hcut
            exact .call (cutFirst_eq_some_iff.1 hcut).1 good
  · intro h
    cases h with
    | bare good =>
        have hcut : cutFirst '(' (trim cs) = none :=
          cutFirst_eq_none_iff.2 (not_open_of_isName (by rwa [trim_trim]))
        rw [hcut]
        exact named_eq_ok_iff.2 (by simp [trim_trim, good])
    | @call name inner cut good =>
        have hcut : cutFirst '(' (trim cs) = some (name, inner ++ [')']) :=
          cutFirst_eq_some_iff.2 ⟨cut, not_open_of_isName good⟩
        have htail : beforeTail? [')'] (inner ++ [')']) = some inner :=
          beforeTail?_eq_some_iff.2 rfl
        rw [hcut]
        simp only [htail]
        exact named_eq_ok_iff.2 ⟨good, rfl⟩

/-! ## Items are read again -/

theorem text_bare (name : List Char) : text ⟨String.ofList name, []⟩ = name := by
  simp [text]

theorem text_call (name inner : List Char) :
    text ⟨String.ofList (trim name), (splitAt ',' inner).map fun a => String.ofList (trim a)⟩ =
      trim name ++ '(' :: (joinWith [','] ((splitAt ',' inner).map trim) ++ [')']) := by
  have hne : splitAt ',' inner ≠ [] := splitWhere_ne_nil _ inner
  simp [text, hne, Function.comp_def]

/-- The text of an item is read as the item. -/
theorem Reads.text (h : Reads cs i) : Reads i.text i := by
  cases h with
  | bare good =>
      rw [text_bare]
      have hbare : Reads (trim cs) _ := .bare (by rwa [trim_trim])
      rwa [trim_trim] at hbare
  | @call name inner cut good =>
      rw [text_call]
      have trimmed : Trimmed (trim name ++ '(' ::
          (joinWith [','] ((splitAt ',' inner).map trim) ++ [')'])) := by
        refine ⟨fun c hc => ?_, fun c hc => ?_⟩
        · obtain ⟨first, others, hname⟩ := List.exists_cons_of_ne_nil (isName_ne_nil good)
          rw [hname] at hc
          exact (trimmed_trim name).first c (by rw [hname]; exact hc)
        · rw [← List.cons_append, ← List.append_assoc, List.getLast?_concat] at hc
          cases hc
          decide
      have free : ∀ piece ∈ (splitAt ',' inner).map trim, ',' ∉ piece := by
        intro piece hp hcomma
        obtain ⟨whole, hwhole, rfl⟩ := List.mem_map.1 hp
        exact not_mem_of_mem_splitAt hwhole (mem_of_mem_trim hcomma)
      have hsplit : splitAt ',' (joinWith [','] ((splitAt ',' inner).map trim)) =
          (splitAt ',' inner).map trim :=
        splitAt_joinWith (mt List.map_eq_nil_iff.1 (splitWhere_ne_nil _ inner)) free
      have hcall := Reads.call trimmed.trim_eq (by rwa [trim_trim])
      rw [hsplit, trim_trim, List.map_map] at hcall
      simpa only [Function.comp_def, trim_trim] using hcall

/-- Reading and writing an item keeps its parentheses and commas. -/
theorem Reads.marks_text (h : Reads cs i) : Style.marks i.text = Style.marks cs := by
  rw [← Style.marks_trim cs]
  cases h with
  | bare good => rw [text_bare]
  | @call name inner cut good =>
      have hcons : ∀ w, Style.marks ('(' :: w) = '(' :: Style.marks w := fun w => rfl
      rw [text_call, cut, Style.marks_append, Style.marks_append, hcons, hcons,
        Style.marks_append, Style.marks_append, Style.marks_trim, Style.marks_joinWith_trim,
        joinWith_splitAt]

theorem Reads.good_name (h : Reads cs i) : isName i.name.toList = true := by
  cases h with
  | bare good => simpa using good
  | call _ good => simpa using good

end StyleItem

namespace Style

variable {cs w : List Char} {l : List StyleItem}

/-! ## Lists of items -/

/-- The text is read as the items: whole texts with commas between them. -/
inductive ReadsItems : List Char → List StyleItem → Prop
  | last {cs : List Char} {i : StyleItem} (whole : Whole cs) (item : i.Reads cs) :
      ReadsItems cs [i]
  | cons {cs more : List Char} {i : StyleItem} {l : List StyleItem} (whole : Whole cs)
      (item : i.Reads cs) (rest : ReadsItems more l) : ReadsItems (cs ++ ',' :: more) (i :: l)

/-- A part of an item is passed. -/
theorem readItems_append {d e : Nat} (h : depthAfter d w = some e) (item cs : List Char) :
    readItems d item (w ++ cs) = readItems e (w.reverse ++ item) cs := by
  fun_induction depthAfter d w generalizing item with
  | case1 =>
      cases h
      rfl
  | case2 d w ih => simpa [readItems] using ih h ('(' :: item)
  | case3 => cases h
  | case4 d w hd _ ih => simpa [readItems, hd] using ih h (')' :: item)
  | case5 => cases h
  | case6 d c w ho hc hcomma ih =>
      simpa [readItems, ho, hc, hcomma] using ih h (c :: item)

theorem readItems_nil {item : List Char} : readItems 0 item [] = .ok l ↔
    ∃ i, StyleItem.read item.reverse = .ok i ∧ l = [i] := by
  rw [readItems, if_pos rfl]
  simp only [bind_eq_ok_iff, pure_eq_ok_iff, eq_comm (b := l)]

theorem readItems_comma {item more : List Char} : readItems 0 item (',' :: more) = .ok l ↔
    ∃ i others, StyleItem.read item.reverse = .ok i ∧ readItems 0 [] more = .ok others ∧
      l = i :: others := by
  rw [readItems, if_neg (by decide), if_neg (by decide), if_pos ⟨rfl, rfl⟩]
  simp only [bind_eq_ok_iff, pure_eq_ok_iff, exists_and_left, eq_comm (b := l)]

theorem ReadsItems.read (h : ReadsItems cs l) : readItems 0 [] cs = .ok l := by
  induction h with
  | @last cs i whole item =>
      have hpass := readItems_append whole [] []
      rw [List.append_nil, List.append_nil] at hpass
      rw [hpass, readItems_nil, List.reverse_reverse]
      exact ⟨i, StyleItem.read_eq_ok_iff.2 item, rfl⟩
  | @cons cs more i others whole item _ ih =>
      rw [readItems_append whole, List.append_nil, readItems_comma, List.reverse_reverse]
      exact ⟨i, others, StyleItem.read_eq_ok_iff.2 item, ih, rfl⟩

/-- The items are read from the front, where `item` is what is passed of the first
one. -/
theorem reads_of_readItems {d : Nat} {item : List Char} (h : readItems d item cs = .ok l)
    (inside : depthAfter 0 item.reverse = some d) : ReadsItems (item.reverse ++ cs) l := by
  -- One more character of the item is passed.
  have pass : ∀ {d e : Nat} {item : List Char} {c : Char}, depthAfter 0 item.reverse = some d →
      depthAfter d [c] = some e → depthAfter 0 (c :: item).reverse = some e := by
    intro d e item c inside hc
    rw [List.reverse_cons, depthAfter_append, inside]
    exact hc
  fun_induction readItems d item cs generalizing l with
  | case1 item =>
      obtain ⟨i, hread, rfl⟩ := readItems_nil.1 h
      rw [List.append_nil]
      exact .last inside (StyleItem.read_eq_ok_iff.1 hread)
  | case2 d item hd => cases h
  | case3 d item cs ih =>
      have hreads := ih h (pass inside rfl)
      rwa [List.reverse_cons, List.append_assoc] at hreads
  | case4 => cases h
  | case5 d item cs hd _ ih =>
      have hreads := ih h (pass inside (by simp [depthAfter, hd]))
      rwa [List.reverse_cons, List.append_assoc] at hreads
  | case6 d item c cs ho hc hcomma ih =>
      obtain ⟨rfl, rfl⟩ := hcomma
      obtain ⟨i, others, hread, hothers, rfl⟩ := readItems_comma.1 h
      exact .cons inside (StyleItem.read_eq_ok_iff.1 hread) (ih hothers rfl)
  | case7 d item c cs ho hc hcomma ih =>
      have hreads := ih h (pass inside (by simp [depthAfter, ho, hc, hcomma]))
      rwa [List.reverse_cons, List.append_assoc] at hreads

theorem readItems_eq_ok_iff : readItems 0 [] cs = .ok l ↔ ReadsItems cs l :=
  ⟨fun h => reads_of_readItems h rfl, ReadsItems.read⟩

/-! ## Round trip -/

theorem ReadsItems.ne_nil (h : ReadsItems cs l) : l ≠ [] := by
  cases h <;> simp

/-- The text of the items is read as the items. -/
theorem ReadsItems.joined (h : ReadsItems cs l) :
    ReadsItems (joinWith [','] (l.map StyleItem.text)) l := by
  induction h with
  | last whole item => exact .last (whole.of_marks item.marks_text) item.text
  | @cons cs more i others whole item rest ih =>
      have hne : others.map StyleItem.text ≠ [] := mt List.map_eq_nil_iff.1 rest.ne_nil
      rw [List.map_cons, joinWith, List.append_assoc]
      · exact .cons (whole.of_marks item.marks_text) item.text ih
      · exact hne

theorem ReadsItems.parensBalance (h : ReadsItems cs l) : ParensBalance cs := by
  induction h with
  | last whole _ => exact whole.parensBalance
  | @cons cs more i others whole _ _ ih =>
      rw [← List.singleton_append, ← List.append_assoc]
      exact (whole.parensBalance.append parensBalance_comma).append ih

theorem ReadsItems.length_eq (h : ReadsItems cs l) : l.length = outerCommas cs + 1 := by
  induction h with
  | last whole _ => rw [whole.outerCommas_eq, List.length_singleton]
  | @cons cs more i others whole _ _ ih =>
      rw [outerCommas_append whole.parensBalance.1, whole.outerCommas_eq, outerCommas_comma,
        List.length_cons, ih]
      omega

theorem ReadsItems.good_name (h : ReadsItems cs l) : ∀ i ∈ l, isName i.name.toList = true := by
  induction h with
  | last _ item =>
      intro i hi
      obtain rfl := List.mem_singleton.1 hi
      exact item.good_name
  | cons _ item _ ih => exact List.forall_mem_cons.2 ⟨item.good_name, ih⟩

theorem read_eq_ok_iff {v : Style} : read cs = .ok v ↔ ReadsItems cs v.items := by
  rw [← readItems_eq_ok_iff]
  unfold read
  cases readItems 0 [] cs with
  | error reason => simp [bind, Except.bind]
  | ok items =>
      obtain ⟨items'⟩ := v
      simp [bind, Except.bind, pure, Except.pure]

end Style

/-- A text that is read as a style has one item more than commas outside parentheses, every
item has a name of ASCII letters, digits and underscores, and the parentheses of the text
balance.  The text of the style is read as the same style. -/
theorem Style.parse_show {t : String} {v : Style} (h : AttrValue.parse Style t = .ok v) :
    AttrValue.parse Style (AttrValue.show v) = .ok v ∧
      v.items.length = outerCommas t.toList + 1 ∧
      (∀ i ∈ v.items, i.name ≠ "" ∧ ∀ c ∈ i.name.toList, c.isAlphanum = true ∨ c = '_') ∧
      ParensBalance t.toList := by
  have items : ReadsItems t.toList v.items := read_eq_ok_iff.1 h
  refine ⟨?_, items.length_eq, fun i hi => ?_, items.parensBalance⟩
  · show read (String.ofList v.text).toList = .ok v
    rw [String.toList_ofList]
    exact read_eq_ok_iff.2 items.joined
  · have good := items.good_name i hi
    refine ⟨fun hempty => isName_ne_nil good (by rw [hempty]; rfl), fun c hc => ?_⟩
    simp only [isName, Bool.and_eq_true, List.all_eq_true, Bool.or_eq_true, beq_iff_eq] at good
    exact good.2 c hc

/-- Blanks wherever they may stand, no argument, empty arguments, and arguments that do
not balance. -/
theorem Style.parse_show_nested :
    let t := "\u00a0x ( ) ,\ty( b ( c , (,) ) , ), z_1 "
    let v : Style := ⟨[⟨"x", [""]⟩, ⟨"y", ["b ( c", "(", ") )", ""]⟩, ⟨"z_1", []⟩]⟩
    AttrValue.parse Style t = .ok v ∧ AttrValue.show v = "x(),y(b ( c,(,) ),),z_1" ∧
      AttrValue.parse Style (AttrValue.show v) = .ok v ∧
      v.items.length = outerCommas t.toList + 1 ∧
      (∀ i ∈ v.items, i.name ≠ "" ∧ ∀ c ∈ i.name.toList, c.isAlphanum = true ∨ c = '_') ∧
      ParensBalance t.toList := by
  intro t v
  have hread : AttrValue.parse Style t = .ok v := by decide +kernel
  exact ⟨hread, by decide +kernel, parse_show hread⟩

end DotLang
