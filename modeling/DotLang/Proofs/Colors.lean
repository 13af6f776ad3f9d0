import DotLang.Proofs.FixedPlaces
import DotLang.Value.Color
/-!
# Colors are read from their texts

The first character of a text tells the forms of a color apart, so each form has to be
written with a first character of its own: `#` in front of bytes, `/` in front of a scheme, a
digit in front of three components.  A name can begin with a digit too, but no separator
stands in it, so it is not read as components (`Color.read_name`).  Components do begin with a
digit: a hue has no minus sign, since a text with one in front is not read as components
(`Color.valid_of_read`).

Components are written with three places.  A color is therefore read again as the color with
rounded components (`Color.read_text`), which is the same color if the components have no more
places than that (`Color.rounded_eq_iff`).  Rounding is done once: the text of the rounded
color is the text of the color (`Color.text_rounded`).
-/

namespace DotLang

open Text

variable {cs w rest : List Char} {c : Char} {n : Nat} {x : Double}

/-! ## Names and bytes -/

/-- The characters of names. -/
def isNameChar (c : Char) : Bool := c.isAlphanum || c == '_'

theorem isName_iff : isName cs = true ↔ cs ≠ [] ∧ ∀ c ∈ cs, isNameChar c = true := by
  simp [isName, isNameChar]

theorem isBlank_of_isNameChar (h : isNameChar c = true) : isBlank c = false := by
  simp only [isNameChar, Char.isAlphanum, Bool.or_eq_true, beq_iff_eq] at h
  rcases h with (h | h) | rfl
  · have hrange := isAlpha_toNat h
    exact isBlank_of_visible (by omega) (by omega)
  · exact isBlank_of_isNumberChar (by simp [isNumberChar, h])
  · rfl

namespace Color

theorem hexValue?_digitChar (h : n < 16) : hexValue? (Nat.digitChar n) = some n := by
  have hall : ∀ n : Fin 16, hexValue? (Nat.digitChar n) = some n.val := by decide
  exact hall ⟨n, h⟩

theorem isNameChar_digitChar (h : n < 16) : isNameChar (Nat.digitChar n) = true := by
  have hall : ∀ n : Fin 16, isNameChar (Nat.digitChar n) = true := by decide
  exact hall ⟨n, h⟩

theorem byteText_chars (b : UInt8) : ∀ c ∈ byteText b, isNameChar c = true := by
  have hb : b.toNat < 256 := b.toNat_lt
  simp [byteText, isNameChar_digitChar (n := b.toNat / 16) (by omega),
    isNameChar_digitChar (n := b.toNat % 16) (by omega)]

/-- A byte is read from its two digits. -/
theorem readBytes_byteText (b : UInt8) (cs : List Char) :
    readBytes (byteText b ++ cs) = (readBytes cs).map (b :: ·) := by
  have hb : b.toNat < 256 := b.toNat_lt
  have hhigh : b.toNat / 16 < 16 := by omega
  have hlow : b.toNat % 16 < 16 := by omega
  have hbyte : UInt8.ofNat (16 * (b.toNat / 16) + b.toNat % 16) = b := by
    rw [Nat.div_add_mod, UInt8.ofNat_toNat]
  cases hcs : readBytes cs with
  | none => simp [byteText, readBytes, hexValue?_digitChar hhigh, hexValue?_digitChar hlow, hcs]
  | some bytes =>
      simpa [byteText, readBytes, hexValue?_digitChar hhigh, hexValue?_digitChar hlow, hcs]
        using hbyte

/-- Characters of a class that has no blank and no comma are no separators. -/
theorem isSeparator_eq_false {p : Char → Bool} (hcomma : p ',' = false) (h : p c = true)
    (hblank : isBlank c = false) : isSeparator c = false := by
  have hne : c ≠ ',' := by
    rintro rfl
    exact Bool.false_ne_true (hcomma.symm.trans h)
  simp [isSeparator, hne, hblank]

theorem isSeparator_of_isNumberChar (h : isNumberChar c = true) : isSeparator c = false :=
  isSeparator_eq_false rfl h (isBlank_of_isNumberChar h)

theorem isSeparator_of_isNameChar (h : isNameChar c = true) : isSeparator c = false :=
  isSeparator_eq_false rfl h (isBlank_of_isNameChar h)

/-! ## The colors that texts denote -/

/-- The colors that texts denote: components lie between zero and one, the first of them
without a minus sign, and names are not empty. -/
inductive Valid : Color → Prop
  | rgb (r g b : UInt8) (a : Option UInt8) : Valid (.rgb r g b a)
  | hsv {h s v : Double} (hue : h.inUnitInterval = true) (unsigned : h.isNegative = false)
      (saturation : s.inUnitInterval = true) (value : v.inUnitInterval = true) :
      Valid (.hsv h s v)
  | named {name : String} (hname : isName name.toList = true) : Valid (.named none name)
  | ofScheme {scheme name : String} (hscheme : isName scheme.toList = true)
      (hname : isName name.toList = true) : Valid (.named (some scheme) name)

theorem readComponent_eq_ok_iff :
    readComponent cs = .ok x ↔ readNumberValue cs = .ok x ∧ x.inUnitInterval = true :=
  inUnitInterval_bind_eq_ok_iff

/-- A component that begins with another character than a minus sign has no sign. -/
theorem isNegative_of_readComponent (hblank : isBlank c = false) (hc : c ≠ '-')
    (h : readComponent (c :: w) = .ok x) : x.isNegative = false := by
  obtain ⟨w', hw'⟩ := exists_trim_cons hblank w
  have hread := (readNumberValue_eq_ok_iff.1 (readComponent_eq_ok_iff.1 h).1).1
  rw [hw'] at hread
  exact Double.isNegative_of_read hc hread

theorem valid_of_readRgb {color : Color} (h : readRgb cs = .ok color) : Valid color := by
  unfold readRgb at h
  split at h
  · cases h
    exact .rgb ..
  · cases h
    exact .rgb ..
  · cases h

theorem valid_of_readHsv {color : Color} (hc : isSeparator c = false) (hsign : c ≠ '-')
    (h : readHsv (c :: rest) = .ok color) : Valid color := by
  obtain ⟨w, ws, hwords⟩ := exists_wordsBy_cons hc rest
  unfold readHsv at h
  rw [hwords] at h
  split at h
  · next hthree =>
      obtain ⟨rfl, rfl⟩ := List.cons.inj hthree
      simp only [bind_eq_ok_iff, pure_eq_ok_iff] at h
      obtain ⟨hue, hhue, saturation, hsaturation, value, hvalue, rfl⟩ := h
      have hblank : isBlank c = false := (Bool.or_eq_false_iff.1 hc).2
      exact .hsv (readComponent_eq_ok_iff.1 hhue).2
        (isNegative_of_readComponent hblank hsign hhue)
        (readComponent_eq_ok_iff.1 hsaturation).2 (readComponent_eq_ok_iff.1 hvalue).2
  · cases h

theorem valid_of_readNamed {color : Color} (h : readNamed cs = .ok color) : Valid color := by
  unfold readNamed at h
  split at h
  · split at h
    · next scheme name _ =>
        split at h
        · next hnames =>
            cases h
            simp only [Bool.and_eq_true, Bool.or_eq_true] at hnames
            obtain ⟨hname, hscheme⟩ := hnames
            split
            · exact .named (by simpa using hname)
            · next hempty =>
                exact .ofScheme (by simpa [hempty] using hscheme) (by simpa using hname)
        · cases h
    · cases h
  · split at h
    · next hname =>
        cases h
        exact .named (by simpa using hname)
    · cases h

theorem valid_of_read {color : Color} (h : read cs = .ok color) : Valid color := by
  unfold read at h
  split at h
  · cases h
  · exact valid_of_readRgb h
  · next c rest _ _ =>
      split at h
      · next hstart =>
          split at h
          · next hread =>
              cases h
              simp only [Bool.or_eq_true, beq_iff_eq] at hstart
              rcases hstart with hdigit | rfl
              · have hnumber : isNumberChar c = true := by simp [isNumberChar, hdigit]
                exact valid_of_readHsv (isSeparator_of_isNumberChar hnumber)
                  (ne_of_isDigit hdigit (by decide)) hread
              · exact valid_of_readHsv (by decide) (by decide) hread
          · split at h
            · cases h
            · exact valid_of_readNamed h
      · exact valid_of_readNamed h

/-! ## Colors are read from their texts -/

/-- The color with components that are rounded to places. -/
def rounded : Color → Color
  | .hsv h s v => .hsv (h.toPlaces 3) (s.toPlaces 3) (v.toPlaces 3)
  | color => color

/-- The components have no more than three places. -/
def HasPlaces : Color → Prop
  | .hsv h s v => h.HasPlaces 3 ∧ s.HasPlaces 3 ∧ v.HasPlaces 3
  | _ => True

variable {color : Color}

/-- A text of another first character than `#` is read as components or as a name. -/
theorem read_cons (hc : c ≠ '#') (trimmed : trim (c :: rest) = c :: rest) :
    read (c :: rest) =
      if c.isDigit || c == '.' then
        match readHsv (c :: rest) with
        | .ok color => .ok color
        | .error reason =>
            if (c :: rest).any isSeparator then .error reason else readNamed (c :: rest)
      else readNamed (c :: rest) := by
  rw [read, trimmed]
  split
  · next heq => cases heq
  · next heq => exact absurd (List.cons.inj heq).1 hc
  · next heq =>
      cases heq
      rfl

/-! ### Bytes and names -/

/-- The characters of bytes and of names with their schemes. -/
def isWordChar (c : Char) : Bool := isNameChar c || c == '#' || c == '/'

theorem isBlank_of_isWordChar (h : isWordChar c = true) : isBlank c = false := by
  simp only [isWordChar, Bool.or_eq_true, beq_iff_eq] at h
  rcases h with (h | rfl) | rfl
  · exact isBlank_of_isNameChar h
  · rfl
  · rfl

theorem rgb_chars (r g b : UInt8) (a : Option UInt8) :
    ∀ c ∈ (rgb r g b a).text, isWordChar c = true := by
  have hbyte : ∀ b c, c ∈ byteText b → isWordChar c = true := fun b c hc => by
    simp [isWordChar, byteText_chars b c hc]
  simp only [text, List.cons_append, List.forall_mem_cons, List.forall_mem_append]
  refine ⟨by decide, ⟨⟨hbyte r, hbyte g⟩, hbyte b⟩, ?_⟩
  cases a with
  | none => simp
  | some a => exact hbyte a

theorem named_chars {scheme : Option String} {name : String} (h : Valid (.named scheme name)) :
    ∀ c ∈ (named scheme name).text, isWordChar c = true := by
  have hword : ∀ {name : String}, isName name.toList = true →
      ∀ c ∈ name.toList, isWordChar c = true := fun h c hc => by
    simp [isWordChar, (isName_iff.1 h).2 c hc]
  cases h with
  | named hname => exact hword hname
  | ofScheme hscheme hname =>
      simp only [text, List.cons_append, List.forall_mem_cons, List.forall_mem_append]
      exact ⟨by decide, hword hscheme, by decide, hword hname⟩

/-- Bytes are read from their text. -/
theorem read_rgb (r g b : UInt8) (a : Option UInt8) :
    read (rgb r g b a).text = .ok (rgb r g b a) := by
  have htrim : trim (rgb r g b a).text = (rgb r g b a).text :=
    trim_of_not_blank fun c hc => isBlank_of_isWordChar (rgb_chars r g b a c hc)
  have hbytes : readBytes (byteText r ++ byteText g ++ byteText b ++ (a.map byteText).getD []) =
      some ([r, g, b] ++ a.toList) := by
    simp only [List.append_assoc, readBytes_byteText]
    cases a with
    | none => rfl
    | some a =>
        have ha := readBytes_byteText a []
        rw [List.append_nil] at ha
        simp [ha, readBytes]
  rw [read, htrim]
  simp only [text, List.cons_append, readRgb, hbytes]
  cases a <;> rfl

/-- A name is read as a name, although a digit may stand in front of it. -/
theorem read_name (h : isName cs = true) : read cs = .ok (.named none (String.ofList cs)) := by
  obtain ⟨hne, hchars⟩ := isName_iff.1 h
  obtain ⟨c, rest, rfl⟩ := List.exists_cons_of_ne_nil hne
  have hc := hchars c List.mem_cons_self
  have hfirst : ∀ d, isNameChar d = false → c ≠ d := by
    rintro d hd rfl
    exact Bool.false_ne_true (hd.symm.trans hc)
  have htrim : trim (c :: rest) = c :: rest :=
    trim_of_not_blank fun d hd => isBlank_of_isNameChar (hchars d hd)
  have hfree : ∀ d ∈ c :: rest, isSeparator d = false := fun d hd =>
    isSeparator_of_isNameChar (hchars d hd)
  have hnamed : readNamed (c :: rest) = .ok (.named none (String.ofList (c :: rest))) := by
    unfold readNamed
    split
    · next heq => exact absurd (List.cons.inj heq).1 (hfirst '/' rfl)
    · rw [if_pos h]
  rw [read_cons (hfirst '#' rfl) htrim, hnamed, readHsv, wordsBy_word hne hfree]
  have hany : (c :: rest).any isSeparator = false := by simpa using hfree
  simp [hany]

/-- A name of a scheme is read from its text. -/
theorem read_ofScheme {scheme name : String} (hscheme : isName scheme.toList = true)
    (hname : isName name.toList = true) :
    read (named (some scheme) name).text = .ok (named (some scheme) name) := by
  have htrim : trim (named (some scheme) name).text = (named (some scheme) name).text :=
    trim_of_not_blank fun c hc =>
      isBlank_of_isWordChar (named_chars (.ofScheme hscheme hname) c hc)
  obtain ⟨hne, hchars⟩ := isName_iff.1 hscheme
  have hcut : cutFirst '/' (scheme.toList ++ '/' :: name.toList) =
      some (scheme.toList, name.toList) :=
    cutFirst_eq_some_iff.2 ⟨rfl, fun hmem => absurd (hchars '/' hmem) (by decide)⟩
  have hempty : scheme.toList.isEmpty = false := by simpa using hne
  simp only [text, List.cons_append] at htrim ⊢
  rw [read_cons (by decide) htrim, if_neg (by decide), readNamed, hcut]
  simp [hscheme, hname, hempty]

/-! ### Components -/

theorem text_hsv (h s v : Double) :
    (hsv h s v).text = joinWith [' '] [h.fixedText 3, s.fixedText 3, v.fixedText 3] := by
  simp [text, joinWith]

theorem numberText_component (h : x.inUnitInterval = true) : NumberText (x.fixedText 3) :=
  Double.numberText_fixed (by decide) (Double.isFinite_of_inUnitInterval h)

theorem numberText_components {h s v : Double} (hue : h.inUnitInterval = true)
    (saturation : s.inUnitInterval = true) (value : v.inUnitInterval = true) :
    ∀ w ∈ [h.fixedText 3, s.fixedText 3, v.fixedText 3], NumberText w := by
  simpa using ⟨numberText_component hue, numberText_component saturation,
    numberText_component value⟩

/-- A component is read from its text as the rounded one. -/
theorem readComponent_fixedText (h : x.inUnitInterval = true) :
    readComponent (x.fixedText 3) = .ok (x.toPlaces 3) := by
  have hunit : (x.toPlaces 3).inUnitInterval = true := Double.inUnitInterval_toPlaces h
  rw [readComponent_eq_ok_iff, readNumberValue_eq_ok_iff, (numberText_component h).trim_eq]
  exact ⟨⟨Double.read_fixedText (by decide) (Double.isFinite_of_inUnitInterval h),
    Double.isFinite_of_inUnitInterval hunit⟩, hunit⟩

/-- Components are read from their text as the rounded ones. -/
theorem read_hsv {h s v : Double} (hue : h.inUnitInterval = true)
    (unsigned : h.isNegative = false) (saturation : s.inUnitInterval = true)
    (value : v.inUnitInterval = true) :
    read (hsv h s v).text = .ok (hsv h s v).rounded := by
  have hcomponents := numberText_components hue saturation value
  have hwords : wordsBy isSeparator (hsv h s v).text =
      [h.fixedText 3, s.fixedText 3, v.fixedText 3] := by
    rw [text_hsv]
    exact wordsBy_joinWith (by decide) fun w hw => ⟨(hcomponents w hw).not_nil, fun c hc =>
      isSeparator_of_isNumberChar ((hcomponents w hw).chars c hc)⟩
  have hread : readHsv (hsv h s v).text = .ok (hsv h s v).rounded := by
    simp [readHsv, hwords, readComponent_fixedText, hue, saturation, value, rounded]
  obtain ⟨c, w, hcw, hdigit⟩ :=
    Double.exists_fixedText (by decide : 0 < 3) (Double.isFinite_of_inUnitInterval hue) unsigned
  obtain ⟨rest, hrest⟩ : ∃ rest, (hsv h s v).text = c :: rest := by simp [text, hcw]
  have hfirst : isBlank c = false := isBlank_of_isNumberChar (by simp [isNumberChar, hdigit])
  have hlast : ∀ d, (c :: rest).getLast? = some d → isBlank d = false := by
    have hv := numberText_component value
    have hback : (hsv h s v).text =
        (h.fixedText 3 ++ ' ' :: s.fixedText 3 ++ [' ']) ++ v.fixedText 3 := by simp [text]
    intro d hd
    rw [← hrest, hback, List.getLast?_append_of_ne_nil _ hv.not_nil] at hd
    exact hv.not_blank d (List.mem_of_mem_getLast? hd)
  have htrim : trim (c :: rest) = c :: rest :=
    Trimmed.trim_eq ⟨fun d hd => (Option.some.inj hd) ▸ hfirst, hlast⟩
  rw [hrest] at hread ⊢
  rw [read_cons (ne_of_isDigit hdigit (by decide)) htrim, hread]
  simp [hdigit]

/-- A color is read from its text with rounded components. -/
theorem read_text (h : Valid color) : read color.text = .ok color.rounded := by
  cases h with
  | rgb r g b a => exact read_rgb r g b a
  | hsv hue unsigned saturation value => exact read_hsv hue unsigned saturation value
  | named hname => simpa [text, rounded] using read_name hname
  | ofScheme hscheme hname => exact read_ofScheme hscheme hname

/-- Rounding changes the colors with a component of more places. -/
theorem rounded_eq_iff (h : Valid color) : color.rounded = color ↔ color.HasPlaces := by
  cases h with
  | rgb r g b a => simp [rounded, HasPlaces]
  | hsv hue unsigned saturation value =>
      simp [rounded, HasPlaces, Double.toPlaces_eq_self_iff, hue, saturation, value]
  | named hname => simp [rounded, HasPlaces]
  | ofScheme hscheme hname => simp [rounded, HasPlaces]

/-- The rounded color is written as the color was. -/
theorem text_rounded (h : Valid color) : color.rounded.text = color.text := by
  cases h with
  | rgb r g b a => rfl
  | hsv hue unsigned saturation value =>
      simp [rounded, text, Double.fixedText_toPlaces, hue, saturation, value]
  | named hname => rfl
  | ofScheme hscheme hname => rfl

/-- A color has no separator of a list in its text. -/
theorem not_mem_text (h : Valid color) {sep : Char} (hword : isWordChar sep = false)
    (hnumber : isNumberChar sep = false) (hblank : sep ≠ ' ') : sep ∉ color.text := by
  have hfree : ∀ {cs : List Char}, (∀ c ∈ cs, isWordChar c = true) → sep ∉ cs := fun hcs hsep =>
    Bool.false_ne_true (hword.symm.trans (hcs sep hsep))
  cases h with
  | rgb r g b a => exact hfree (rgb_chars r g b a)
  | hsv hue unsigned saturation value =>
      intro hsep
      rw [text_hsv] at hsep
      rcases mem_joinWith hsep with heq | ⟨w, hw, hc⟩
      · exact hblank heq
      · exact (numberText_components hue saturation value w hw).not_mem hnumber hc
  | named hname => exact hfree (named_chars (.named hname))
  | ofScheme hscheme hname => exact hfree (named_chars (.ofScheme hscheme hname))

end Color

/-! ## Lists of colors -/

namespace WeightedColor

/-- The fraction lies between zero and one. -/
structure Valid (c : WeightedColor) : Prop where
  color : c.color.Valid
  fraction : ∀ x ∈ c.fraction, x.inUnitInterval = true

/-- The color with rounded components, and the same fraction. -/
def rounded (c : WeightedColor) : WeightedColor := { c with color := c.color.rounded }

theorem rounded_eq_iff {c : WeightedColor} (h : c.Valid) :
    c.rounded = c ↔ c.color.HasPlaces := by
  rw [← Color.rounded_eq_iff h.color]
  obtain ⟨color, fraction⟩ := c
  simp [rounded]

end WeightedColor

namespace ColorList

variable {item : WeightedColor}

/-- The list with rounded components. -/
def rounded (l : ColorList) : ColorList := ⟨l.colors.map WeightedColor.rounded⟩

theorem readFraction_eq_ok_iff :
    readFraction cs = .ok x ↔ readNumberValue cs = .ok x ∧ x.inUnitInterval = true :=
  inUnitInterval_bind_eq_ok_iff

theorem valid_of_readItem (h : readItem cs = .ok item) : item.Valid := by
  unfold readItem at h
  split at h
  · simp only [bind_eq_ok_iff, pure_eq_ok_iff, readFraction_eq_ok_iff] at h
    obtain ⟨x, hx, color, hcolor, rfl⟩ := h
    exact ⟨Color.valid_of_read hcolor, by simpa using hx.2⟩
  · simp only [bind_eq_ok_iff, pure_eq_ok_iff] at h
    obtain ⟨color, hcolor, rfl⟩ := h
    exact ⟨Color.valid_of_read hcolor, by simp⟩

/-- An item is read from its text with rounded components. -/
theorem readItem_itemText (h : item.Valid) : readItem (itemText item) = .ok item.rounded := by
  obtain ⟨color, fraction⟩ := item
  have hfree : ';' ∉ color.text := Color.not_mem_text h.color rfl rfl (by decide)
  cases fraction with
  | none =>
      have hcut : cutFirst ';' color.text = none := cutFirst_eq_none_iff.2 hfree
      simp [itemText, readItem, hcut, Color.read_text h.color, WeightedColor.rounded]
  | some x =>
      have hunit : x.inUnitInterval = true := h.fraction x rfl
      have hcut : cutFirst ';' (color.text ++ ';' :: x.text) = some (color.text, x.text) :=
        cutFirst_eq_some_iff.2 ⟨rfl, hfree⟩
      have hread : readFraction x.text = .ok x :=
        readFraction_eq_ok_iff.2
          ⟨readNumberValue_text (Double.isFinite_of_inUnitInterval hunit), hunit⟩
      simp [itemText, readItem, hcut, hread, Color.read_text h.color, WeightedColor.rounded]

/-- An item has no colon in its text. -/
theorem not_mem_itemText (h : item.Valid) : ':' ∉ itemText item := by
  obtain ⟨color, fraction⟩ := item
  have hcolor : ':' ∉ color.text := Color.not_mem_text h.color rfl rfl (by decide)
  cases fraction with
  | none => simpa [itemText] using hcolor
  | some x =>
      have hunit : x.inUnitInterval = true := h.fraction x rfl
      have hx : ':' ∉ x.text :=
        (Double.numberText (Double.isFinite_of_inUnitInterval hunit)).not_mem rfl
      simp [itemText, hcolor, hx]

/-- The lists that texts denote have a color. -/
structure Valid (l : ColorList) : Prop where
  some_color : l.colors ≠ []
  colors : ∀ item ∈ l.colors, item.Valid

variable {l : ColorList}

theorem valid_of_read (h : read cs = .ok l) : l.Valid := by
  simp only [read, bind_eq_ok_iff, pure_eq_ok_iff] at h
  obtain ⟨colors, hread, rfl⟩ := h
  refine ⟨?_, forall_of_mapM hread fun _ _ => valid_of_readItem⟩
  rintro rfl
  have hlength := (mapM_eq_ok_iff.1 hread).length_eq
  exact splitWhere_ne_nil _ _ (List.length_eq_zero_iff.1 hlength)

/-- A list is read from its text with rounded components. -/
theorem read_text (h : l.Valid) : read l.text = .ok l.rounded := by
  have hsplit : splitAt ':' l.text = l.colors.map itemText := by
    refine splitAt_joinWith (by simpa using h.some_color) fun piece hpiece => ?_
    obtain ⟨item, hitem, rfl⟩ := List.mem_map.1 hpiece
    exact not_mem_itemText (h.colors item hitem)
  have hitems : (l.colors.map itemText).mapM readItem =
      .ok (l.colors.map WeightedColor.rounded) :=
    mapM_map_eq_ok fun item hitem => readItem_itemText (h.colors item hitem)
  rw [read, hsplit, hitems]
  rfl

theorem rounded_eq_iff (h : l.Valid) :
    l.rounded = l ↔ ∀ item ∈ l.colors, item.color.HasPlaces := by
  have hlist : l.rounded = l ↔ l.colors.map WeightedColor.rounded = l.colors.map id := by
    rw [List.map_id]
    exact ColorList.mk.injEq .. ▸ Iff.rfl
  rw [hlist, List.map_inj_left]
  exact forall₂_congr fun item hitem => WeightedColor.rounded_eq_iff (h.colors item hitem)

theorem text_rounded (h : l.Valid) : l.rounded.text = l.text := by
  have hitems : (l.colors.map WeightedColor.rounded).map itemText = l.colors.map itemText := by
    rw [List.map_map, List.map_inj_left]
    intro item hitem
    simp [itemText, WeightedColor.rounded, Color.text_rounded (h.colors item hitem).color]
  rw [text, rounded, hitems, text]

/-- A text that is read as a list of colors is written so that it is read with rounded
components.  This is the same list if no component has more than three places.  The rounded
list is written as the list was. -/
theorem parse_show_rounded {t : String} {v : ColorList}
    (h : AttrValue.parse ColorList t = .ok v) :
    AttrValue.parse ColorList (AttrValue.show v) = .ok v.rounded ∧
      (AttrValue.parse ColorList (AttrValue.show v) = .ok v ↔
        ∀ item ∈ v.colors, item.color.HasPlaces) ∧
      AttrValue.show v.rounded = AttrValue.show v := by
  have hvalid : v.Valid := valid_of_read h
  have hagain : AttrValue.parse ColorList (AttrValue.show v) = .ok v.rounded := by
    change read (String.ofList v.text).toList = .ok v.rounded
    rw [String.toList_ofList, read_text hvalid]
  refine ⟨hagain, ?_, congrArg String.ofList (text_rounded hvalid)⟩
  rw [hagain, Except.ok.injEq, rounded_eq_iff hvalid]

/-- Every form of a color: bytes in both cases of letters, components in other spellings, a
number as a name, an empty scheme, and fractions. -/
theorem parse_show_mixed :
    let t := "#FF0080;.5: #ff008040:.5,1\u00a0 -0.0:3;1e-1:_red:/accent3/1:  //blue\n;+1"
    let shown := "#ff0080;0.5:#ff008040:0.500 1.000 -0.000:3;0.1:_red:/accent3/1:blue;1"
    ∃ v, AttrValue.parse ColorList t = .ok v ∧ AttrValue.show v = shown ∧
      AttrValue.parse ColorList (AttrValue.show v) = .ok v.rounded ∧
      (AttrValue.parse ColorList (AttrValue.show v) = .ok v ↔
        ∀ item ∈ v.colors, item.color.HasPlaces) ∧
      AttrValue.show v.rounded = AttrValue.show v := by
  intro t shown
  have hshown : (AttrValue.parse ColorList t).toOption.map AttrValue.show = some shown := by
    decide +kernel
  obtain ⟨v, hv, hshow⟩ := Option.map_eq_some_iff.1 hshown
  have hparse : AttrValue.parse ColorList t = .ok v := toOption_eq_some_iff.1 hv
  exact ⟨v, hparse, hshow, parse_show_rounded hparse⟩

/-- The fourth place of a hue is lost. -/
theorem parse_show_place_lost :
    let v := single (.hsv (.ofDecimal false 1234 (-4)) (.ofInt 0) (.ofInt 0))
    AttrValue.parse ColorList "0.1234 0 0" = .ok v ∧ AttrValue.show v = "0.123 0.000 0.000" ∧
      AttrValue.parse ColorList (AttrValue.show v) ≠ .ok v := by
  decide +kernel

end ColorList

end DotLang
