import DotLang.Proofs.Dictionary
import DotLang.Proofs.NumberTexts
import DotLang.Proofs.Rendering
import DotLang.Proofs.TypedAccess
/-!
# Numbers with a least value are set and read back

An attribute with a least value has it in three places: in the row of the schema, in the
accessor that reads it, and in the check of the value when it is set.  All three go through
the reader of the same kind, on the same text, so what counts is whether a number is read
from its own text.  It is just if it is finite and not below the least value
(`Kind.read_text_iff`).

The accessor of `ranksep` reads a kind of its own, because of the word behind its number, and
this kind is not checked.  It is the only one that sets a value which is not read back
(`Attributes.setTyped_settles_iff`).
-/

namespace DotLang

open Text

variable {cs : List Char}

namespace Double

/-- No number has the last letter of the word `equally` in its text. -/
theorem not_mem_text (x : Double) : 'y' ∉ x.text :=
  x.text_cases (P := fun cs => 'y' ∉ cs) (by decide) (by decide) fun _ h => h.not_mem rfl

theorem text_ne_nil (x : Double) : x.text ≠ [] :=
  x.text_cases (P := fun cs => cs ≠ []) (by decide) (by decide) fun _ h => h.not_nil

end Double

/-! ## Kinds with a least value -/

/-- What is read with a least value is read without it, and is not below. -/
theorem readAtLeast_eq_ok_iff {α : Type} [Bounded α] {least a : α} :
    readAtLeast least cs = .ok a ↔ AttrValue.read cs = .ok a ∧ Bounded.below a least = false := by
  unfold readAtLeast
  rw [bind_eq_ok_iff]
  constructor
  · rintro ⟨b, hread, hb⟩
    cases hbelow : Bounded.below b least with
    | true =>
        rw [hbelow] at hb
        cases hb
    | false =>
        rw [hbelow] at hb
        cases hb
        exact ⟨hread, hbelow⟩
  · rintro ⟨hread, hbelow⟩
    refine ⟨a, hread, ?_⟩
    rw [hbelow]
    rfl

/-- A number that is read from its text is read with a least value if it is not below. -/
theorem readAtLeast_text_iff {α : Type} [Bounded α] {least a b : α} {P : Prop}
    (reads : AttrValue.read (AttrValue.text a) = .ok b ↔ P ∧ b = a) :
    readAtLeast least (AttrValue.text a) = .ok b ↔
      (P ∧ Bounded.below a least = false) ∧ b = a := by
  rw [readAtLeast_eq_ok_iff, reads]
  constructor
  · rintro ⟨⟨h, rfl⟩, hbelow⟩
    exact ⟨⟨h, hbelow⟩, rfl⟩
  · rintro ⟨⟨h, hbelow⟩, rfl⟩
    exact ⟨⟨h, rfl⟩, hbelow⟩

namespace Kind

/-- The kinds of numbers that have a least value. -/
def hasLeast : Kind → Bool
  | number _ => true
  | separation _ => true
  | whole _ => true
  | _ => false

/-- Whether a number is finite and not below the least value of its kind. -/
def admits : (k : Kind) → k.Value → Bool
  | number least, x => x.isFinite && !x.lt least
  | separation least, x => x.isFinite && !x.lt least
  | whole least, n => least.toInt ≤ n.toInt
  | _, _ => true

variable {k : Kind}

theorem text_ne_nil (hk : k.hasLeast = true) (value : k.Value) : k.text value ≠ [] := by
  cases k with
  | number least => exact Double.text_ne_nil value
  | separation least => exact Double.text_ne_nil value
  | whole least => exact (numberText_whole _).not_nil
  | _ => cases hk

/-- A number is read from its text just if its kind admits it. -/
theorem read_text_iff (hk : k.hasLeast = true) {value value' : k.Value} :
    k.read (k.text value) = .ok value' ↔ k.admits value = true ∧ value' = value := by
  have hnumber : ∀ {least x y : Double}, readAtLeast least (AttrValue.text x) = .ok y ↔
      (x.isFinite && !x.lt least) = true ∧ y = x := by
    intro least x y
    rw [readAtLeast_text_iff readNumberValue_text_iff]
    simp [Bounded.below]
  cases k with
  | number least => exact hnumber
  | separation least =>
      have htext : dropTails "equally".toList (trim value.text) = value.text := by
        rw [value.trim_text]
        exact dropTails_of_not_mem (by decide) value.not_mem_text
      change readAtLeast least (dropTails "equally".toList (trim value.text)) = .ok value' ↔ _
      rw [htext]
      exact hnumber
  | whole least =>
      have hwhole : AttrValue.read (AttrValue.text value) =
          (.ok value' : Except ValueReason Int32) ↔ True ∧ value' = value := by
        simp [read_text_whole, eq_comm]
      change readAtLeast least (AttrValue.text value) = .ok value' ↔ _
      rw [readAtLeast_text_iff hwhole]
      simp [Bounded.below, admits]
  | _ => cases hk

end Kind

/-! ## The accessors of numbers -/

namespace Schema

/-- The accessor of the height of a node. -/
abbrev height : AttrSpec := ⟨"height", "height", .number (hundredths 2)⟩

/-- The accessor of the distance between ranks. -/
abbrev ranksep : AttrSpec := ⟨"ranksep", "ranksep", .separation (hundredths 2)⟩

/-- Whether an attribute has a least value on some element. -/
def hasLeast (key : String) : Bool := rules.any fun r => r.key == key && r.kind.hasLeast

/-- An accessor of an attribute with a least value reads a kind with a least value, and on
every element the attribute has this kind or none.  All but one of these kinds are checked. -/
theorem accessors_hasLeast : ∀ s ∈ accessors, hasLeast s.key = true →
    s.kind.hasLeast = true ∧ s.kind.isChecked = !(s.accessor == "ranksep") ∧
      ∀ element ∈ anywhere, kind? element s.key ∈ [none, some s.kind] := by
  decide +kernel

example : (accessors.filter fun s => hasLeast s.key).map AttrSpec.accessor =
    ["height", "width", "arrowsize", "fontsize", "labelfontsize", "penwidth", "distortion",
      "skew", "weight", "nodesep", "sides", "peripheries", "ranksep"] := by
  decide +kernel

end Schema

/-! ## Setting a number -/

theorem Id.ofText_not_html (text : String) : (Id.ofText text).isHtml = false := by
  unfold Id.ofText
  split
  · rfl
  · split <;> rfl

namespace Attributes

variable {s : AttrSpec} {a : Attributes}

/-- The accessor reads a value from an entry that is not empty if its kind does. -/
theorem getTyped_eq_some_iff {entry : Id} {value : s.kind.Value} (h : a.get? s.key = some entry)
    (not_empty : entry.value ≠ "") :
    a.getTyped s = .ok (some value) ↔ s.kind.read entry.value.toList = .ok value := by
  rw [getTyped_eq h not_empty]
  cases s.kind.read entry.value.toList <;> simp [Except.map]

/-- The second dictionary is the first one with a value set: the accessor reads the value, it
passes the check on every element, and nothing else is changed. -/
structure Stores (a b : Attributes) (s : AttrSpec) (value : s.kind.Value) : Prop where
  read : b.getTyped s = .ok (some value)
  valid : ∃ entry, b.get? s.key = some entry ∧
    ∀ element, Schema.validate element s.key entry = .ok ()
  others : ∀ name, name ≠ s.key → b.get? name = a.get? name
  keys : b.keys = if s.key ∈ a.keys then a.keys else a.keys ++ [s.key]

/-- A value is refused, which gives no other dictionary, or it is set. -/
def Settles (a : Attributes) (s : AttrSpec) (value : s.kind.Value) : Prop :=
  ∀ b, a.setTyped s value = .ok b → a.Stores b s value

/-- The dictionary with the text of a value, whatever the value is. -/
def written (a : Attributes) (s : AttrSpec) (value : s.kind.Value) : Attributes :=
  a.setText s.key (String.ofList (s.kind.text value))

theorem get?_written (a : Attributes) (s : AttrSpec) (value : s.kind.Value) (name : String) :
    (a.written s value).get? name =
      if name = s.key then some (Id.ofText (String.ofList (s.kind.text value)))
      else a.get? name :=
  get?_insert ..

/-- A value is refused if its kind is checked and does not admit it. -/
theorem setTyped_eq (hkind : s.kind.hasLeast = true) (a : Attributes) (value : s.kind.Value) :
    a.setTyped s value =
      if s.kind.isChecked && !s.kind.admits value then
        .error ⟨String.ofList (s.kind.text value), s.key⟩
      else .ok (a.written s value) := by
  have hread : (s.kind.read (s.kind.text value)).toOption.isNone = !s.kind.admits value := by
    cases h : s.kind.read (s.kind.text value) with
    | ok value' => simp [((Kind.read_text_iff hkind).1 h).1, Except.toOption]
    | error reason =>
        cases hadmits : s.kind.admits value with
        | false => rfl
        | true =>
            rw [(Kind.read_text_iff hkind).2 ⟨hadmits, rfl⟩] at h
            cases h
  simp only [setTyped, String.toList_ofList, hread]
  rfl

/-- A value that is written is set just if its kind admits it. -/
theorem stores_written_iff (hkind : s.kind.hasLeast = true)
    (known : ∀ element, Schema.kind? element s.key = none ∨
      Schema.kind? element s.key = some s.kind) (value : s.kind.Value) :
    a.Stores (a.written s value) s value ↔ s.kind.admits value = true := by
  have entry := get?_written a s value s.key
  rw [if_pos rfl] at entry
  have not_empty : (Id.ofText (String.ofList (s.kind.text value))).value ≠ "" := by
    simpa using s.kind.text_ne_nil hkind value
  have hgetter : (a.written s value).getTyped s = .ok (some value) ↔
      s.kind.admits value = true := by
    rw [getTyped_eq_some_iff entry not_empty, Id.ofText_value, String.toList_ofList,
      Kind.read_text_iff hkind]
    simp
  constructor
  · intro h
    exact hgetter.1 h.read
  · intro h
    have hread := (Kind.read_text_iff hkind).2 ⟨h, rfl⟩
    refine ⟨hgetter.2 h, ⟨_, entry, fun element => ?_⟩, fun name hname => ?_, keys_insert ..⟩
    · rcases known element with hk | hk <;>
        simp [Schema.validate, Id.ofText_not_html, hk, hread, Except.map]
    · rw [get?_written, if_neg hname]

/-- The accessors of the numbers with a least value refuse a value or set it, but for that of
`ranksep`, which refuses nothing and sets the values that its kind admits. -/
theorem setTyped_settles_iff (hs : s ∈ Schema.accessors) (hleast : Schema.hasLeast s.key = true)
    (a : Attributes) (value : s.kind.Value) :
    (a.Settles s value ↔ (s.accessor = "ranksep" → s.kind.admits value = true)) ∧
      (a.setTyped s value = .error ⟨String.ofList (s.kind.text value), s.key⟩ ↔
        s.accessor ≠ "ranksep" ∧ s.kind.admits value = false) := by
  obtain ⟨hkind, hchecked, hknown⟩ := Schema.accessors_hasLeast s hs hleast
  have known : ∀ element, Schema.kind? element s.key = none ∨
      Schema.kind? element s.key = some s.kind := by
    intro element
    have hany : element ∈ Schema.anywhere := by cases element <;> decide
    simpa using hknown element hany
  have hchecked : (s.kind.isChecked && !s.kind.admits value) = true ↔
      s.accessor ≠ "ranksep" ∧ s.kind.admits value = false := by simp [hchecked]
  rw [Settles, setTyped_eq hkind]
  by_cases hrefused : s.accessor ≠ "ranksep" ∧ s.kind.admits value = false
  · rw [if_pos (hchecked.2 hrefused)]
    refine ⟨iff_of_true (fun b hb => ?_) (absurd · hrefused.1), iff_of_true rfl hrefused⟩
    cases hb
  · rw [if_neg (mt hchecked.1 hrefused)]
    refine ⟨?_, iff_of_false (by simp) hrefused⟩
    have hcovered : s.accessor ≠ "ranksep" → s.kind.admits value = true := by
      simpa using hrefused
    calc (∀ b, Except.ok (a.written s value) = .ok b → a.Stores b s value)
        ↔ a.Stores (a.written s value) s value := by simp
      _ ↔ s.kind.admits value = true := stores_written_iff hkind known value
      _ ↔ (s.accessor = "ranksep" → s.kind.admits value = true) :=
        ⟨fun h _ => h, fun h => (em (s.accessor = "ranksep")).elim h hcovered⟩

/-- The height of a node is no infinite number, and one that is large enough is set. -/
theorem setTyped_settles_height :
    Schema.height ∈ Schema.accessors ∧ Schema.hasLeast Schema.height.key = true ∧
      empty.setTyped Schema.height (.infinite false) = .error ⟨"inf", "height"⟩ ∧
      empty.Settles Schema.height (Schema.hundredths 2) := by
  have hs : Schema.height ∈ Schema.accessors := by decide +kernel
  have hleast : Schema.hasLeast Schema.height.key = true := by decide +kernel
  have hrefused := (setTyped_settles_iff hs hleast empty (.infinite false)).2.2
    ⟨by decide, by decide⟩
  have hset := (setTyped_settles_iff hs hleast empty (Schema.hundredths 2)).1.2
    fun _ => by decide +kernel
  exact ⟨hs, hleast, hrefused, hset⟩

/-- A distance between ranks below its least value is set, and its accessor does not read it. -/
theorem ranksep_unread :
    Schema.ranksep ∈ Schema.accessors ∧ Schema.hasLeast Schema.ranksep.key = true ∧
      empty.setTyped Schema.ranksep (Schema.hundredths 1) =
        .ok (ofList [("ranksep", .ofText "0.01")]) ∧
      (ofList [("ranksep", .ofText "0.01")]).getTyped Schema.ranksep =
        .error ⟨"ranksep", "0.01", .tooSmall "0.02"⟩ ∧
      Schema.validate .graph "ranksep" (.ofText "0.01") =
        .error ⟨"ranksep", "0.01", .tooSmall "0.02"⟩ ∧
      ¬ empty.Settles Schema.ranksep (Schema.hundredths 1) := by
  have hset : empty.setTyped Schema.ranksep (Schema.hundredths 1) =
      .ok (ofList [("ranksep", .ofText "0.01")]) := by decide +kernel
  have hread : ((ofList [("ranksep", .ofText "0.01")]).getTyped Schema.ranksep :
      Except AttributeError (Option Double)) =
        .error ⟨"ranksep", "0.01", .tooSmall "0.02"⟩ := by decide +kernel
  refine ⟨by decide +kernel, by decide +kernel, hset, hread, by decide +kernel, fun settles => ?_⟩
  cases hread.symm.trans (settles _ hset).read

end Attributes

end DotLang
