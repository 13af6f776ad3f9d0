import DotLang.Schema.Access
/-!
# Checking and typed access agree

What an attribute may hold is written down twice: in the rows of the schema, which
checking goes by, and in the typed accessors, which are found by their names.
`Schema.accessor?_of_kind?` compares the two tables row by row.  Once both name the same
grammar, a check and an access read the same text by the same reader, so they fail
together, and with the same error (`Schema.getTyped_agrees`).
-/

namespace DotLang

namespace Schema

/-! ## The two tables -/

/-- The name of the accessor that is meant for an attribute on an element. -/
def accessorName (element : Element) (key : String) : String :=
  if element = .edge ∧ key = "pos" then "edge_pos" else key

/-- On every element of its row an attribute has an accessor with the grammar of the
row. -/
theorem rules_accessible : ∀ r ∈ rules, ∀ element ∈ r.elements,
    accessor? (accessorName element r.key) =
      some ⟨accessorName element r.key, r.key, r.kind⟩ := by
  decide +kernel

theorem accessor?_of_kind? {element : Element} {key : String} {k : Kind}
    (h : kind? element key = some k) :
    accessor? (accessorName element key) = some ⟨accessorName element key, key, k⟩ := by
  obtain ⟨r, hr, rfl⟩ := Option.map_eq_some_iff.1 h
  have hrow := List.find?_some hr
  rw [Bool.and_eq_true, beq_iff_eq, List.contains_iff_mem] at hrow
  obtain ⟨rfl, helement⟩ := hrow
  exact rules_accessible r (List.mem_of_find?_eq_some hr) element helement

end Schema

/-! ## Reading one text -/

section Reading
variable {α : Type} {key : String} {value : Id} {element : Element} {k : Kind} {e : AttributeError}

@[simp] theorem ofReading_ok {key text : String} (a : α) :
    ofReading key text (.ok a) = .ok a := rfl

@[simp] theorem ofReading_error {key text : String} (reason : ValueReason) :
    ofReading (α := α) key text (.error reason) = .error ⟨key, text, reason⟩ := rfl

/-- An error of a reading is a reason for the text. -/
theorem ofReading_eq_error {key text : String} {r : Except ValueReason α} :
    ofReading key text r = .error e ↔ ∃ reason, r = .error reason ∧ e = ⟨key, text, reason⟩ := by
  cases r with
  | ok a => simp
  | error reason => simp [eq_comm]

/-- A check of a value that is not empty reads its text. -/
theorem Schema.validate_eq_error (known : Schema.kind? element key = some k)
    (not_html : value.isHtml = false) (not_empty : value.value ≠ "") :
    Schema.validate element key value = .error e ↔
      ∃ reason, k.read value.value.toList = .error reason ∧ e = ⟨key, value.value, reason⟩ := by
  have hempty : value.value.isEmpty = false := by simpa using not_empty
  rw [← ofReading_eq_error]
  simp only [Schema.validate, not_html, hempty, known, Bool.or_self]
  cases ofReading key value.value (k.read value.value.toList) <;> simp [Except.map]

/-- A typed access to a value that is not empty reads its text. -/
theorem Attributes.getTyped_eq {a : Attributes} {s : AttrSpec} (entry : a.get? s.key = some value)
    (not_empty : value.value ≠ "") :
    a.getTyped s =
      (ofReading s.key value.value (s.kind.read value.value.toList)).map some := by
  have htext : a.text? s.key = some value.value := by
    unfold Attributes.text?
    rw [entry]
    rfl
  have hempty : value.value.isEmpty = false := by simpa using not_empty
  simp [Attributes.getTyped, Attributes.readWith, htext, hempty]

theorem Attributes.getTyped_of_empty {a : Attributes} {s : AttrSpec}
    (entry : a.get? s.key = some value) (empty : value.value = "") :
    a.getTyped s = .ok none := by
  have htext : a.text? s.key = some "" := by
    unfold Attributes.text?
    rw [entry, ← empty]
    rfl
  simp [Attributes.getTyped, Attributes.readWith, htext]

end Reading

/-! ## Agreement -/

/-- A check and the accessor that is meant for the attribute on the element agree on every
value that is no HTML string: one fails with an error just if the other does, and otherwise
the accessor gives a value unless the text is empty. -/
theorem Schema.getTyped_agrees {element : Element} {key : String} {value : Id}
    (known : Schema.isKnown element key = true) (not_html : value.isHtml = false) :
    ∃ s, Schema.accessor? (Schema.accessorName element key) = some s ∧
      ∀ a : Attributes, a.get? key = some value →
        (∀ e, Schema.validate element key value = .error e ↔ a.getTyped s = .error e) ∧
        ((∀ e, Schema.validate element key value ≠ .error e) →
          (a.getTyped s = .ok none ↔ value.value = "") ∧
          ((∃ v, a.getTyped s = .ok (some v)) ↔ value.value ≠ "")) := by
  obtain ⟨k, hk⟩ := Option.isSome_iff_exists.1 known
  refine ⟨_, Schema.accessor?_of_kind? hk, fun a entry => ?_⟩
  by_cases hempty : value.value = ""
  · have hcheck : Schema.validate element key value = .ok () := by
      simp [Schema.validate, hempty]
    rw [Attributes.getTyped_of_empty entry hempty]
    simp [hcheck, hempty]
  · rw [Attributes.getTyped_eq entry hempty]
    cases hread : k.read value.value.toList with
    | error reason =>
        have hcheck := (Schema.validate_eq_error hk not_html hempty).2 ⟨reason, hread, rfl⟩
        simp [hcheck, Except.map]
    | ok v =>
        have hcheck : ∀ e, Schema.validate element key value ≠ .error e := by
          intro e he
          obtain ⟨reason, hr, _⟩ := (Schema.validate_eq_error hk not_html hempty).1 he
          simp [hread] at hr
        simp [hcheck, hempty, Except.map]

/-- The position of a node is none of an edge, so on an edge it is a bad value for the check
and for the accessor. -/
theorem Schema.getTyped_agrees_edge_pos :
    Schema.isKnown .edge "pos" = true ∧ (Id.quoted "1,2").isHtml = false ∧
      (Attributes.ofList [("pos", .quoted "1,2")]).get? "pos" = some (.quoted "1,2") ∧
      Schema.validate .edge "pos" (.quoted "1,2") = .error ⟨"pos", "1,2", .controlPoints⟩ ∧
      ∃ s, Schema.accessor? (Schema.accessorName .edge "pos") = some s ∧
        (Attributes.ofList [("pos", .quoted "1,2")]).getTyped s =
          .error ⟨"pos", "1,2", .controlPoints⟩ := by
  have hcheck : Schema.validate .edge "pos" (.quoted "1,2") =
      .error ⟨"pos", "1,2", .controlPoints⟩ := by decide +kernel
  have entry : (Attributes.ofList [("pos", .quoted "1,2")]).get? "pos" = some (.quoted "1,2") :=
    rfl
  have known : Schema.isKnown .edge "pos" = true := by decide +kernel
  have not_html : (Id.quoted "1,2").isHtml = false := rfl
  obtain ⟨s, hs, agrees⟩ := Schema.getTyped_agrees known not_html
  exact ⟨known, not_html, entry, hcheck, s, hs, ((agrees _ entry).1 _).1 hcheck⟩

end DotLang
