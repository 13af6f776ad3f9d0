import DotLang.Proofs.Provenance
/-!
# Dictionaries

A dictionary is a list of entries, so two dictionaries with the same values can still
differ in the order of their names.  What an operation does is said by what it does to
the names and to the values.  Setting a name leaves the names as they are or puts a new
one last.  Dropping a name takes it out.  Merging puts the new names of the other
dictionary last, in their order.

These are rules of a map only where no name occurs twice.  Every dictionary that the
operations make is such a one (`Reached.distinct`), and it is given by its names and its
values (`ext_of_distinct`).  So a law of merging is a law of names and a law of values.
-/

namespace DotLang.Attributes

variable {a b c : Attributes} {name other : String} {value : Id} {l : List (String × Id)}

/-! ## Names and values -/

@[simp] theorem keys_empty : empty.keys = [] := rfl

@[simp] theorem get?_empty (name : String) : empty.get? name = none := rfl

theorem lookup_cons (name key : String) (value : Id) (l : List (String × Id)) :
    ((key, value) :: l).lookup name = if name = key then some value else l.lookup name := by
  rw [List.lookup_cons]
  by_cases h : name = key
  · rw [beq_iff_eq.2 h, if_pos h]
  · rw [beq_eq_false_iff_ne.2 h, if_neg h]

theorem lookup_eq_none {l : List (String × Id)} :
    l.lookup name = none ↔ name ∉ l.map Prod.fst := by
  rw [List.lookup_eq_none_iff]
  constructor
  · intro h hmem
    obtain ⟨e, he, rfl⟩ := List.mem_map.1 hmem
    simpa using h e he
  · intro h e he
    exact bne_iff_ne.2 fun hname => h (List.mem_map.2 ⟨e, he, hname.symm⟩)

/-- Entries without a name twice are given by their names and what is found under
them. -/
theorem entries_ext {l l' : List (String × Id)} (distinct : (l.map Prod.fst).Nodup)
    (names : l.map Prod.fst = l'.map Prod.fst)
    (values : ∀ name, l.lookup name = l'.lookup name) : l = l' := by
  induction l generalizing l' with
  | nil => exact (List.map_eq_nil_iff.1 names.symm).symm
  | cons e l ih =>
      obtain ⟨k, v⟩ := e
      obtain ⟨⟨k', v'⟩, rest, rfl, hk, hrest⟩ := List.map_eq_cons_iff.1 names.symm
      dsimp only at hk
      subst hk
      obtain ⟨hnew, hdistinct⟩ := List.nodup_cons.1 distinct
      have hv : v = v' := by simpa using values k'
      subst hv
      refine congrArg _ (ih hdistinct hrest.symm fun name => ?_)
      by_cases hname : name = k'
      · -- The name stands in front, so neither rest has it.
        subst hname
        rw [lookup_eq_none.2 hnew, lookup_eq_none.2 (hrest ▸ hnew)]
      · simpa [lookup_cons, hname] using values name

/-- A dictionary without a name twice is given by its names and its values. -/
theorem ext_of_distinct (distinct : a.keys.Nodup) (names : a.keys = b.keys)
    (values : ∀ name, a.get? name = b.get? name) : a = b := by
  obtain ⟨l⟩ := a
  obtain ⟨l'⟩ := b
  exact congrArg mk (entries_ext distinct names values)

/-! ## Setting a name -/

/-- A name that is there keeps its place, and a new one goes last. -/
theorem keys_insert (a : Attributes) (name : String) (value : Id) :
    (a.insert name value).keys = if name ∈ a.keys then a.keys else a.keys ++ [name] := by
  obtain ⟨l⟩ := a
  unfold insert keys
  induction l with
  | nil => rfl
  | cons e l ih =>
      obtain ⟨k, v⟩ := e
      dsimp only at ih ⊢
      by_cases hk : k = name
      · simp [insertEntry, hk]
      · rw [insertEntry, if_neg hk, List.map_cons, ih]
        by_cases hmem : name ∈ l.map Prod.fst <;> simp [hmem, Ne.symm hk]

/-- Only the value of the name changes. -/
theorem get?_insert (a : Attributes) (name : String) (value : Id) (other : String) :
    (a.insert name value).get? other = if other = name then some value else a.get? other := by
  obtain ⟨l⟩ := a
  unfold insert get?
  induction l with
  | nil => exact lookup_cons other name value []
  | cons e l ih =>
      obtain ⟨k, v⟩ := e
      dsimp only at ih ⊢
      by_cases hk : k = name
      · subst hk
        by_cases hother : other = k <;> simp [insertEntry, lookup_cons, hother]
      · rw [insertEntry, if_neg hk, lookup_cons, lookup_cons, ih]
        by_cases hother : other = k <;> simp [hother, hk]

theorem nodup_insert (distinct : a.keys.Nodup) : (a.insert name value).keys.Nodup :=
  nodup_insertEntry distinct

/-! ## Dropping a name -/

/-- The other entries stay, in their order. -/
theorem entries_erase (distinct : a.keys.Nodup) :
    (a.erase name).entries = a.entries.filter (·.1 ≠ name) := by
  obtain ⟨l⟩ := a
  unfold erase
  dsimp only [keys] at distinct ⊢
  induction l with
  | nil => rfl
  | cons e l ih =>
      obtain ⟨hnew, hdistinct⟩ := List.nodup_cons.1 distinct
      by_cases he : e.1 = name
      · -- There is no second entry of the name, so the rest stays whole.
        have hrest : l.filter (·.1 ≠ name) = l := by
          refine List.filter_eq_self.2 fun e' he' => ?_
          simp only [ne_eq, decide_not, Bool.not_eq_eq_eq_not, Bool.not_true,
            decide_eq_false_iff_not]
          intro hname
          exact hnew (List.mem_map.2 ⟨e', he', hname.trans he.symm⟩)
        rw [List.eraseP_cons_of_pos (by simpa using he),
          List.filter_cons_of_neg (by simpa using he), hrest]
      · rw [List.eraseP_cons_of_neg (by simpa using he),
          List.filter_cons_of_pos (by simpa using he), ih hdistinct]

/-- The other names keep their order. -/
theorem keys_erase (distinct : a.keys.Nodup) :
    (a.erase name).keys = a.keys.filter (· ≠ name) := by
  rw [keys, entries_erase distinct, keys, List.filter_map]
  rfl

/-- The other values stay. -/
theorem get?_erase (distinct : a.keys.Nodup) :
    (a.erase name).get? other = if other = name then none else a.get? other := by
  rw [get?, entries_erase distinct, get?]
  clear distinct
  induction a.entries with
  | nil => simp
  | cons e l ih =>
      obtain ⟨k, v⟩ := e
      by_cases hk : k = name
      · rw [List.filter_cons_of_neg (by simpa using hk), ih, lookup_cons, hk]
        by_cases hother : other = name <;> simp [hother]
      · rw [List.filter_cons_of_pos (by simpa using hk), lookup_cons, lookup_cons, ih]
        by_cases hother : other = k <;> simp [hother, hk]

/-! ## Merging -/

theorem keys_insertList (a : Attributes) (distinct : (l.map Prod.fst).Nodup) :
    (a.insertList l).keys = a.keys ++ (l.map Prod.fst).filter (· ∉ a.keys) := by
  induction l generalizing a with
  | nil => simp [insertList]
  | cons e l ih =>
      obtain ⟨hnew, hdistinct⟩ := List.nodup_cons.1 distinct
      have hstep : a.insertList (e :: l) = (a.insert e.1 e.2).insertList l := rfl
      rw [hstep, ih _ hdistinct, keys_insert, List.map_cons]
      by_cases hmem : e.1 ∈ a.keys
      · simp [hmem]
      · -- The names behind are other names, so the new one does not matter for them.
        have hrest : (l.map Prod.fst).filter (· ∉ a.keys ++ [e.1]) =
            (l.map Prod.fst).filter (· ∉ a.keys) := by
          refine List.filter_congr fun k hk => ?_
          have hne : k ≠ e.1 := fun he => hnew (he ▸ hk)
          simp [hne]
        rw [if_neg hmem, hrest, List.filter_cons_of_pos (by simpa using hmem), List.append_assoc]
        rfl

theorem get?_insertList (a : Attributes) (distinct : (l.map Prod.fst).Nodup) (name : String) :
    (a.insertList l).get? name = (l.lookup name).or (a.get? name) := by
  induction l generalizing a with
  | nil => simp [insertList]
  | cons e l ih =>
      obtain ⟨k, v⟩ := e
      obtain ⟨hnew, hdistinct⟩ := List.nodup_cons.1 distinct
      have hstep : a.insertList ((k, v) :: l) = (a.insert k v).insertList l := rfl
      rw [hstep, ih _ hdistinct, get?_insert, lookup_cons]
      by_cases hname : name = k
      · simp [hname, lookup_eq_none.2 hnew]
      · simp [hname]

/-- The new names of the other dictionary go last, in their order. -/
theorem keys_merge (a : Attributes) (distinct : b.keys.Nodup) :
    (a.merge b).keys = a.keys ++ b.keys.filter (· ∉ a.keys) :=
  keys_insertList a distinct

/-- The values of the other dictionary win. -/
theorem get?_merge (a : Attributes) (distinct : b.keys.Nodup) (name : String) :
    (a.merge b).get? name = (b.get? name).or (a.get? name) :=
  get?_insertList a distinct name

theorem nodup_empty : empty.keys.Nodup := List.nodup_nil

theorem nodup_insertList (distinct : a.keys.Nodup) (l : List (String × Id)) :
    (a.insertList l).keys.Nodup := by
  induction l generalizing a with
  | nil => exact distinct
  | cons e l ih => exact ih (nodup_insert distinct)

theorem merge_empty (a : Attributes) : a.merge empty = a := rfl

theorem empty_merge (distinct : a.keys.Nodup) : empty.merge a = a := by
  refine ext_of_distinct (nodup_insertList nodup_empty _) ?_ fun name => ?_
  · rw [keys_merge empty distinct]
    simp
  · rw [get?_merge empty distinct]
    simp

theorem merge_assoc (ha : a.keys.Nodup) (hb : b.keys.Nodup) (hc : c.keys.Nodup) :
    (a.merge b).merge c = a.merge (b.merge c) := by
  have hbc : (b.merge c).keys.Nodup := nodup_insertList hb _
  refine ext_of_distinct (nodup_insertList (nodup_insertList ha _) _) ?_ fun name => ?_
  · rw [keys_merge _ hc, keys_merge _ hb, keys_merge _ hbc, keys_merge _ hc, List.filter_append,
      List.append_assoc, List.filter_filter]
    refine congrArg _ (congrArg _ (List.filter_congr fun k _ => ?_))
    by_cases hka : k ∈ a.keys <;> by_cases hkb : k ∈ b.keys <;> simp [hka, hkb]
  · rw [get?_merge _ hc, get?_merge _ hb, get?_merge _ hbc, get?_merge _ hc, Option.or_assoc]

theorem merge_merge (ha : a.keys.Nodup) (hb : b.keys.Nodup) :
    (a.merge b).merge b = a.merge b := by
  refine ext_of_distinct (nodup_insertList (nodup_insertList ha _) _) ?_ fun name => ?_
  · rw [keys_merge _ hb]
    refine List.append_right_eq_self.2 (List.filter_eq_nil_iff.2 fun k hk => ?_)
    by_cases hka : k ∈ a.keys <;> simp [keys_merge _ hb, hka, hk]
  · rw [get?_merge _ hb, get?_merge _ hb, ← Option.or_assoc, Option.or_self]

/-! ## Every dictionary -/

/-- The dictionary is made by the operations. -/
inductive Reached : Attributes → Prop
  | empty : Reached empty
  | ofList (l : List (String × Id)) : Reached (ofList l)
  | insert {a : Attributes} (name : String) (value : Id) (h : Reached a) :
      Reached (a.insert name value)
  | setText {a : Attributes} (name text : String) (h : Reached a) : Reached (a.setText name text)
  | erase {a : Attributes} (name : String) (h : Reached a) : Reached (a.erase name)
  | merge {a b : Attributes} (h : Reached a) (h' : Reached b) : Reached (a.merge b)

theorem Reached.distinct (h : a.Reached) : a.keys.Nodup := by
  induction h with
  | empty => exact nodup_empty
  | ofList l => exact nodup_insertList nodup_empty l
  | insert name value _ ih => exact nodup_insert ih
  | setText name text _ ih => exact nodup_insert ih
  | erase name _ ih =>
      rw [keys_erase ih]
      exact ih.filter _
  | merge _ _ ih _ => exact nodup_insertList ih _

/-- No name occurs twice in a dictionary that the operations make.  Setting a name changes
no other value and keeps the order of the names, a new one going last.  Dropping a name
drops no other one and keeps the order of the rest.  Merging has the empty dictionary as
its neutral element on both sides, changes nothing when it is done again, lets the values
of the other dictionary win, and is associative, all with the order of the names. -/
theorem Reached.map_laws (h : a.Reached) :
    a.keys.Nodup ∧
    (∀ name value,
      (a.insert name value).keys = (if name ∈ a.keys then a.keys else a.keys ++ [name]) ∧
      ∀ other, (a.insert name value).get? other =
        if other = name then some value else a.get? other) ∧
    (∀ name,
      (a.erase name).keys = a.keys.filter (· ≠ name) ∧
      ∀ other, (a.erase name).get? other = if other = name then none else a.get? other) ∧
    a.merge Attributes.empty = a ∧
    Attributes.empty.merge a = a ∧
    ∀ b, b.Reached →
      (a.merge b).merge b = a.merge b ∧
      (∀ name, (a.merge b).get? name = (b.get? name).or (a.get? name)) ∧
      ∀ c, c.Reached → (a.merge b).merge c = a.merge (b.merge c) := by
  have ha := h.distinct
  refine ⟨ha, fun name value => ⟨keys_insert a name value, get?_insert a name value⟩,
    fun name => ⟨keys_erase ha, fun other => get?_erase ha⟩, merge_empty a, empty_merge ha,
    fun b hb => ⟨merge_merge ha hb.distinct, get?_merge a hb.distinct, fun c hc => ?_⟩⟩
  exact merge_assoc ha hb.distinct hc.distinct

/-- Three dictionaries that have names in common, each in another order. -/
theorem map_laws_overlapping :
    let a := ((ofList [("x", .plain "1"), ("y", .plain "2"), ("x", .plain "3")]).erase "y").setText
      "z" "4"
    let b := ofList [("w", .html "5"), ("z", ⟨"6", .numeral⟩)]
    let c := ofList [("v", .plain "7"), ("w", .plain "8"), ("x", .plain "9")]
    a.Reached ∧ b.Reached ∧ c.Reached ∧
      a.entries = [("x", .plain "3"), ("z", ⟨"4", .numeral⟩)] ∧ a.keys.Nodup ∧
      (a.insert "x" (.plain "0")).keys = ["x", "z"] ∧ (a.erase "x").keys = ["z"] ∧
      (a.merge b).keys = ["x", "z", "w"] ∧ (a.merge b).get? "z" = some ⟨"6", .numeral⟩ ∧
      (a.merge b).merge b = a.merge b ∧ (a.merge b).merge c = a.merge (b.merge c) := by
  intro a b c
  have ha : a.Reached := .setText _ _ (.erase _ (.ofList _))
  have hb : b.Reached := .ofList _
  have hc : c.Reached := .ofList _
  obtain ⟨distinct, inserted, erased, _, _, merged⟩ := Reached.map_laws ha
  obtain ⟨again, found, assoc⟩ := merged b hb
  refine ⟨ha, hb, hc, by decide, distinct, (inserted "x" (.plain "0")).1.trans (by decide),
    (erased "x").1.trans (by decide), by decide, ?_, again, assoc c hc⟩
  exact (found "z").trans (by decide)

end DotLang.Attributes
