import DotLang.Scope.Names
/-!
# A table of names is one dictionary

The builder binds a name only where no scope has it, and closes scopes by
hoisting.  So no name is bound twice, and where a name is found does not depend
on which scopes are open.  `Names.flat` is the table without its scopes, and each
operation is read by what it does to that list.
-/

namespace DotLang.Names

variable {α : Type} {t : Names α} {name : String} {a : α}

/-- The bindings of all scopes. -/
def flat (t : Names α) : List (String × α) := t.scopes.flatten

/-- No name is bound twice. -/
def Distinct (t : Names α) : Prop := (t.flat.map Prod.fst).Nodup

theorem find?_eq_lookup (t : Names α) (name : String) : t.find? name = t.flat.lookup name := by
  obtain ⟨scopes⟩ := t
  unfold find? flat
  induction scopes with
  | nil => rfl
  | cons scope scopes ih =>
      rw [List.findSome?_cons, List.flatten_cons, List.lookup_append, ← ih]
      cases scope.lookup name <;> rfl

theorem find?_eq_none : t.find? name = none ↔ ∀ a, (name, a) ∉ t.flat := by
  rw [find?_eq_lookup, List.lookup_eq_none_iff]
  constructor
  · intro h a ha
    simpa using h (name, a) ha
  · intro h p hp
    by_cases he : name = p.1
    · subst he
      exact absurd hp (h p.2)
    · simpa using he

/-- In a list with distinct names a value that is found is the only one. -/
theorem lookup_eq_some_of_nodup {l : List (String × α)} (h : (l.map Prod.fst).Nodup) :
    l.lookup name = some a ↔ (name, a) ∈ l := by
  induction l with
  | nil => simp
  | cons p l ih =>
      obtain ⟨k, v⟩ := p
      rw [List.map_cons, List.nodup_cons] at h
      rw [List.lookup_cons, List.mem_cons]
      by_cases hk : name = k
      · subst hk
        have hnot : (name, a) ∉ l := fun ha => h.1 (List.mem_map.2 ⟨(name, a), ha, rfl⟩)
        simp [hnot, eq_comm]
      · have hk' : (name == k) = false := by simpa using hk
        simp [hk, hk', ih h.2]

/-- A value that is found is bound, and where names are distinct it is the only
one. -/
theorem Distinct.find?_eq_some (h : t.Distinct) : t.find? name = some a ↔ (name, a) ∈ t.flat := by
  rw [find?_eq_lookup]
  exact lookup_eq_some_of_nodup h

/-- A value that is found is bound. -/
theorem mem_flat_of_find? (h : t.find? name = some a) : (name, a) ∈ t.flat := by
  rw [find?_eq_lookup] at h
  obtain ⟨_, _, he, _⟩ := List.lookup_eq_some_iff.1 h
  rw [he]
  exact List.mem_append_right _ List.mem_cons_self

/-! ## What the operations do to the bindings -/

@[simp] theorem flat_empty : (empty : Names α).flat = [] := rfl

@[simp] theorem flat_enter (t : Names α) : t.enter.flat = t.flat := rfl

@[simp] theorem flat_insert (t : Names α) (name : String) (a : α) :
    (t.insert name a).flat = (name, a) :: t.flat := by
  obtain ⟨scopes⟩ := t
  cases scopes <;> rfl

/-- Hoisting moves bindings and loses none. -/
theorem flat_hoist (h : 2 ≤ t.depth) : t.hoist.flat.Perm t.flat := by
  obtain ⟨scopes⟩ := t
  match scopes, h with
  | inner :: outer :: rest, _ =>
      show ((outer ++ inner) :: rest).flatten.Perm (inner :: outer :: rest).flatten
      simp only [List.flatten_cons, ← List.append_assoc]
      exact List.perm_append_comm.append_right _

theorem mem_flat_hoist (h : 2 ≤ t.depth) {p : String × α} : p ∈ t.hoist.flat ↔ p ∈ t.flat :=
  (flat_hoist h).mem_iff

/-- However many scopes there are, hoisting adds no binding. -/
theorem mem_flat_of_hoist {p : String × α} (h : p ∈ t.hoist.flat) : p ∈ t.flat := by
  obtain ⟨scopes⟩ := t
  match scopes with
  | [] => cases h
  | [_] => cases h
  | _ :: _ :: _ => exact (mem_flat_hoist (Nat.le_add_left _ _)).1 h

theorem mem_flat_of_drop {p : String × α} (h : p ∈ t.drop.flat) : p ∈ t.flat := by
  obtain ⟨scopes⟩ := t
  cases scopes with
  | nil => exact h
  | cons _ rest => exact List.mem_append_right _ h

theorem Distinct.hoist (h : t.Distinct) (hd : 2 ≤ t.depth) : t.hoist.Distinct :=
  ((flat_hoist hd).map Prod.fst).nodup_iff.2 h

theorem Distinct.insert (h : t.Distinct) (hn : t.find? name = none) :
    (t.insert name a).Distinct := by
  unfold Distinct
  rw [flat_insert, List.map_cons, List.nodup_cons]
  refine ⟨fun hm => ?_, h⟩
  obtain ⟨⟨k, v⟩, hp, rfl⟩ := List.mem_map.1 hm
  exact find?_eq_none.1 hn v hp

@[simp] theorem depth_enter (t : Names α) : t.enter.depth = t.depth + 1 := rfl

theorem depth_insert (h : 1 ≤ t.depth) (name : String) (a : α) :
    (t.insert name a).depth = t.depth := by
  obtain ⟨scopes⟩ := t
  match scopes, h with
  | _ :: _, _ => rfl

theorem depth_hoist (h : 2 ≤ t.depth) : t.hoist.depth + 1 = t.depth := by
  obtain ⟨scopes⟩ := t
  match scopes, h with
  | _ :: _ :: _, _ => rfl

theorem drop_hoist (h : 2 ≤ t.depth) : t.hoist.drop = t.drop.drop := by
  obtain ⟨scopes⟩ := t
  match scopes, h with
  | _ :: _ :: _, _ => rfl

/-! ## What the operations do to what is found -/

@[simp] theorem find?_enter (t : Names α) (name : String) : t.enter.find? name = t.find? name := rfl

theorem find?_insert (t : Names α) (name : String) (a : α) (other : String) :
    (t.insert name a).find? other = if other = name then some a else t.find? other := by
  rw [find?_eq_lookup, find?_eq_lookup, flat_insert, List.lookup_cons]
  by_cases ho : other = name
  · simp [ho]
  · have hne : (other == name) = false := by simpa using ho
    simp [ho, hne]

/-- Where no name of the innermost scope hides another value, hoisting changes nothing that is
found. -/
theorem find?_hoist (hd : 2 ≤ t.depth)
    (h : ∀ {name a}, t.drop.find? name = some a → t.find? name = some a) (name : String) :
    t.hoist.find? name = t.find? name := by
  obtain ⟨scopes⟩ := t
  match scopes, hd with
  | inner :: outer :: rest, _ =>
      have hidden := @h name
      simp only [find?, hoist, drop, List.findSome?_cons, List.tail_cons,
        List.lookup_append] at hidden ⊢
      cases ho : outer.lookup name with
      | none => cases hi : inner.lookup name <;> rfl
      | some a =>
          rw [ho] at hidden
          exact (hidden rfl).symm

theorem Distinct.find?_hoist (h : t.Distinct) (hd : 2 ≤ t.depth) (name : String) :
    t.hoist.find? name = t.find? name :=
  Names.find?_hoist hd (fun hf => h.find?_eq_some.2 (mem_flat_of_drop (mem_flat_of_find? hf))) name

/-- What no scope has, the innermost one has not. -/
theorem findLocal?_of_find? (h : t.find? name = none) : t.findLocal? name = none := by
  obtain ⟨scopes⟩ := t
  cases scopes with
  | nil => rfl
  | cons scope rest => exact List.findSome?_eq_none_iff.1 h scope List.mem_cons_self

end DotLang.Names
