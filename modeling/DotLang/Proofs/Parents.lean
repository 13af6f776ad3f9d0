import DotLang.Proofs.Arena
/-!
# Parents

The parent of a graph is the graph around it, that of the node that holds it.  In
a well-formed model a parent is numbered before its children, so every chain of
parents ends, and it can end at the root alone.  `Model.Below` is the order that the
parents give: the graphs above a graph form a chain, which is why two children of
one graph have nothing below them in common.
-/

namespace DotLang.Model

/-- The graph is this one, or stands in it at any depth. -/
inductive Below (m : Model) (g : GraphRef) : GraphRef → Prop
  | refl : m.Below g g
  | nested {h outer : GraphRef} (parent : m.parent? h = some outer) (below : m.Below g outer) :
      m.Below g h

variable {m : Model} {g h inner outer : GraphRef} {n : NodeRef}

/-! ## The graph around a graph -/

/-- A graph in another one is held by a node there. -/
theorem WellFormed.holder_of_parent (wf : m.WellFormed) (h : m.parent? g = some outer) :
    ∃ n v, m.node? n = some v ∧ v.nested = some g ∧ v.graph = outer := by
  unfold parent? at h
  obtain ⟨s, hs, h⟩ := Option.bind_eq_some_iff.1 h
  obtain ⟨n, hn, h⟩ := Option.bind_eq_some_iff.1 h
  obtain ⟨v, hv, h⟩ := Option.bind_eq_some_iff.1 h
  have hroot : g ≠ Model.root := by
    rintro rfl
    obtain ⟨r, hr, hnone⟩ := wf.root
    obtain rfl := Option.some.inj (hs.symm.trans hr)
    cases hn.symm.trans hnone
  obtain ⟨k, w, hk, hw, hnested⟩ := wf.held hs hroot
  obtain rfl := Option.some.inj (hn.symm.trans hk)
  obtain rfl := Option.some.inj (hv.symm.trans hw)
  exact ⟨n, v, hv, hnested, Option.some.inj h⟩

/-- A graph that a node holds stands in the graph of the node. -/
theorem WellFormed.parent_of_nested (wf : m.WellFormed) {v : Node} (hv : m.node? n = some v)
    (nested : v.nested = some g) : m.parent? g = some v.graph := by
  obtain ⟨_, s, hs, holder⟩ := wf.nested hv nested
  simp [parent?, hs, holder, hv]

theorem WellFormed.parent_lt (wf : m.WellFormed) (h : m.parent? g = some outer) :
    outer.index < g.index := by
  obtain ⟨n, v, hv, nested, rfl⟩ := wf.holder_of_parent h
  exact (wf.nested hv nested).1

theorem WellFormed.parent_root (wf : m.WellFormed) : m.parent? Model.root = none := by
  obtain ⟨s, hs, holder⟩ := wf.root
  simp [parent?, hs, holder]

theorem WellFormed.exists_parent (wf : m.WellFormed) (hg : g.index < m.graphs.size)
    (hne : g ≠ Model.root) : ∃ outer, m.parent? g = some outer := by
  obtain ⟨s, hs⟩ := graph?_of_lt hg
  obtain ⟨n, v, _, hv, nested⟩ := wf.held hs hne
  exact ⟨v.graph, wf.parent_of_nested hv nested⟩

/-! ## The graphs below a graph -/

/-- Every chain of parents ends at the root. -/
theorem WellFormed.below_root (wf : m.WellFormed) (hg : g.index < m.graphs.size) :
    m.Below Model.root g := by
  obtain ⟨i⟩ := g
  induction i using Nat.strongRecOn with
  | _ i ih =>
      by_cases hne : (⟨i⟩ : GraphRef) = Model.root
      · rw [hne]
        exact .refl
      · obtain ⟨outer, parent⟩ := wf.exists_parent hg hne
        have hlt := wf.parent_lt parent
        exact .nested parent (ih outer.index hlt (Nat.lt_trans hlt hg))

theorem Below.le (wf : m.WellFormed) (below : m.Below g h) : g.index ≤ h.index := by
  induction below with
  | refl => exact Nat.le_refl _
  | nested parent _ ih => exact Nat.le_trans ih (Nat.le_of_lt (wf.parent_lt parent))

/-- What is below a child is below its parent. -/
theorem Below.of_parent (below : m.Below inner h) (parent : m.parent? inner = some g) :
    m.Below g h := by
  induction below with
  | refl => exact .nested parent .refl
  | nested step _ ih => exact .nested step ih

/-- What is below a graph is the graph, or below one of its children. -/
theorem Below.eq_or_child (below : m.Below g h) :
    h = g ∨ ∃ inner, m.parent? inner = some g ∧ m.Below inner h := by
  induction below with
  | refl => exact Or.inl rfl
  | @nested h outer parent _ ih =>
      rcases ih with rfl | ⟨inner, hinner, below⟩
      · exact Or.inr ⟨h, parent, .refl⟩
      · exact Or.inr ⟨inner, hinner, .nested parent below⟩

/-- The graphs above a graph form a chain. -/
theorem Below.linear {a b : GraphRef} (ha : m.Below a h) (hb : m.Below b h) :
    m.Below a b ∨ m.Below b a := by
  induction ha with
  | refl => exact Or.inr hb
  | nested parent below ih =>
      cases hb with
      | refl => exact Or.inl (.nested parent below)
      | nested parent' below' =>
          obtain rfl := Option.some.inj (parent.symm.trans parent')
          exact ih below'

/-- No child of a graph is below another child of it. -/
theorem Below.eq_of_siblings (wf : m.WellFormed) {a b : GraphRef} (below : m.Below a b)
    (ha : m.parent? a = some g) (hb : m.parent? b = some g) : a = b := by
  cases below with
  | refl => rfl
  | nested parent below =>
      obtain rfl := Option.some.inj (hb.symm.trans parent)
      exact absurd (below.le wf) (Nat.not_le_of_lt (wf.parent_lt ha))

/-- A graph is below one child of a graph at most. -/
theorem Below.child_unique (wf : m.WellFormed) {a b : GraphRef} (below : m.Below a h)
    (below' : m.Below b h) (ha : m.parent? a = some g) (hb : m.parent? b = some g) : a = b := by
  rcases below.linear below' with hab | hba
  · exact hab.eq_of_siblings wf ha hb
  · exact (hba.eq_of_siblings wf hb ha).symm

end DotLang.Model
