import DotLang.Proofs.Following
/-!
# Graphs follow their settings

A subgraph that is opened for the first time starts with the settings for graphs in
force there.  From then on its attributes are its own: every setting for graphs that
stands directly in one of its bodies adds to them, and nothing else does.  So a body
that is opened again takes over nothing from the bodies around it, and what one body
of a subgraph sets is not in force in the next one.  The graph of the text itself
starts with nothing.

`Draft.Attributed` says this of the graphs so far.  Every event of a walk keeps it,
and `Tree.graph_attrs` says it of built models.
-/

namespace DotLang

/-! ## Settings -/

/-- A statement sets defaults. -/
structure Setting where
  scope : Scope
  element : Element
  attrs : AttrList
deriving DecidableEq, Repr

/-- The setting that an event is. -/
def Occurrence.setting? : Occurrence → Option Setting
  | ⟨scope, .setting element attrs⟩ => some ⟨scope, element, attrs⟩
  | _ => none

/-- The settings of a walk. -/
def settingsOf (w : List Occurrence) : List Setting := w.filterMap Occurrence.setting?

/-- The setting is for graphs and stands directly in a body of the subgraph. -/
def Setting.IsFor (sub : Option SubgraphKey) (s : Setting) : Prop :=
  s.element = .graph ∧ s.scope.subgraph = sub

instance (sub : Option SubgraphKey) (s : Setting) : Decidable (s.IsFor sub) :=
  inferInstanceAs (Decidable (_ ∧ _))

/-- The entries for graphs that stand directly in the bodies of a subgraph, in order. -/
def ownEntries (w : List Occurrence) (sub : Option SubgraphKey) : AttrList :=
  ((settingsOf w).filter fun s => s.IsFor sub).flatMap Setting.attrs

/-- The entries for graphs in force where a subgraph is opened first.  There are none
for the text itself. -/
def inheritedEntries (w : List Occurrence) : Option SubgraphKey → AttrList
  | none => []
  | some key =>
      (((openingsOf w).find? fun o => o.key = key).map fun o => o.scope.entries .graph).getD []

/-- The entries that a subgraph of a text starts with. -/
def Tree.inherited (t : Tree) : Option SubgraphKey → AttrList := inheritedEntries t.walk

/-- The entries that the bodies of a subgraph of a text set. -/
def Tree.own (t : Tree) : Option SubgraphKey → AttrList := ownEntries t.walk

section Entries
variable {w : List Occurrence} {o : Occurrence} {sub : Option SubgraphKey}

theorem ownEntries_append (w w' : List Occurrence) (sub : Option SubgraphKey) :
    ownEntries (w ++ w') sub = ownEntries w sub ++ ownEntries w' sub := by
  unfold ownEntries settingsOf
  rw [List.filterMap_append, List.filter_append, List.flatMap_append]

/-- An event that sets nothing. -/
theorem ownEntries_concat (h : o.setting? = none) :
    ownEntries (w ++ [o]) sub = ownEntries w sub := by
  have hnone : settingsOf [o] = [] := List.filterMap_cons_none h
  have hown : ownEntries [o] sub = [] := by
    unfold ownEntries
    rw [hnone]
    rfl
  rw [ownEntries_append, hown, List.append_nil]

theorem ownEntries_concat_setting (scope : Scope) (element : Element) (attrs : AttrList) :
    ownEntries (w ++ [⟨scope, .setting element attrs⟩]) sub =
      ownEntries w sub ++ if element = .graph ∧ scope.subgraph = sub then attrs else [] := by
  rw [ownEntries_append]
  congr 1
  show ((settingsOf [_]).filter _).flatMap _ = _
  have hone : settingsOf [⟨scope, .setting element attrs⟩] = [⟨scope, element, attrs⟩] := rfl
  rw [hone, List.filter_singleton]
  by_cases h : element = .graph ∧ scope.subgraph = sub
  · have hfor : (Setting.mk scope element attrs).IsFor sub := h
    rw [if_pos h, decide_eq_true hfor]
    exact List.append_nil attrs
  · have hfor : ¬ (Setting.mk scope element attrs).IsFor sub := h
    rw [if_neg h, decide_eq_false hfor]
    rfl

theorem inheritedEntries_some (w : List Occurrence) (key : SubgraphKey) :
    inheritedEntries w (some key) =
      (((openingsOf w).find? fun o => o.key = key).map fun o => o.scope.entries .graph).getD [] :=
  rfl

/-- An event that opens nothing. -/
theorem inheritedEntries_concat (h : o.opening? = none) :
    inheritedEntries (w ++ [o]) sub = inheritedEntries w sub := by
  cases sub with
  | none => rfl
  | some key => rw [inheritedEntries_some, inheritedEntries_some, openingsOf_concat_none w h]

/-- The first opening of a subgraph counts. -/
theorem inheritedEntries_concat_opening (scope : Scope) (key : SubgraphKey) :
    inheritedEntries (w ++ [⟨scope, .opening key⟩]) sub =
      if sub = some key ∧ key ∉ subgraphsOf w then scope.entries .graph
      else inheritedEntries w sub := by
  cases sub with
  | none => exact (if_neg fun h => nomatch h.1).symm
  | some other =>
      rw [inheritedEntries_some, inheritedEntries_some, openingsOf_concat, List.find?_append]
      cases hf : (openingsOf w).find? fun o => o.key = other with
      | some first =>
          have hkey : first.key = other := by simpa using List.find?_some hf
          have hold : other ∈ subgraphsOf w :=
            mem_subgraphsOf.2 ⟨first, List.mem_of_find?_eq_some hf, hkey⟩
          rw [if_neg]
          · rfl
          · rintro ⟨he, hnew⟩
            exact hnew (Option.some.inj he ▸ hold)
      | none =>
          have hnew : other ∉ subgraphsOf w := by
            rintro hold
            obtain ⟨o, ho, rfl⟩ := mem_subgraphsOf.1 hold
            simpa using List.find?_eq_none.1 hf o ho
          by_cases he : other = key
          · subst he
            rw [if_pos ⟨rfl, hnew⟩]
            simp
          · rw [if_neg fun h => he (Option.some.inj h.1)]
            simp [Ne.symm he]

end Entries

/-! ## Attributes of graphs -/

namespace Model

variable (m : Model) (g h : GraphRef)

/-- The attributes of a graph. -/
def graphAttrs? : Option Attributes := (m.graph? g).map Subgraph.attrs

theorem graphAttrs?_modifyGraphAttrs (f : Attributes → Attributes) :
    (m.modifyGraphAttrs g f).graphAttrs? h =
      if g = h then (m.graphAttrs? h).map f else m.graphAttrs? h := by
  unfold graphAttrs? modifyGraphAttrs
  rw [graph?_modifyGraph]
  split
  · rw [Option.map_map, Option.map_map]
    rfl
  · rfl

theorem graphAttrs?_pushNode (name : String) (attrs : Attributes) (nested : Option GraphRef) :
    (m.pushNode g name attrs nested).graphAttrs? h = m.graphAttrs? h := by
  unfold graphAttrs?
  rw [graph?_pushNode]
  split
  · rw [Option.map_map]
    rfl
  · rfl

theorem graphAttrs?_addEdge (source target : NodeRef) (attrs : Attributes) :
    (m.addEdge g source target attrs).2.graphAttrs? h = m.graphAttrs? h := by
  unfold graphAttrs?
  rw [graph?_addEdge]
  split
  · rw [Option.map_map]
    rfl
  · rfl

theorem graphAttrs?_addSubgraph (nodeName : String) (name : Option String) (attrs : Attributes) :
    (m.addSubgraph g nodeName name attrs).2.2.graphAttrs? h =
      if h.index = m.graphs.size then some attrs else m.graphAttrs? h := by
  unfold graphAttrs?
  rw [graph?_addSubgraph]
  split
  · rfl
  · exact graphAttrs?_pushNode m g h nodeName .empty _

end Model

namespace Draft

variable {d : Draft} {w : List Occurrence} {o : Occurrence} {sub other : Option SubgraphKey}

/-- Every graph is that of the text itself or of a known subgraph. -/
theorem Aligned.exists_ref (h : d.Aligned) (distinct : d.subgraphs.Nodup) {g : GraphRef}
    (hg : g.index < d.model.graphs.size) : ∃ sub, d.Knows sub ∧ g = d.ref sub := by
  rw [h.size] at hg
  obtain ⟨_ | i⟩ := g
  · exact ⟨none, d.knows_none, rfl⟩
  · have hi : i < d.subgraphs.length := Nat.lt_of_succ_lt_succ hg
    refine ⟨some d.subgraphs[i], knows_some.2 (List.getElem_mem hi), ?_⟩
    show GraphRef.mk (i + 1) = ⟨d.subgraphs.idxOf d.subgraphs[i] + 1⟩
    rw [distinct.idxOf_getElem]

/-- The graphs have the attributes that their first openings and their bodies give
them. -/
def Attributed (d : Draft) (w : List Occurrence) : Prop :=
  ∀ sub, d.Knows sub →
    d.model.graphAttrs? (d.ref sub) = some (.ofList (inheritedEntries w sub ++ ownEntries w sub))

/-! ## Steps -/

/-- An event that sets nothing and opens nothing, and leaves the graphs their
attributes. -/
theorem Attributed.of_same (h : d.Attributed w) (subgraphs : (d.add o).subgraphs = d.subgraphs)
    (attrs : ∀ g, (d.add o).model.graphAttrs? g = d.model.graphAttrs? g)
    (setting : o.setting? = none) (opening : o.opening? = none) :
    (d.add o).Attributed (w ++ [o]) := by
  intro sub hsub
  unfold Knows at hsub
  unfold ref
  rw [subgraphs] at hsub ⊢
  rw [attrs, inheritedEntries_concat opening, ownEntries_concat setting]
  exact h sub hsub

theorem graphAttrs?_mention (d : Draft) (o : Mention) (g : GraphRef) :
    (d.mention o).model.graphAttrs? g = d.model.graphAttrs? g := by
  unfold mention
  split
  · rfl
  · exact Model.graphAttrs?_pushNode _ _ _ _ _ _

theorem graphAttrs?_links (d : Draft) (ls : List Link) (g : GraphRef) :
    (ls.foldl link d).model.graphAttrs? g = d.model.graphAttrs? g := by
  induction ls generalizing d with
  | nil => rfl
  | cons l ls ih => exact (ih (d.link l)).trans (Model.graphAttrs?_addEdge _ _ _ _ _ _)

theorem Attributed.setting {scope : Scope} {element : Element} {attrs : AttrList}
    (h : d.Attributed w) (known : d.Knows scope.subgraph) :
    (d.setting scope element attrs).Attributed (w ++ [⟨scope, .setting element attrs⟩]) := by
  intro sub hsub
  have hd := h sub hsub
  rw [inheritedEntries_concat rfl, ownEntries_concat_setting]
  show (Draft.setting d scope element attrs).model.graphAttrs? (d.ref sub) = _
  unfold Draft.setting
  by_cases he : element = .graph
  · subst he
    rw [if_pos rfl, Model.graphAttrs?_modifyGraphAttrs]
    by_cases hhere : scope.subgraph = sub
    · rw [if_pos (by rw [hhere]), if_pos ⟨rfl, hhere⟩, hd, Option.map_some, ← List.append_assoc]
      exact congrArg some (Attributes.insertList_append _ _ _).symm
    · rw [if_neg fun hr => hhere (known.ref_inj hr), if_neg fun hn => hhere hn.2, List.append_nil]
      exact hd
  · rw [if_neg he, if_neg fun hn => he hn.1, List.append_nil]
    exact hd

theorem Attributed.opening {scope : Scope} {key : SubgraphKey} (h : d.Attributed w)
    (aligned : d.Aligned) (subgraphs : d.subgraphs = subgraphsOf w)
    (own : ∀ key, key ∉ d.subgraphs → ownEntries w (some key) = []) :
    (d.opening ⟨scope, key⟩).Attributed (w ++ [⟨scope, .opening key⟩]) := by
  intro sub hsub
  rw [inheritedEntries_concat_opening, ownEntries_concat rfl, ← subgraphs]
  by_cases hk : key ∈ d.subgraphs
  · rw [Draft.opening, if_pos hk] at hsub ⊢
    rw [if_neg fun hn => hn.2 hk]
    exact h sub hsub
  · have hmodel : (d.opening ⟨scope, key⟩).model = (d.model.addSubgraph (d.ref scope.subgraph)
        key.holder key.name (.ofList (scope.entries .graph))).2.2 := by
      rw [Draft.opening, if_neg hk]
    rw [hmodel, Model.graphAttrs?_addSubgraph]
    by_cases he : sub = some key
    · subst he
      rw [aligned.ref_opening (o := ⟨scope, key⟩) hk, if_pos rfl, if_pos ⟨rfl, hk⟩, own key hk,
        List.append_nil]
    · have hold : d.Knows sub := by
        intro k hsome
        have hmem := hsub k hsome
        rw [subgraphs_opening, if_neg hk, List.mem_append, List.mem_singleton] at hmem
        rcases hmem with hmem | rfl
        · exact hmem
        · exact absurd hsome he
      rw [(d.extends_opening ⟨scope, key⟩).ref_eq hold,
        if_neg (Nat.ne_of_lt (aligned.ref_lt hold)), if_neg fun hn => he hn.1]
      exact h sub hold

/-- A subgraph that is not opened yet has no settings. -/
theorem ownEntries_unknown {key : SubgraphKey} (fits : d.Fits o)
    (h : ∀ key, key ∉ d.subgraphs → ownEntries w (some key) = [])
    (hkey : key ∉ (d.add o).subgraphs) : ownEntries (w ++ [o]) (some key) = [] := by
  have hd : key ∉ d.subgraphs := fun hmem => hkey ((d.extends_add o).subgraphs.subset hmem)
  obtain ⟨scope, event⟩ := o
  cases event with
  | setting element attrs =>
      rw [ownEntries_concat_setting, h key hd, if_neg]
      · rfl
      · rintro ⟨_, hscope⟩
        exact hd (fits.known key hscope)
  | _ => exact (ownEntries_concat rfl).trans (h key hd)

/-- Every event of a walk keeps the attributes of the graphs those of its settings. -/
theorem Attributed.add (h : d.Attributed w) (aligned : d.Aligned)
    (subgraphs : d.subgraphs = subgraphsOf w)
    (own : ∀ key, key ∉ d.subgraphs → ownEntries w (some key) = []) (fits : d.Fits o) :
    (d.add o).Attributed (w ++ [o]) := by
  obtain ⟨scope, event⟩ := o
  cases event with
  | node name attrs => exact h.of_same rfl (d.graphAttrs?_mention _) rfl rfl
  | endpoint name => exact h.of_same rfl (d.graphAttrs?_mention _) rfl rfl
  | setting element attrs => exact h.setting fits.known
  | opening key => exact h.opening aligned subgraphs own
  | edges operands attrs =>
      exact h.of_same (sameGraphs_links d _).subgraphs (d.graphAttrs?_links _) rfl rfl

/-- The graphs at the end of a walk have the attributes that it gives them. -/
theorem Replays.attributed {kind : GraphKind} {name : Option String} {strict : Bool}
    (h : (start kind name strict).Replays w d) : d.Attributed w := by
  refine (Replays.keeps (fun w d => d.Aligned ∧ d.subgraphs = subgraphsOf w ∧
    (∀ key, key ∉ d.subgraphs → ownEntries w (some key) = []) ∧ d.Attributed w) [] ?_ h
    ⟨aligned_start kind name strict, rfl, fun _ _ => rfl, ?_⟩).2.2.2
  · rintro w d o fits ⟨aligned, subgraphs, own, attributed⟩
    exact ⟨aligned.add o, subgraphs_add subgraphs o,
      fun _ hkey => ownEntries_unknown fits own hkey, attributed.add aligned subgraphs own fits⟩
  · intro sub hsub
    cases sub with
    | none => rfl
    | some key => exact absurd (hsub key rfl) List.not_mem_nil

end Draft

/-! ## Built models -/

section Built
variable {t : Tree} {kind : GraphKind} {name : Option String} {b : Builder}

/-- The graphs are those of the text itself and of its subgraphs.  The attributes of a
graph are set by the settings for graphs that stand in front of its first opening,
directly in a body around it, and then by those that stand directly in one of its own
bodies.  The text itself takes over none. -/
theorem Tree.graph_attrs (h : Runs (Builder.tree t) (.new kind name) () b) {g : GraphRef}
    {s : Subgraph} (hs : b.model.graph? g = some s) :
    ∃ sub, (∀ key ∈ sub, key ∈ t.subgraphs) ∧ g = t.graphRef sub ∧
      s.attrs = .ofList (t.inherited sub ++ t.own sub) := by
  obtain ⟨d, hmodel, hd⟩ := Tree.makes h
  rw [← hmodel] at hs
  have distinct : d.subgraphs.Nodup := by
    rw [hd.subgraphs]
    exact nodup_eraseDups _
  obtain ⟨sub, hsub, rfl⟩ := hd.aligned.exists_ref distinct (Model.graph?_lt hs)
  refine ⟨sub, hd.subgraphs ▸ hsub, hd.ref_eq sub, ?_⟩
  have hattrs := hd.replays.attributed sub hsub
  unfold Model.graphAttrs? at hattrs
  rw [hs] at hattrs
  exact Option.some.inj hattrs

/-- The second body of `s` takes over no color, and the label of the first one is not in
force in it. -/
theorem Tree.graph_attrs_reopened :
    let t : Tree := ⟨false, .digraph, none, [
      .defaults .graph [("color", .ofText "red")],
      .subgraph (some (.ofText "s")) [
        .defaults .graph [("label", .ofText "x")],
        .subgraph (some (.ofText "s")) [.defaults .graph [("style", .ofText "bold")]]],
      .defaults .graph [("color", .ofText "blue")],
      .subgraph (some (.ofText "s")) [
        .defaults .graph [("fontsize", .ofText "9")],
        .subgraph (some (.ofText "k")) []]]⟩
    let inner : Subgraph := ⟨some "k", ⟨[("color", .ofText "blue"), ("fontsize", .ofText "9")]⟩,
      #[], #[], some ⟨1⟩⟩
    let outer : Attributes := ⟨[("color", .ofText "red"), ("label", .ofText "x"),
      ("style", .ofText "bold"), ("fontsize", .ofText "9")]⟩
    ∃ b, Runs (Builder.tree t) (.new t.kind (t.name.map Id.value)) () b ∧
      b.model.graphAttrs? ⟨1⟩ = some outer ∧ b.model.graph? ⟨2⟩ = some inner ∧
        ∃ sub, (∀ key ∈ sub, key ∈ t.subgraphs) ∧ ⟨2⟩ = t.graphRef sub ∧
          inner.attrs = .ofList (t.inherited sub ++ t.own sub) := by
  intro t inner outer
  obtain ⟨b, hrun, hb⟩ := Tree.exists_runs (t := t)
    (p := fun m => m.graphAttrs? ⟨1⟩ = some outer ∧ m.graph? ⟨2⟩ = some inner) (by decide +kernel)
  have hb := of_decide_eq_true hb
  exact ⟨b, hrun, hb.1, hb.2, Tree.graph_attrs hrun hb.2⟩

end Built

end DotLang
