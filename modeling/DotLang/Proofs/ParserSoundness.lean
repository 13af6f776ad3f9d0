import DotLang.Proofs.ParserSteps
/-!
# The parser accepts only what the grammar allows

Every step of the parser that succeeds has passed tokens that spell its result.
The statements call each other, so they are proved together by induction on the
room: `Sound room` says it of the five steps with that much room.
-/

namespace DotLang.Parser

/-! ## Nodes and attributes -/

theorem port_sound {p q : Parser} {name : Id} {n : NodeId} (h : Runs (port name) p n q) :
    ∃ ts, p.Passes ts q ∧ SpellsNodeId (.id name :: ts) n := by
  unfold port at h
  rw [runs_token_bind] at h
  split at h
  · next hc =>
      obtain ⟨_, p1, ha, h⟩ := runs_bind.1 h
      have h1 := (runs_advance.1 ha).passes hc
      obtain ⟨i, p2, hi, h⟩ := runs_bind.1 h
      obtain ⟨hi, hn⟩ := runs_id.1 hi
      have h2 := h1.trans (hn.passes hi)
      rw [runs_token_bind] at h
      split at h
      · next hc' =>
          obtain ⟨_, p3, ha, h⟩ := runs_bind.1 h
          have h3 := h2.trans ((runs_advance.1 ha).passes hc')
          obtain ⟨j, p4, hj, h⟩ := runs_bind.1 h
          obtain ⟨hj, hn⟩ := runs_id.1 hj
          have h4 := h3.trans (hn.passes hj)
          obtain ⟨rfl, rfl⟩ := runs_pure.1 h
          exact ⟨_, h4, .compass name i j⟩
      · obtain ⟨rfl, rfl⟩ := runs_pure.1 h
        exact ⟨_, h2, .port name i⟩
  · obtain ⟨rfl, rfl⟩ := runs_pure.1 h
    exact ⟨[], .refl _, .bare name⟩

theorem nodeId_sound {p q : Parser} {n : NodeId} (h : Runs nodeId p n q) :
    ∃ ts, p.Passes ts q ∧ SpellsNodeId ts n := by
  unfold nodeId at h
  obtain ⟨name, p1, hi, h⟩ := runs_bind.1 h
  obtain ⟨hi, hn⟩ := runs_id.1 hi
  obtain ⟨ts, hp, hs⟩ := port_sound h
  exact ⟨_, (hn.passes hi).trans hp, hs⟩

theorem separator_sound {p q : Parser} {u : Unit} (h : Runs separator p u q) :
    ∃ ts, p.Passes ts q ∧ SpellsSeparator ts := by
  unfold separator at h
  rw [runs_token_bind] at h
  split at h
  · next hs =>
      have hn := runs_advance.1 h
      rcases hs with hs | hs
      · exact ⟨_, hn.passes hs, .semicolon⟩
      · exact ⟨_, hn.passes hs, .comma⟩
  · obtain ⟨_, rfl⟩ := runs_pure.1 h
    exact ⟨[], .refl _, .nothing⟩

theorem assigned_sound {p q : Parser} {i : Id} (h : Runs assigned p i q) :
    p.Passes [.mark .equal, .id i] q := by
  obtain ⟨r, he, hr, hi, hq⟩ := runs_assigned.1 h
  exact (hr.passes he).trans (hq.passes hi)

theorem entries_sound {room : Nat} {p q : Parser} {attrs : AttrList}
    (h : Runs (entries room) p attrs q) :
    ∃ ts, p.Passes (ts ++ [.mark .closeBracket]) q ∧ SpellsEntries ts attrs := by
  induction room generalizing p q attrs with
  | zero => exact absurd h not_runs_unexpected
  | succ room ih =>
      unfold entries at h
      rw [runs_token_bind] at h
      split at h
      · next hc =>
          obtain ⟨_, p1, ha, h⟩ := runs_bind.1 h
          obtain ⟨rfl, rfl⟩ := runs_pure.1 h
          exact ⟨[], (runs_advance.1 ha).passes hc, .nil⟩
      · obtain ⟨name, p1, hi, h⟩ := runs_bind.1 h
        obtain ⟨hi, hn⟩ := runs_id.1 hi
        obtain ⟨value, p2, hv, h⟩ := runs_bind.1 h
        obtain ⟨_, p3, hs, h⟩ := runs_bind.1 h
        obtain ⟨sep, hsep, spelled⟩ := separator_sound hs
        obtain ⟨more, p4, hm, h⟩ := runs_bind.1 h
        obtain ⟨ts, hts, entries⟩ := ih hm
        obtain ⟨rfl, rfl⟩ := runs_pure.1 h
        have hp := (hn.passes hi).trans ((assigned_sound hv).trans (hsep.trans hts))
        exact ⟨_, by simpa using hp, .cons spelled entries⟩

/-- With an opening bracket in hand there is a list. -/
theorem attrLists_sound {room : Nat} {p q : Parser} {attrs : AttrList}
    (h : Runs (attrLists room) p attrs q) :
    ∃ ts, p.Passes ts q ∧ SpellsAttrs ts attrs ∧
      (p.current.token = .mark .openBracket → ts ≠ []) := by
  induction room generalizing p q attrs with
  | zero => exact absurd h not_runs_unexpected
  | succ room ih =>
      unfold attrLists at h
      rw [runs_token_bind] at h
      split at h
      · next hb =>
          obtain ⟨_, p1, ha, h⟩ := runs_bind.1 h
          obtain ⟨first, p2, he, h⟩ := runs_bind.1 h
          obtain ⟨ts, hts, entries⟩ := entries_sound he
          obtain ⟨more, p3, hm, h⟩ := runs_bind.1 h
          obtain ⟨us, hus, lists, _⟩ := ih hm
          obtain ⟨rfl, rfl⟩ := runs_pure.1 h
          have hp := ((runs_advance.1 ha).passes hb).trans (hts.trans hus)
          exact ⟨_, by simpa using hp, .cons entries lists, fun _ => List.cons_ne_nil _ _⟩
      · next hb =>
          obtain ⟨rfl, rfl⟩ := runs_pure.1 h
          exact ⟨[], .refl _, .nil, fun h => absurd h hb⟩

theorem attrList_sound {room : Nat} {p q : Parser} {attrs : AttrList}
    (h : Runs (attrList room) p attrs q) :
    ∃ ts, p.Passes ts q ∧ SpellsAttrs ts attrs ∧ ts ≠ [] := by
  unfold attrList at h
  rw [runs_token_bind] at h
  split at h
  · next hb =>
      obtain ⟨ts, hp, lists, hne⟩ := attrLists_sound h
      exact ⟨ts, hp, lists, hne hb⟩
  · exact absurd h not_runs_unexpected

/-- The name of a graph or subgraph may be missing. -/
theorem name_sound {p q : Parser} {name : Option Id} (h : Runs id? p name q) :
    p.Passes (name.toList.map .id) q := by
  rcases runs_id?.1 h with hs | hs
  · obtain ⟨i, rfl, hi, hn⟩ := hs
    exact hn.passes hi
  · obtain ⟨rfl, rfl, _⟩ := hs
    exact .refl _

/-! ## Statements -/

/-- The steps of statements with that much room pass tokens that spell their
results. -/
structure Sound (room : Nat) : Prop where
  body : ∀ {p q : Parser} {stmts : List Stmt}, Runs (Parser.body room) p stmts q →
    ∃ ts, p.Passes (ts ++ [.mark .closeBrace]) q ∧ SpellsBody p.op ts stmts
  stmt : ∀ {p q : Parser} {s : Stmt}, Runs (Parser.stmt room) p s q →
    ∃ ts, p.Passes ts q ∧ SpellsStmt p.op ts s
  subgraph : ∀ {p q : Parser} {name : Option Id} {stmts : List Stmt},
    Runs (Parser.subgraph room) p (name, stmts) q →
      ∃ ts, p.Passes ts q ∧ SpellsSubgraph p.op ts name stmts
  hops : ∀ {p q : Parser} {hs : List (EdgeOp × Operand)}, Runs (Parser.hops room) p hs q →
    ∃ ts, p.Passes ts q ∧ SpellsHops p.op ts hs ∧
      ((edgeOp? p.current.token).isSome → hs ≠ [])
  edges : ∀ {p q : Parser} {tail : Operand} {s : Stmt}, Runs (Parser.edges room tail) p s q →
    ∃ ts us hs attrs, p.Passes (ts ++ us) q ∧ s = .edge tail hs attrs ∧
      SpellsHops p.op ts hs ∧ SpellsAttrs us attrs ∧
      ((edgeOp? p.current.token).isSome → hs ≠ [])

/-- Without room every step fails. -/
theorem sound_zero : Sound 0 where
  body h := absurd h (by unfold Parser.body; exact not_runs_unexpected)
  stmt h := absurd h (by unfold Parser.stmt; exact not_runs_unexpected)
  subgraph h := absurd h (by unfold Parser.subgraph; exact not_runs_unexpected)
  hops h := absurd h (by unfold Parser.hops; exact not_runs_unexpected)
  edges h := absurd h (by unfold Parser.edges; exact not_runs_unexpected)

section Step
variable {room : Nat} {p q : Parser}

theorem body_sound (ih : Sound room) {stmts : List Stmt}
    (h : Runs (body (room + 1)) p stmts q) :
    ∃ ts, p.Passes (ts ++ [.mark .closeBrace]) q ∧ SpellsBody p.op ts stmts := by
  unfold body at h
  rw [runs_token_bind] at h
  split at h
  · next hs =>
      obtain ⟨_, p1, ha, h⟩ := runs_bind.1 h
      have h1 := (runs_advance.1 ha).passes hs
      obtain ⟨ts, hts, rest⟩ := ih.body h
      rw [h1.op] at rest
      exact ⟨.mark .semicolon :: ts, h1.trans hts, .semicolon rest⟩
  · next hc =>
      obtain ⟨_, p1, ha, h⟩ := runs_bind.1 h
      obtain ⟨rfl, rfl⟩ := runs_pure.1 h
      exact ⟨[], (runs_advance.1 ha).passes hc, .nil⟩
  · exact absurd h not_runs_unexpected
  · obtain ⟨first, p1, hf, h⟩ := runs_bind.1 h
    obtain ⟨ts, hts, stmt⟩ := ih.stmt hf
    obtain ⟨more, p2, hm, h⟩ := runs_bind.1 h
    obtain ⟨us, hus, rest⟩ := ih.body hm
    obtain ⟨rfl, rfl⟩ := runs_pure.1 h
    rw [hts.op] at rest
    have hp := hts.trans hus
    exact ⟨ts ++ us, by simpa using hp, .cons stmt rest⟩

theorem stmt_sound (ih : Sound room) {s : Stmt} (h : Runs (stmt (room + 1)) p s q) :
    ∃ ts, p.Passes ts q ∧ SpellsStmt p.op ts s := by
  unfold stmt at h
  rw [runs_token_bind] at h
  split at h
  · next name hn =>
      obtain ⟨_, p1, ha, h⟩ := runs_bind.1 h
      have h1 := (runs_advance.1 ha).passes hn
      rw [runs_token_bind] at h
      split at h
      · unfold assignment at h
        obtain ⟨value, p2, hv, h⟩ := runs_bind.1 h
        obtain ⟨rfl, rfl⟩ := runs_pure.1 h
        exact ⟨_, h1.trans (assigned_sound hv), .assignment name value⟩
      · obtain ⟨n, p2, hn, h⟩ := runs_bind.1 h
        obtain ⟨ts, hts, node⟩ := port_sound hn
        have h2 := h1.trans hts
        rw [runs_token_bind] at h
        split at h
        · next ho =>
            obtain ⟨us, vs, hs, attrs, hp, rfl, heads, lists, hne⟩ := ih.edges h
            rw [h2.op] at heads
            have hp := h2.trans hp
            exact ⟨_, by simpa using hp, .edge (.node node) heads (hne ho) lists⟩
        · obtain ⟨attrs, p3, hl, h⟩ := runs_bind.1 h
          obtain ⟨us, hus, lists, _⟩ := attrLists_sound hl
          obtain ⟨rfl, rfl⟩ := runs_pure.1 h
          exact ⟨_, h2.trans hus, .node node lists⟩
  · split at h
    · obtain ⟨⟨name, stmts⟩, p1, hb, h⟩ := runs_bind.1 h
      obtain ⟨ts, hts, subgraph⟩ := ih.subgraph hb
      rw [runs_token_bind] at h
      split at h
      · next ho =>
          obtain ⟨us, vs, hs, attrs, hp, rfl, heads, lists, hne⟩ := ih.edges h
          rw [hts.op] at heads
          have hp := hts.trans hp
          exact ⟨_, by simpa using hp, .edge (.subgraph subgraph) heads (hne ho) lists⟩
      · obtain ⟨rfl, rfl⟩ := runs_pure.1 h
        exact ⟨ts, hts, .subgraph subgraph⟩
    · split at h
      · next element he =>
          obtain ⟨_, p1, ha, h⟩ := runs_bind.1 h
          have h1 := (runs_advance.1 ha).passes (element?_eq_some.1 he)
          obtain ⟨attrs, p2, hl, h⟩ := runs_bind.1 h
          obtain ⟨ts, hts, lists, hne⟩ := attrList_sound hl
          obtain ⟨rfl, rfl⟩ := runs_pure.1 h
          exact ⟨_, h1.trans hts, .defaults element lists hne⟩
      · exact absurd h not_runs_unexpected

theorem subgraph_sound (ih : Sound room) {name : Option Id} {stmts : List Stmt}
    (h : Runs (subgraph (room + 1)) p (name, stmts) q) :
    ∃ ts, p.Passes ts q ∧ SpellsSubgraph p.op ts name stmts := by
  unfold subgraph at h
  rw [runs_token_bind] at h
  split at h
  · next hk =>
      obtain ⟨_, p1, ha, h⟩ := runs_bind.1 h
      have h1 := (runs_advance.1 ha).passes hk
      obtain ⟨o, p2, hi, h⟩ := runs_bind.1 h
      obtain ⟨_, p3, hm, h⟩ := runs_bind.1 h
      obtain ⟨hb, hn⟩ := runs_mark.1 hm
      obtain ⟨b, p4, hb', h⟩ := runs_bind.1 h
      obtain ⟨ts, hts, body⟩ := ih.body hb'
      obtain ⟨he, rfl⟩ := runs_pure.1 h
      cases he
      have h3 := h1.trans ((name_sound hi).trans (hn.passes hb))
      rw [h3.op] at body
      have hp := h3.trans hts
      exact ⟨_, by simpa using hp, .keyword name body⟩
  · obtain ⟨_, p1, hm, h⟩ := runs_bind.1 h
    obtain ⟨hb, hn⟩ := runs_mark.1 hm
    have h1 := hn.passes hb
    obtain ⟨b, p2, hb', h⟩ := runs_bind.1 h
    obtain ⟨ts, hts, body⟩ := ih.body hb'
    obtain ⟨he, rfl⟩ := runs_pure.1 h
    cases he
    rw [h1.op] at body
    exact ⟨_, h1.trans hts, .bare body⟩

theorem hops_sound (ih : Sound room) {hs : List (EdgeOp × Operand)}
    (h : Runs (hops (room + 1)) p hs q) :
    ∃ ts, p.Passes ts q ∧ SpellsHops p.op ts hs ∧
      ((edgeOp? p.current.token).isSome → hs ≠ []) := by
  unfold hops at h
  rw [runs_token_bind] at h
  split at h
  · next ho =>
      obtain ⟨rfl, rfl⟩ := runs_pure.1 h
      refine ⟨[], .refl _, .nil, fun hs => ?_⟩
      rw [ho] at hs
      cases hs
  · next op ho =>
      obtain ⟨_, p1, hc, h⟩ := runs_bind.1 h
      obtain ⟨rfl, rfl⟩ := runs_checkOp.1 hc
      obtain ⟨_, p2, ha, h⟩ := runs_bind.1 h
      have h1 := (runs_advance.1 ha).passes (edgeOp?_eq_some.1 ho)
      rw [runs_token_bind] at h
      have hop : ∃ ts head p3, p2.Passes ts p3 ∧ SpellsOperand p2.op ts head ∧
          Runs (do return (p1.op, head) :: (← hops room)) p3 hs q := by
        split at h
        · obtain ⟨⟨name, stmts⟩, p3, hb, h⟩ := runs_bind.1 h
          obtain ⟨ts, hts, subgraph⟩ := ih.subgraph hb
          obtain ⟨head, p4, hh, h⟩ := runs_bind.1 h
          obtain ⟨rfl, rfl⟩ := runs_pure.1 hh
          exact ⟨ts, _, _, hts, .subgraph subgraph, h⟩
        · obtain ⟨head, p3, hh, h⟩ := runs_bind.1 h
          obtain ⟨n, rfl, hn⟩ := runs_map.1 hh
          obtain ⟨ts, hts, node⟩ := nodeId_sound hn
          exact ⟨ts, _, _, hts, .node node, h⟩
      obtain ⟨ts, head, p3, hts, operand, h⟩ := hop
      obtain ⟨more, p4, hm, h⟩ := runs_bind.1 h
      obtain ⟨us, hus, rest, _⟩ := ih.hops hm
      obtain ⟨rfl, rfl⟩ := runs_pure.1 h
      rw [h1.op] at operand
      rw [hts.op, h1.op] at rest
      exact ⟨_ :: (ts ++ us), h1.trans (hts.trans hus), .cons operand rest,
        fun _ => List.cons_ne_nil _ _⟩

theorem edges_sound (ih : Sound room) {tail : Operand} {s : Stmt}
    (h : Runs (edges (room + 1) tail) p s q) :
    ∃ ts us hs attrs, p.Passes (ts ++ us) q ∧ s = .edge tail hs attrs ∧
      SpellsHops p.op ts hs ∧ SpellsAttrs us attrs ∧
      ((edgeOp? p.current.token).isSome → hs ≠ []) := by
  unfold edges at h
  obtain ⟨hs, p1, hh, h⟩ := runs_bind.1 h
  obtain ⟨ts, hts, heads, hne⟩ := ih.hops hh
  obtain ⟨attrs, p2, hl, h⟩ := runs_bind.1 h
  obtain ⟨us, hus, lists, _⟩ := attrLists_sound hl
  obtain ⟨rfl, rfl⟩ := runs_pure.1 h
  exact ⟨ts, us, hs, attrs, hts.trans hus, rfl, heads, lists, hne⟩

end Step

/-- With any room, a step of a statement that succeeds has passed tokens that
spell its result. -/
theorem sound (room : Nat) : Sound room := by
  induction room with
  | zero => exact sound_zero
  | succ room ih =>
      exact ⟨body_sound ih, stmt_sound ih, subgraph_sound ih, hops_sound ih, edges_sound ih⟩

/-! ## Graphs and files -/

theorem graph_sound {room : Nat} {p q : Parser} {tree : Tree}
    (h : Runs (graph room) p tree q) :
    ∃ ts, p.tokens = ts ++ q.tokens ∧ SpellsTree ts tree := by
  obtain ⟨strict, kind, p', hp, hk, h⟩ := runs_graph.1 h
  obtain ⟨name, stmts, p1, p2, p3, ha, hi, hb, hn, hs, rfl⟩ := runs_ofKind.1 h
  obtain ⟨ts, hts, body⟩ := (sound room).body hs
  have hstrict : p.tokens = (if strict then [.keyword .strict] else []) ++ p'.tokens := by
    cases strict with
    | true => exact (hp.2.passes hp.1).tokens
    | false =>
        obtain ⟨_, rfl⟩ := hp
        rfl
  have hhead := (ha.passes hk).trans ((name_sound hi).trans (hn.passes hb))
  have hop : p3.op = kind.edgeOp := by
    rw [hhead.op]
    cases kind <;> rfl
  rw [hop] at body
  refine ⟨_, ?_, .mk strict kind name body⟩
  have htail : p'.tokens = _ := (hhead.trans hts).tokens
  rw [hstrict, htail]
  simp

/-- A run of `graphs` ends with the end of the text in hand. -/
theorem graphs_sound {room : Nat} {p q : Parser} {trees : List Tree}
    (h : Runs (graphs room) p trees q) :
    q.current.token = .finish ∧ ∃ ts, p.tokens = ts ++ q.tokens ∧
      (ts = [] ∧ trees = [] ∨ SpellsFile (ts ++ [.finish]) trees) := by
  induction room generalizing p trees with
  | zero => exact absurd h not_runs_unexpected
  | succ room ih =>
      unfold graphs at h
      rw [runs_token_bind] at h
      split at h
      · next hf =>
          obtain ⟨rfl, rfl⟩ := runs_pure.1 h
          exact ⟨hf, [], rfl, Or.inl ⟨rfl, rfl⟩⟩
      · obtain ⟨first, p1, hg, h⟩ := runs_bind.1 h
        obtain ⟨ts, hts, spelled⟩ := graph_sound hg
        obtain ⟨more, p2, hm, h⟩ := runs_bind.1 h
        obtain ⟨rfl, rfl⟩ := runs_pure.1 h
        obtain ⟨hf, us, hus, rest⟩ := ih hm
        refine ⟨hf, ts ++ us, by rw [hts, hus, List.append_assoc], Or.inr ?_⟩
        rcases rest with he | rest
        · obtain ⟨rfl, rfl⟩ := he
          simpa using SpellsFile.one spelled
        · rw [List.append_assoc]
          exact .cons spelled rest

/-- A run of `file` passes tokens that spell a file, up to the end of the
text. -/
theorem file_sound {room : Nat} {p q : Parser} {trees : List Tree}
    (h : Runs (file room) p trees q) :
    q.current.token = .finish ∧ ∃ ts, p.tokens = p.current.token :: ts ++ q.tokens ∧
      SpellsFile (ts ++ [.finish]) trees := by
  unfold file at h
  obtain ⟨_, p1, ha, h⟩ := runs_bind.1 h
  have h1 := ((runs_advance.1 ha).passes rfl).tokens
  obtain ⟨first, p2, hg, h⟩ := runs_bind.1 h
  obtain ⟨ts, hts, spelled⟩ := graph_sound hg
  obtain ⟨more, p3, hm, h⟩ := runs_bind.1 h
  obtain ⟨rfl, rfl⟩ := runs_pure.1 h
  obtain ⟨hf, us, hus, rest⟩ := graphs_sound hm
  refine ⟨hf, ts ++ us, by simp [h1, hts, hus], ?_⟩
  rcases rest with he | rest
  · obtain ⟨rfl, rfl⟩ := he
    simpa using SpellsFile.one spelled
  · rw [List.append_assoc]
    exact .cons spelled rest

end DotLang.Parser
