import DotLang.Proofs.ParserSteps
/-!
# The parser accepts all that the grammar allows

A step of the parser that has in front of it tokens which spell a result, and
behind them a token that cannot go on that result, passes just those tokens and
gives that result.  `Follow` collects the tokens that cannot go on a statement.

The room that a step needs is bounded by the number of tokens it passes.  As in
the other direction, the steps of statements are done together by induction on
the room, and `Complete room` says it of all five.
-/

namespace DotLang.Parser

/-- No token is a fault. -/
def Faultless (ts : List Token) : Prop := ∀ f, Token.fault f ∉ ts

/-- The parser has the tokens `ts` to pass and behind them `us`, and holds no
fault. -/
structure Sees (p : Parser) (ts us : List Token) : Prop where
  tokens : p.tokens = ts ++ us
  some_behind : us ≠ []
  faultless : Faultless (ts ++ us)

/-- The step gives `a` and leaves `us` to pass. -/
def Gives {α : Type} (x : Parse α) (p : Parser) (a : α) (us : List Token) : Prop :=
  ∃ q, Runs x p a q ∧ q.Sees [] us ∧ q.op = p.op

section Sees
variable {p : Parser} {t : Token} {ts us vs : List Token}

theorem Sees.current (h : p.Sees (t :: ts) us) : p.current.token = t := by
  have ht := h.tokens
  simp only [Parser.tokens, List.cons_append] at ht
  injection ht

theorem Sees.head (h : p.Sees [] us) : us.head? = some p.current.token := by
  have ht := h.tokens
  simp only [Parser.tokens, List.nil_append] at ht
  rw [← ht]
  rfl

/-- The border between the tokens to pass and those behind them may be moved. -/
theorem Sees.resplit {ts' us' : List Token} (h : p.Sees ts us) (he : ts ++ us = ts' ++ us')
    (hne : us' ≠ []) : p.Sees ts' us' :=
  ⟨h.tokens.trans he, hne, he ▸ h.faultless⟩

theorem Sees.to_append (h : p.Sees [] (us ++ vs)) (hv : vs ≠ []) : p.Sees us vs :=
  h.resplit rfl hv

theorem Sees.first (h : p.Sees (t :: ts) us) : p.Sees [t] (ts ++ us) :=
  ⟨h.tokens, fun he => h.some_behind (List.append_eq_nil_iff.1 he).2, h.faultless⟩

/-- A token that is seen can be passed. -/
theorem Sees.next (h : p.Sees (t :: ts) us) (ht : t ≠ .finish) :
    ∃ q, p.Next q ∧ q.Sees ts us ∧ q.op = p.op := by
  obtain ⟨current, rest, directed⟩ := p
  have htok := h.tokens
  simp only [Parser.tokens, List.cons_append] at htok
  injection htok with hcur hrest
  cases rest with
  | nil =>
      have he : ts ++ us = [] := hrest.symm
      exact absurd (List.append_eq_nil_iff.1 he).2 h.some_behind
  | cons l rest =>
      have hclean : Faultless (ts ++ us) := fun f hf => h.faultless f (List.mem_cons_of_mem _ hf)
      refine ⟨⟨l, rest, directed⟩, ⟨rfl, rfl, ?_, ?_⟩, ⟨hrest, h.some_behind, hclean⟩, rfl⟩
      · rw [hcur]
        exact ht
      · intro f hf
        refine hclean f ?_
        rw [← hrest]
        exact List.mem_cons.2 (Or.inl hf.symm)

end Sees

section Gives
variable {α β : Type} {p : Parser} {us vs : List Token}

theorem gives_pure {a : α} (h : p.Sees [] us) : Gives (pure a) p a us :=
  ⟨p, runs_pure.2 ⟨rfl, rfl⟩, h, rfl⟩

theorem gives_bind {x : Parse α} {f : α → Parse β} {a : α} {b : β} (hx : Gives x p a us)
    (hf : ∀ q, q.Sees [] us → q.op = p.op → Gives (f a) q b vs) : Gives (x >>= f) p b vs := by
  obtain ⟨q, hq, hs, ho⟩ := hx
  obtain ⟨r, hr, hs', ho'⟩ := hf q hs ho
  exact ⟨r, runs_bind.2 ⟨a, q, hq, hr⟩, hs', ho'.trans ho⟩

theorem gives_token {f : Token → Parse β} {b : β} (h : Gives (f p.current.token) p b us) :
    Gives (token >>= f) p b us := by
  obtain ⟨q, hq, hs, ho⟩ := h
  exact ⟨q, runs_token_bind.2 hq, hs, ho⟩

theorem gives_map {x : Parse α} {f : α → β} {a : α} (h : Gives x p a us) :
    Gives (f <$> x) p (f a) us := by
  obtain ⟨q, hq, hs, ho⟩ := h
  exact ⟨q, runs_map.2 ⟨a, rfl, hq⟩, hs, ho⟩

end Gives

/-! ## Single tokens -/

section Single
variable {p : Parser} {us : List Token}

theorem advance_gives {t : Token} (h : p.Sees [t] us) (ht : t ≠ .finish) :
    Gives advance p () us := by
  obtain ⟨q, hn, hs, ho⟩ := h.next ht
  exact ⟨q, runs_advance.2 hn, hs, ho⟩

theorem mark_gives {m : Mark} (h : p.Sees [.mark m] us) : Gives (mark m) p () us := by
  obtain ⟨q, hn, hs, ho⟩ := h.next (by simp)
  exact ⟨q, runs_mark.2 ⟨h.current, hn⟩, hs, ho⟩

theorem id_gives {what : Expected} {i : Id} (h : p.Sees [.id i] us) :
    Gives (id what) p i us := by
  obtain ⟨q, hn, hs, ho⟩ := h.next (by simp)
  exact ⟨q, runs_id.2 ⟨h.current, hn⟩, hs, ho⟩

/-- A name that may be missing, in front of something that is no ID. -/
theorem name_gives {name : Option Id} (h : p.Sees (name.toList.map .id) us)
    (hid : ∀ i, us.head? ≠ some (.id i)) : Gives id? p name us := by
  cases name with
  | none =>
      refine ⟨p, runs_id?.2 (Or.inr ⟨rfl, rfl, fun i hi => hid i ?_⟩), h, rfl⟩
      rw [h.head, hi]
  | some i =>
      obtain ⟨q, hn, hs, ho⟩ := h.next (by simp)
      exact ⟨q, runs_id?.2 (Or.inl ⟨i, rfl, h.current, hn⟩), hs, ho⟩

theorem assigned_gives {i : Id} (h : p.Sees [.mark .equal, .id i] us) :
    Gives assigned p i us := by
  unfold assigned
  refine gives_bind (mark_gives h.first) fun q hq _ => ?_
  exact id_gives (hq.to_append h.some_behind)

end Single

/-! ## Nodes and attributes -/

section Attributes
variable {p : Parser} {us : List Token}

theorem port_gives {name : Id} {ts : List Token} {n : NodeId} (h : p.Sees ts us)
    (spelled : SpellsNodeId (.id name :: ts) n) (hc : us.head? ≠ some (.mark .colon)) :
    Gives (port name) p n us := by
  unfold port
  refine gives_token ?_
  cases spelled with
  | bare =>
      rw [if_neg (fun he => hc (h.head.trans (congrArg some he)))]
      exact gives_pure h
  | port _ i =>
      rw [if_pos h.current]
      refine gives_bind (advance_gives h.first (by simp)) fun q hq _ => ?_
      refine gives_bind (id_gives (hq.to_append h.some_behind)) fun r hr _ => ?_
      refine gives_token ?_
      rw [if_neg (fun he => hc (hr.head.trans (congrArg some he)))]
      exact gives_pure hr
  | compass _ i j =>
      rw [if_pos h.current]
      refine gives_bind (advance_gives h.first (by simp)) fun q hq _ => ?_
      have hq := hq.to_append h.some_behind
      refine gives_bind (id_gives hq.first) fun r hr _ => ?_
      have hr := hr.to_append h.some_behind
      refine gives_token ?_
      rw [if_pos hr.current]
      refine gives_bind (advance_gives hr.first (by simp)) fun s hs _ => ?_
      refine gives_bind (id_gives (hs.to_append h.some_behind)) fun t ht _ => ?_
      exact gives_pure ht

/-- The tokens of a node start with its name. -/
theorem spellsNodeId_first {ts : List Token} {n : NodeId} (h : SpellsNodeId ts n) :
    ∃ name rest, ts = .id name :: rest := by
  cases h with
  | bare name => exact ⟨name, _, rfl⟩
  | port name _ => exact ⟨name, _, rfl⟩
  | compass name _ _ => exact ⟨name, _, rfl⟩

theorem nodeId_gives {ts : List Token} {n : NodeId} (h : p.Sees ts us)
    (spelled : SpellsNodeId ts n) (hc : us.head? ≠ some (.mark .colon)) :
    Gives nodeId p n us := by
  obtain ⟨name, rest, rfl⟩ := spellsNodeId_first spelled
  unfold nodeId
  refine gives_bind (id_gives h.first) fun q hq _ => ?_
  exact port_gives (hq.to_append h.some_behind) spelled hc

theorem separator_gives {ts : List Token} (h : p.Sees ts us) (spelled : SpellsSeparator ts)
    (hs : us.head? ≠ some (.mark .semicolon)) (hc : us.head? ≠ some (.mark .comma)) :
    Gives separator p () us := by
  unfold separator
  refine gives_token ?_
  cases spelled with
  | nothing =>
      rw [if_neg]
      · exact gives_pure h
      · rintro (he | he)
        · exact hs (h.head.trans (congrArg some he))
        · exact hc (h.head.trans (congrArg some he))
  | comma =>
      rw [if_pos (Or.inr h.current)]
      exact advance_gives h (by simp)
  | semicolon =>
      rw [if_pos (Or.inl h.current)]
      exact advance_gives h (by simp)

theorem entries_gives {room : Nat} {ts : List Token} {attrs : AttrList}
    (h : p.Sees (ts ++ [.mark .closeBracket]) us) (spelled : SpellsEntries ts attrs)
    (hr : ts.length < room) : Gives (entries room) p attrs us := by
  induction spelled generalizing p room with
  | nil =>
      obtain ⟨room, rfl⟩ := Nat.exists_eq_succ_of_ne_zero (Nat.ne_of_gt hr)
      unfold entries
      refine gives_token ?_
      rw [if_pos h.current]
      exact gives_bind (advance_gives h (by simp)) fun q hq _ => gives_pure hq
  | @cons name value sep ts attrs separator rest ih =>
      obtain ⟨room, rfl⟩ := Nat.exists_eq_succ_of_ne_zero (Nat.ne_of_gt (Nat.zero_lt_of_lt hr))
      have hroom : ts.length < room := by
        simp at hr
        omega
      unfold entries
      refine gives_token ?_
      rw [if_neg (by rw [h.current]; simp)]
      have hin : p.Sees [.id name] ([.mark .equal, .id value] ++ (sep ++ (ts ++
          .mark .closeBracket :: us))) := h.resplit (by simp) (by simp)
      refine gives_bind (id_gives hin) fun q hq _ => ?_
      refine gives_bind (assigned_gives (hq.to_append (by simp))) fun r hr _ => ?_
      have hhead : ∀ m, m = .semicolon ∨ m = .comma →
          (ts ++ .mark .closeBracket :: us).head? ≠ some (.mark m) := by
        intro m hm
        cases rest with
        | nil => cases hm with
          | inl hm => subst hm; simp
          | inr hm => subst hm; simp
        | cons => simp
      refine gives_bind (separator_gives (hr.to_append (by simp)) separator
        (hhead _ (Or.inl rfl)) (hhead _ (Or.inr rfl))) fun s hs _ => ?_
      refine gives_bind (ih (hs.resplit (by simp) h.some_behind) hroom) fun t ht _ => ?_
      exact gives_pure ht

theorem attrLists_gives {room : Nat} {ts : List Token} {attrs : AttrList}
    (h : p.Sees ts us) (spelled : SpellsAttrs ts attrs)
    (hb : us.head? ≠ some (.mark .openBracket)) (hr : ts.length < room) :
    Gives (attrLists room) p attrs us := by
  induction spelled generalizing p room with
  | nil =>
      obtain ⟨room, rfl⟩ := Nat.exists_eq_succ_of_ne_zero (Nat.ne_of_gt hr)
      unfold attrLists
      refine gives_token ?_
      rw [if_neg (fun he => hb (h.head.trans (congrArg some he)))]
      exact gives_pure h
  | @cons ts us' attrs more entries rest ih =>
      obtain ⟨room, rfl⟩ := Nat.exists_eq_succ_of_ne_zero (Nat.ne_of_gt (Nat.zero_lt_of_lt hr))
      have hrooms : ts.length < room ∧ us'.length < room := by
        simp at hr
        omega
      unfold attrLists
      refine gives_token ?_
      rw [if_pos h.current]
      refine gives_bind (advance_gives h.first (by simp)) fun q hq _ => ?_
      have hq : q.Sees (ts ++ [.mark .closeBracket]) (us' ++ us) :=
        hq.resplit (by simp) (by simp [h.some_behind])
      refine gives_bind (entries_gives hq entries hrooms.1) fun r hr _ => ?_
      refine gives_bind (ih (hr.to_append h.some_behind) hrooms.2) fun s hs _ => ?_
      exact gives_pure hs

theorem attrList_gives {room : Nat} {ts : List Token} {attrs : AttrList}
    (h : p.Sees ts us) (spelled : SpellsAttrs ts attrs) (hne : ts ≠ [])
    (hb : us.head? ≠ some (.mark .openBracket)) (hr : ts.length < room) :
    Gives (attrList room) p attrs us := by
  unfold attrList
  refine gives_token ?_
  have hc : p.current.token = .mark .openBracket := by
    cases spelled with
    | nil => exact absurd rfl hne
    | cons => exact h.current
  rw [if_pos hc]
  exact attrLists_gives h spelled hb hr

end Attributes

/-! ## What may follow a statement -/

/-- A token that cannot go on a statement. -/
structure Stops (t : Token) : Prop where
  not_equal : t ≠ .mark .equal
  not_colon : t ≠ .mark .colon
  not_bracket : t ≠ .mark .openBracket
  not_op : edgeOp? t = none

/-- A token that a statement starts with. -/
inductive Starts : Token → Prop
  | id (i : Id) : Starts (.id i)
  | defaults (element : Element) : Starts (.keyword element.keyword)
  | keyword : Starts (.keyword .subgraph)
  | brace : Starts (.mark .openBrace)

theorem Starts.stops {t : Token} (h : Starts t) : Stops t := by
  cases h with
  | id => exact ⟨by simp, by simp, by simp, rfl⟩
  | defaults => exact ⟨by simp, by simp, by simp, rfl⟩
  | keyword => exact ⟨by simp, by simp, by simp, rfl⟩
  | brace => exact ⟨by simp, by simp, by simp, rfl⟩

/-- A subgraph starts with its keyword or its brace. -/
theorem spellsSubgraph_first {op : EdgeOp} {ts : List Token} {name : Option Id}
    {stmts : List Stmt} (h : SpellsSubgraph op ts name stmts) :
    ∃ t rest, ts = t :: rest ∧ (t = .keyword .subgraph ∨ t = .mark .openBrace) := by
  cases h with
  | bare => exact ⟨_, _, rfl, Or.inr rfl⟩
  | keyword => exact ⟨_, _, rfl, Or.inl rfl⟩

/-- A subgraph has at least its two braces. -/
theorem spellsSubgraph_length {op : EdgeOp} {ts : List Token} {name : Option Id}
    {stmts : List Stmt} (h : SpellsSubgraph op ts name stmts) : 2 ≤ ts.length := by
  cases h with
  | bare => simp
  | keyword => simp; omega

theorem spellsOperand_first {op : EdgeOp} {ts : List Token} {o : Operand}
    (h : SpellsOperand op ts o) : ∃ t rest, ts = t :: rest ∧ Starts t := by
  cases h with
  | node node =>
      obtain ⟨name, rest, rfl⟩ := spellsNodeId_first node
      exact ⟨_, rest, rfl, .id name⟩
  | subgraph subgraph =>
      obtain ⟨t, rest, rfl, ht⟩ := spellsSubgraph_first subgraph
      refine ⟨t, rest, rfl, ?_⟩
      rcases ht with ht | ht
      · exact ht ▸ .keyword
      · exact ht ▸ .brace

theorem spellsStmt_first {op : EdgeOp} {ts : List Token} {s : Stmt} (h : SpellsStmt op ts s) :
    ∃ t rest, ts = t :: rest ∧ Starts t := by
  cases h with
  | assignment name _ => exact ⟨_, _, rfl, .id name⟩
  | node node _ =>
      have operand : SpellsOperand op _ _ := .node node
      obtain ⟨t, rest, rfl, ht⟩ := spellsOperand_first operand
      exact ⟨t, _, rfl, ht⟩
  | edge operand _ _ _ =>
      obtain ⟨t, rest, rfl, ht⟩ := spellsOperand_first operand
      exact ⟨t, _, rfl, ht⟩
  | defaults element _ _ => exact ⟨_, _, rfl, .defaults element⟩
  | subgraph subgraph => exact spellsOperand_first (.subgraph subgraph)

/-- Behind a statement of a body there is a token that cannot go on it. -/
theorem spellsBody_stops {op : EdgeOp} {ts : List Token} {stmts : List Stmt}
    (h : SpellsBody op ts stmts) (us : List Token) :
    ∃ t rest, ts ++ .mark .closeBrace :: us = t :: rest ∧ Stops t := by
  cases h with
  | nil => exact ⟨_, _, rfl, by simp, by simp, by simp, rfl⟩
  | semicolon => exact ⟨_, _, rfl, by simp, by simp, by simp, rfl⟩
  | cons stmt _ =>
      obtain ⟨t, rest, rfl, ht⟩ := spellsStmt_first stmt
      exact ⟨t, _, rfl, ht.stops⟩

/-- A list of attributes may stand in front of a token that stops a statement. -/
theorem spellsAttrs_head {ts us : List Token} {attrs : AttrList} (h : SpellsAttrs ts attrs)
    {t : Token} (ht : (ts ++ us).head? = some t) :
    t = .mark .openBracket ∨ us.head? = some t := by
  cases h with
  | nil => exact Or.inr ht
  | cons =>
      simp only [List.cons_append, List.head?_cons, Option.some.injEq] at ht
      exact Or.inl ht.symm

/-- Hops start with an edge operator. -/
theorem spellsHops_first {op : EdgeOp} {ts : List Token} {hs : List (EdgeOp × Operand)}
    (h : SpellsHops op ts hs) (hne : hs ≠ []) : ∃ rest, ts = .mark op.mark :: rest := by
  cases h with
  | nil => exact absurd rfl hne
  | cons => exact ⟨_, rfl⟩

/-! ## Statements -/

/-- The steps of statements with that much room pass tokens that spell a
result, and give it. -/
structure Complete (room : Nat) : Prop where
  body : ∀ {p : Parser} {ts us : List Token} {stmts : List Stmt},
    p.Sees (ts ++ [.mark .closeBrace]) us → SpellsBody p.op ts stmts → 4 * ts.length < room →
      Gives (Parser.body room) p stmts us
  stmt : ∀ {p : Parser} {ts us : List Token} {s : Stmt},
    p.Sees ts us → SpellsStmt p.op ts s → (∀ t, us.head? = some t → Stops t) →
      4 * ts.length ≤ room → Gives (Parser.stmt room) p s us
  subgraph : ∀ {p : Parser} {ts us : List Token} {name : Option Id} {stmts : List Stmt},
    p.Sees ts us → SpellsSubgraph p.op ts name stmts → 4 * ts.length ≤ room + 4 →
      Gives (Parser.subgraph room) p (name, stmts) us
  hops : ∀ {p : Parser} {ts us : List Token} {hs : List (EdgeOp × Operand)},
    p.Sees ts us → SpellsHops p.op ts hs →
      (∀ t, us.head? = some t → t ≠ .mark .colon ∧ edgeOp? t = none) → 4 * ts.length < room →
      Gives (Parser.hops room) p hs us
  edges : ∀ {p : Parser} {ts us vs : List Token} {tail : Operand}
    {hs : List (EdgeOp × Operand)} {attrs : AttrList},
    p.Sees (ts ++ us) vs → SpellsHops p.op ts hs → SpellsAttrs us attrs →
      (∀ t, vs.head? = some t → Stops t) → 4 * (ts.length + us.length) + 1 < room →
      Gives (Parser.edges room tail) p (.edge tail hs attrs) vs

section Step
variable {room : Nat} {p : Parser} {ts us : List Token}

theorem body_gives (ih : Complete room) {stmts : List Stmt}
    (h : p.Sees (ts ++ [.mark .closeBrace]) us) (spelled : SpellsBody p.op ts stmts)
    (hr : 4 * ts.length < room + 1) : Gives (body (room + 1)) p stmts us := by
  unfold body
  refine gives_token ?_
  generalize hop : p.op = op at spelled
  cases spelled with
  | nil =>
      rw [h.current]
      exact gives_bind (advance_gives h (by simp)) fun q hq _ => gives_pure hq
  | semicolon rest =>
      rw [h.current]
      refine gives_bind (advance_gives h.first (by simp)) fun q hq ho => ?_
      refine ih.body (hq.to_append h.some_behind) ?_ (by simp at hr; omega)
      rw [ho, hop]
      exact rest
  | @cons ts us' first stmts stmt rest =>
      obtain ⟨t, ts, rfl, ht⟩ := spellsStmt_first stmt
      have hsees : p.Sees (t :: ts) (us' ++ .mark .closeBrace :: us) :=
        h.resplit (by simp) (by simp)
      simp only [List.length_append, List.length_cons] at hr
      have hstops : ∀ t', (us' ++ .mark .closeBrace :: us).head? = some t' → Stops t' := by
        intro t' ht'
        obtain ⟨_, _, he, hs⟩ := spellsBody_stops rest us
        rw [he] at ht'
        cases ht'
        exact hs
      have hfirst := ih.stmt hsees (hop ▸ stmt) hstops (by simp only [List.length_cons]; omega)
      have hall : Gives (do return (← Parser.stmt room) :: (← body room)) p (first :: stmts) us := by
        refine gives_bind hfirst fun q hq ho => ?_
        have hq : q.Sees (us' ++ [.mark .closeBrace]) us := hq.resplit (by simp) h.some_behind
        refine gives_bind (ih.body hq ?_ (by omega)) fun r hr _ => gives_pure hr
        rw [ho, hop]
        exact rest
      rw [hsees.current]
      cases ht <;> exact hall

/-- Behind the name of a node there is no equal sign. -/
theorem not_equal_behind_name {name : Id} {n : NodeId} (h : p.Sees ts us)
    (node : SpellsNodeId (.id name :: ts) n) (hu : us.head? ≠ some (.mark .equal)) :
    p.current.token ≠ .mark .equal := by
  intro he
  cases node with
  | bare => exact hu (h.head.trans (congrArg some he))
  | port => rw [h.current] at he; simp at he
  | compass => rw [h.current] at he; simp at he

/-- A statement that starts like a subgraph is one, or is an edge from it. -/
theorem stmt_of_subgraph {name : Option Id} {stmts : List Stmt} {s : Stmt} {vs : List Token}
    (spelled : SpellsSubgraph p.op ts name stmts) (h : p.Sees ts us)
    (hs : Gives (do
      let (name, body) ← subgraph room
      if (edgeOp? (← token)).isSome then
        return ← edges room (.subgraph name body)
      return .subgraph name body) p s vs) : Gives (stmt (room + 1)) p s vs := by
  unfold stmt
  refine gives_token ?_
  obtain ⟨t, ts, rfl, ht⟩ := spellsSubgraph_first spelled
  rw [h.current]
  rcases ht with ht | ht
  · subst ht; exact hs
  · subst ht; exact hs

theorem stmt_gives_node {vs : List Token} {n : NodeId} {attrs : AttrList}
    (h : p.Sees (ts ++ vs) us) (node : SpellsNodeId ts n) (lists : SpellsAttrs vs attrs)
    (hu : ∀ t, us.head? = some t → Stops t) (hroom : 4 * (ts ++ vs).length ≤ room + 1) :
    Gives (stmt (room + 1)) p (.node n attrs) us := by
  have hus := h.some_behind
  obtain ⟨name, ts, rfl⟩ := spellsNodeId_first node
  simp only [List.length_append, List.length_cons] at hroom
  have hbehind : ∀ t, (vs ++ us).head? = some t →
      t ≠ .mark .equal ∧ t ≠ .mark .colon ∧ edgeOp? t = none := by
    intro t ht
    rcases spellsAttrs_head lists ht with ht | ht
    · subst ht; exact ⟨by simp, by simp, rfl⟩
    · exact ⟨(hu t ht).not_equal, (hu t ht).not_colon, (hu t ht).not_op⟩
  unfold stmt
  refine gives_token ?_
  rw [h.current]
  refine gives_bind (advance_gives h.first (by simp)) fun q hq _ => ?_
  have hq : q.Sees ts (vs ++ us) := hq.resplit (by simp) (by simp [hus])
  refine gives_token ?_
  rw [if_neg (not_equal_behind_name hq node fun he => (hbehind _ he).1 rfl)]
  refine gives_bind (port_gives hq node fun he => (hbehind _ he).2.1 rfl) fun r hr _ => ?_
  refine gives_token ?_
  rw [if_neg (by rw [(hbehind _ hr.head).2.2]; simp)]
  exact gives_bind (attrLists_gives (hr.to_append hus) lists
    (fun he => (hu _ he).not_bracket rfl) (by omega)) fun s hs _ => gives_pure hs

/-- Hops start with an edge operator. -/
theorem edgeOp_before_hops {op : EdgeOp} {hs : List (EdgeOp × Operand)} {vs : List Token}
    (h : p.Sees (ts ++ vs) us) (heads : SpellsHops op ts hs) (some_hop : hs ≠ []) :
    (edgeOp? p.current.token).isSome = true := by
  obtain ⟨rest, rfl⟩ := spellsHops_first heads some_hop
  rw [h.current, edgeOp?_eq_some.2 rfl]
  rfl

theorem stmt_gives_edge (ih : Complete room) {vs ws : List Token} {tail : Operand}
    {hs : List (EdgeOp × Operand)} {attrs : AttrList} (h : p.Sees (ts ++ vs ++ ws) us)
    (operand : SpellsOperand p.op ts tail) (heads : SpellsHops p.op vs hs) (some_hop : hs ≠ [])
    (lists : SpellsAttrs ws attrs) (hu : ∀ t, us.head? = some t → Stops t)
    (hroom : 4 * (ts ++ vs ++ ws).length ≤ room + 1) :
    Gives (stmt (room + 1)) p (.edge tail hs attrs) us := by
  have hus := h.some_behind
  generalize hop : p.op = op at operand heads
  cases operand with
  | node node =>
      obtain ⟨rest, hfirst⟩ := spellsHops_first heads some_hop
      obtain ⟨name, ts, rfl⟩ := spellsNodeId_first node
      simp only [List.length_append, List.length_cons] at hroom
      unfold stmt
      refine gives_token ?_
      rw [h.current]
      refine gives_bind (advance_gives h.first (by simp)) fun q hq ho => ?_
      have hq : q.Sees ts (vs ++ ws ++ us) := hq.resplit (by simp) (by simp [hus])
      refine gives_token ?_
      rw [if_neg (not_equal_behind_name hq node (by cases op <;> simp [hfirst, EdgeOp.mark]))]
      refine gives_bind (port_gives hq node (by cases op <;> simp [hfirst, EdgeOp.mark]))
        fun r hr ho' => ?_
      have hr : r.Sees (vs ++ ws) us := hr.to_append hus
      refine gives_token ?_
      rw [if_pos (edgeOp_before_hops hr heads some_hop)]
      exact ih.edges hr (by rw [ho', ho, hop]; exact heads) lists hu (by omega)
  | @subgraph _ name stmts subgraph =>
      have hlen := spellsSubgraph_length subgraph
      simp only [List.length_append] at hroom
      have hsees : p.Sees ts (vs ++ ws ++ us) := h.resplit (by simp) (by simp [hus])
      refine stmt_of_subgraph (hop ▸ subgraph) hsees ?_
      refine gives_bind (ih.subgraph hsees (hop ▸ subgraph) (by omega)) fun r hr ho => ?_
      have hr : r.Sees (vs ++ ws) us := hr.to_append hus
      refine gives_token ?_
      rw [if_pos (edgeOp_before_hops hr heads some_hop)]
      exact ih.edges hr (by rw [ho, hop]; exact heads) lists hu (by omega)

theorem stmt_gives (ih : Complete room) {s : Stmt} (h : p.Sees ts us)
    (spelled : SpellsStmt p.op ts s) (hu : ∀ t, us.head? = some t → Stops t)
    (hroom : 4 * ts.length ≤ room + 1) : Gives (stmt (room + 1)) p s us := by
  have hus := h.some_behind
  generalize hop : p.op = op at spelled
  cases spelled with
  | assignment name value =>
      unfold stmt
      refine gives_token ?_
      rw [h.current]
      refine gives_bind (advance_gives h.first (by simp)) fun q hq _ => ?_
      have hq := hq.to_append hus
      refine gives_token ?_
      rw [if_pos hq.current]
      exact gives_bind (assigned_gives hq) fun r hr _ => gives_pure hr
  | node node lists => exact stmt_gives_node h node lists hu hroom
  | edge operand heads some_hop lists =>
      subst hop
      exact stmt_gives_edge ih h operand heads some_hop lists hu hroom
  | @defaults ts attrs element lists some_list =>
      simp only [List.length_cons] at hroom
      unfold stmt
      refine gives_token ?_
      rw [h.current]
      cases element <;>
        refine gives_bind (advance_gives h.first (by simp)) fun q hq _ => ?_ <;>
        refine gives_bind (attrList_gives (hq.to_append hus) lists some_list
          (fun he => (hu _ he).not_bracket rfl) (by omega)) fun r hr _ => gives_pure hr
  | @subgraph ts name stmts subgraph =>
      refine stmt_of_subgraph (hop ▸ subgraph) h ?_
      refine gives_bind (ih.subgraph h (hop ▸ subgraph) (by omega)) fun r hr _ => ?_
      refine gives_token ?_
      rw [if_neg (by rw [(hu _ hr.head).not_op]; simp)]
      exact gives_pure hr

theorem subgraph_gives (ih : Complete room) {name : Option Id} {stmts : List Stmt}
    (h : p.Sees ts us) (spelled : SpellsSubgraph p.op ts name stmts)
    (hroom : 4 * ts.length ≤ room + 1 + 4) : Gives (subgraph (room + 1)) p (name, stmts) us := by
  unfold subgraph
  refine gives_token ?_
  generalize hop : p.op = op at spelled
  cases spelled with
  | @bare ts _ body =>
      rw [if_neg (by rw [h.current]; simp)]
      refine gives_bind (mark_gives h.first) fun q hq ho => ?_
      refine gives_bind (ih.body (hq.to_append h.some_behind) ?_ (by simp at hroom; omega))
        fun r hr _ => gives_pure hr
      rw [ho, hop]
      exact body
  | @keyword ts _ name body =>
      rw [if_pos h.current]
      refine gives_bind (advance_gives h.first (by simp)) fun q hq ho => ?_
      have hq : q.Sees (name.toList.map .id) (.mark .openBrace :: (ts ++
          .mark .closeBrace :: us)) := hq.resplit (by simp) (by simp)
      refine gives_bind (name_gives hq (by simp)) fun r hr ho' => ?_
      have hr : r.Sees [.mark .openBrace] (ts ++ .mark .closeBrace :: us) :=
        hr.resplit (by simp) (by simp)
      refine gives_bind (mark_gives hr) fun s hs ho'' => ?_
      have hs : s.Sees (ts ++ [.mark .closeBrace]) us := hs.resplit (by simp) h.some_behind
      refine gives_bind (ih.body hs ?_ (by simp at hroom; omega)) fun t ht _ => gives_pure ht
      rw [ho'', ho', ho, hop]
      exact body

theorem hops_gives (ih : Complete room) {hs : List (EdgeOp × Operand)}
    (h : p.Sees ts us) (spelled : SpellsHops p.op ts hs)
    (hu : ∀ t, us.head? = some t → t ≠ .mark .colon ∧ edgeOp? t = none)
    (hroom : 4 * ts.length < room + 1) : Gives (hops (room + 1)) p hs us := by
  unfold hops
  refine gives_token ?_
  generalize hop : p.op = op at spelled
  cases spelled with
  | nil =>
      rw [(hu _ h.head).2]
      exact gives_pure h
  | @cons ts us' head hs operand rest =>
      simp only [List.length_cons, List.length_append] at hroom
      rw [h.current, edgeOp?_eq_some.2 rfl]
      have hc : Gives (checkOp op) p () (.mark op.mark :: (ts ++ (us' ++ us))) :=
        ⟨p, runs_checkOp.2 ⟨hop.symm, rfl⟩, h.resplit (by simp) (by simp), rfl⟩
      refine gives_bind hc fun q hq ho => ?_
      have hq : q.Sees [.mark op.mark] (ts ++ (us' ++ us)) :=
        hq.resplit rfl (by simp [h.some_behind])
      refine gives_bind (advance_gives hq (by simp)) fun r hr ho' => ?_
      have hr : r.Sees ts (us' ++ us) := hr.resplit rfl (by simp [h.some_behind])
      have hrop : r.op = op := by rw [ho', ho, hop]
      have hmore : ∀ s : Parser, s.Sees [] (us' ++ us) → s.op = r.op →
          Gives (do return (op, head) :: (← hops room)) s ((op, head) :: hs) us := by
        intro s hs ho''
        refine gives_bind (ih.hops (hs.to_append h.some_behind) ?_ hu (by omega))
          fun t ht _ => gives_pure ht
        rw [ho'', hrop]
        exact rest
      have hcolon : (us' ++ us).head? ≠ some (.mark .colon) := by
        cases rest with
        | nil => exact fun he => (hu _ he).1 rfl
        | cons => cases op <;> simp [EdgeOp.mark]
      refine gives_token ?_
      cases operand with
      | node node =>
          obtain ⟨name, ts, rfl⟩ := spellsNodeId_first node
          rw [if_neg (by rw [hr.current]; simp [startsSubgraph])]
          exact gives_bind (gives_map (nodeId_gives hr node hcolon)) hmore
      | subgraph subgraph =>
          have hstart : startsSubgraph r.current.token = true := by
            obtain ⟨t, ts, rfl, ht⟩ := spellsSubgraph_first subgraph
            rw [hr.current]
            rcases ht with ht | ht
            · rw [ht]; rfl
            · rw [ht]; rfl
          rw [if_pos hstart]
          refine gives_bind (ih.subgraph hr (hrop ▸ subgraph) (by omega)) fun s hs ho'' => ?_
          exact gives_bind (gives_pure hs) fun t ht ho3 => hmore t ht (ho3.trans ho'')

theorem edges_gives (ih : Complete room) {vs : List Token} {tail : Operand}
    {hs : List (EdgeOp × Operand)} {attrs : AttrList} (h : p.Sees (ts ++ us) vs)
    (heads : SpellsHops p.op ts hs) (lists : SpellsAttrs us attrs)
    (hv : ∀ t, vs.head? = some t → Stops t)
    (hroom : 4 * (ts.length + us.length) + 1 < room + 1) :
    Gives (edges (room + 1) tail) p (.edge tail hs attrs) vs := by
  unfold edges
  have hhead : ∀ t, (us ++ vs).head? = some t → t ≠ .mark .colon ∧ edgeOp? t = none := by
    intro t ht
    rcases spellsAttrs_head lists ht with ht | ht
    · subst ht; exact ⟨by simp, rfl⟩
    · exact ⟨(hv t ht).not_colon, (hv t ht).not_op⟩
  have hvs := h.some_behind
  have h : p.Sees ts (us ++ vs) := h.resplit (by simp) (by simp [hvs])
  refine gives_bind (ih.hops h heads hhead (by omega)) fun q hq _ => ?_
  refine gives_bind (attrLists_gives (hq.to_append hvs) lists
    (fun he => (hv _ he).not_bracket rfl) (by omega)) fun r hr _ => gives_pure hr

end Step

theorem complete_zero : Complete 0 := by
  constructor
  · intro p ts us stmts _ _ hr
    exact absurd hr (Nat.not_lt_zero _)
  · intro p ts us s _ spelled _ hr
    obtain ⟨t, rest, rfl, _⟩ := spellsStmt_first spelled
    simp at hr
  · intro p ts us name stmts _ spelled hr
    have hlen := spellsSubgraph_length spelled
    omega
  · intro p ts us hs _ _ _ hr
    exact absurd hr (Nat.not_lt_zero _)
  · intro p ts us vs tail hs attrs _ _ _ _ hr
    exact absurd hr (Nat.not_lt_zero _)

theorem complete (room : Nat) : Complete room := by
  induction room with
  | zero => exact complete_zero
  | succ room ih =>
      exact ⟨body_gives ih, stmt_gives ih, subgraph_gives ih, hops_gives ih, edges_gives ih⟩

/-! ## Graphs and files -/

/-- The tokens of a graph start with `strict` or the keyword of a kind. -/
theorem spellsTree_first {ts : List Token} {tree : Tree} (h : SpellsTree ts tree) :
    ∃ t rest, ts = t :: rest ∧ t ≠ .finish := by
  cases h with
  | mk strict kind name body =>
      cases strict with
      | true => exact ⟨_, _, rfl, by simp⟩
      | false => exact ⟨_, _, rfl, by simp⟩

/-- A file has at least two tokens, and starts with those of a graph. -/
theorem spellsFile_first {ts : List Token} {trees : List Tree} (h : SpellsFile ts trees) :
    ∃ t rest, ts = t :: rest ∧ t ≠ .finish := by
  cases h with
  | one tree =>
      obtain ⟨t, rest, rfl, ht⟩ := spellsTree_first tree
      exact ⟨t, _, rfl, ht⟩
  | cons tree _ =>
      obtain ⟨t, rest, rfl, ht⟩ := spellsTree_first tree
      exact ⟨t, _, rfl, ht⟩

theorem graph_gives (room : Nat) {p : Parser} {ts us : List Token} {tree : Tree}
    (h : p.Sees ts us) (spelled : SpellsTree ts tree) (hr : 4 * ts.length < room) :
    ∃ q, Runs (graph room) p tree q ∧ q.Sees [] us := by
  have hus := h.some_behind
  cases spelled with
  | @mk ts stmts strict kind name body =>
      simp only [List.length_append, List.length_cons] at hr
      obtain ⟨p', hp', h'⟩ : ∃ p' : Parser,
          (if strict then p.current.token = .keyword .strict ∧ p.Next p'
            else p.current.token ≠ .keyword .strict ∧ p' = p) ∧
          p'.Sees (.keyword kind.keyword :: (name.toList.map .id ++ .mark .openBrace ::
            (ts ++ [.mark .closeBrace]))) us := by
        cases strict with
        | true =>
            obtain ⟨p', hn, hs, _⟩ := h.next (by simp)
            exact ⟨p', ⟨h.current, hn⟩, hs⟩
        | false =>
            refine ⟨p, ⟨?_, rfl⟩, h⟩
            rw [h.current]
            cases kind <;> simp [GraphKind.keyword]
      -- From the keyword on the parser knows the direction.
      have hd : Sees ⟨p'.current, p'.rest, kind.isDirected⟩ (.keyword kind.keyword ::
          (name.toList.map .id ++ .mark .openBrace :: (ts ++ [.mark .closeBrace]))) us :=
        ⟨h'.tokens, h'.some_behind, h'.faultless⟩
      obtain ⟨p1, h1, hs1, ho1⟩ := hd.next (by simp)
      have hs1 : p1.Sees (name.toList.map .id) (.mark .openBrace :: (ts ++
          .mark .closeBrace :: us)) := hs1.resplit (by simp) (by simp)
      obtain ⟨p2, h2, hs2, ho2⟩ := name_gives hs1 (by simp)
      have hs2 : p2.Sees (.mark .openBrace :: (ts ++ [.mark .closeBrace])) us :=
        hs2.resplit (by simp) hus
      obtain ⟨p3, h3, hs3, ho3⟩ := hs2.next (by simp)
      have hop : p3.op = kind.edgeOp := by
        rw [ho3, ho2, ho1]
        cases kind <;> rfl
      obtain ⟨q, hq, hsq, _⟩ := (complete room).body hs3 (hop ▸ body) (by omega)
      exact ⟨q, runs_graph.2 ⟨strict, kind, p', hp', h'.current, runs_ofKind.2
        ⟨name, stmts, p1, p2, p3, h1, h2, hs2.current, h3, hq, rfl⟩⟩, hsq⟩

/-- The end of the text stands behind the graphs of a file. -/
theorem spellsFile_last {ts : List Token} {trees : List Tree} (h : SpellsFile ts trees) :
    ∃ us, ts = us ++ [.finish] := by
  induction h with
  | one tree => exact ⟨_, rfl⟩
  | cons tree _ ih =>
      obtain ⟨us, rfl⟩ := ih
      exact ⟨_, (List.append_assoc _ _ _).symm⟩

theorem graphs_gives_nil {room : Nat} {p : Parser} (h : p.Sees [] [.finish]) :
    Runs (graphs (room + 1)) p [] p := by
  unfold graphs
  rw [runs_token_bind]
  have hc : Token.finish = p.current.token := Option.some.inj h.head
  rw [if_pos hc.symm]
  exact runs_pure.2 ⟨rfl, rfl⟩

theorem graphs_gives_cons {room : Nat} {p q r : Parser} {ts us : List Token} {tree : Tree}
    {trees : List Tree} (h : p.Sees ts us) (spelled : SpellsTree ts tree)
    (hg : Runs (graph room) p tree q) (hm : Runs (graphs room) q trees r) :
    Runs (graphs (room + 1)) p (tree :: trees) r := by
  obtain ⟨t, rest, rfl, ht⟩ := spellsTree_first spelled
  unfold graphs
  rw [runs_token_bind, if_neg (by rw [h.current]; exact ht)]
  refine runs_bind.2 ⟨tree, q, hg, runs_bind.2 ⟨trees, r, hm, runs_pure.2 ⟨rfl, rfl⟩⟩⟩

theorem graphs_gives (room : Nat) {p : Parser} {ts us : List Token} {trees : List Tree}
    (h : p.Sees ts [.finish]) (he : us = ts ++ [.finish]) (spelled : SpellsFile us trees)
    (hr : 4 * ts.length + 1 < room) : ∃ q, Runs (graphs room) p trees q := by
  induction spelled generalizing p ts room with
  | one tree =>
      obtain ⟨rfl, _⟩ := List.append_inj' he rfl
      obtain ⟨room, rfl⟩ := Nat.exists_eq_add_of_lt (Nat.zero_lt_of_lt hr)
      rw [Nat.zero_add] at hr ⊢
      obtain ⟨q, hq, hs⟩ := graph_gives room h tree (by omega)
      cases room with
      | zero => omega
      | succ room => exact ⟨q, graphs_gives_cons h tree hq (graphs_gives_nil hs)⟩
  | @cons ts' us tree trees spelled rest ih =>
      obtain ⟨us, rfl⟩ := spellsFile_last rest
      rw [← List.append_assoc] at he
      obtain ⟨rfl, _⟩ := List.append_inj' he rfl
      obtain ⟨room, rfl⟩ := Nat.exists_eq_add_of_lt (Nat.zero_lt_of_lt hr)
      rw [Nat.zero_add] at hr ⊢
      have hlen : 0 < ts'.length := by
        obtain ⟨t, ts, rfl, _⟩ := spellsTree_first spelled
        simp
      have hsees : p.Sees ts' (us ++ [.finish]) := h.resplit (by simp) (by simp)
      rw [List.length_append] at hr
      obtain ⟨q, hq, hs⟩ := graph_gives room hsees spelled (by omega)
      obtain ⟨r, hm⟩ := ih room (hs.resplit rfl (by simp)) rfl (by omega)
      exact ⟨r, graphs_gives_cons hsees spelled hq hm⟩

/-- The step for a file gives the graphs that the tokens ahead spell. -/
theorem file_gives {room : Nat} {p : Parser} {trees : List Tree}
    (hc : p.current.token ≠ .finish) (clean : Faultless p.tokens)
    (spelled : SpellsFile (p.rest.map Lexeme.token) trees) (hr : 4 * p.rest.length < room) :
    ∃ q, Runs (file room) p trees q := by
  have hlen : (p.rest.map Lexeme.token).length = p.rest.length := List.length_map _
  obtain ⟨t, rest, hrest, ht⟩ := spellsFile_first spelled
  obtain ⟨us, hus⟩ := spellsFile_last spelled
  have hsees : p.Sees [p.current.token] (us ++ [.finish]) := by
    refine ⟨?_, by simp, ?_⟩
    · rw [← hus]
      rfl
    · rw [← hus]
      exact clean
  obtain ⟨q, hn, hs, _⟩ := hsees.next hc
  have hq : q.current.token = t := by
    have hs := hs.head
    rw [← hus, hrest] at hs
    exact (Option.some.inj hs).symm
  rw [hus] at hlen spelled
  rw [List.length_append, List.length_singleton] at hlen
  -- A file is graphs of which the first is not the end of the text.
  obtain ⟨r, hg⟩ := graphs_gives (room + 1) (hs.resplit rfl (by simp)) rfl spelled (by omega)
  unfold graphs at hg
  rw [runs_token_bind, if_neg (by rw [hq]; exact ht)] at hg
  exact ⟨r, runs_bind.2 ⟨(), q, runs_advance.2 hn, hg⟩⟩

end DotLang.Parser
