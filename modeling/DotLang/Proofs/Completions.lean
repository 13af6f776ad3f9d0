import DotLang.Proofs.ParserLocality
/-!
# Where the parser fails, it might have gone on

The parser checks every token that it has in hand before it takes another one.  So
the tokens that it has passed when it fails are the beginning of a file: a few
tokens complete them.  The completing tokens are taken from a small stock
(`Filler`), so that they can be written later.

`Completes N ts` says that such tokens complete `ts` to a sequence of the set `N`,
and `Leads N x p` that the step `x` has passed tokens of this kind wherever it fails.
The step of a part of the grammar leads to the sequences of that part.  Inside a
larger part it leads on because what it completes is itself completed
(`Leads.mono`), and behind tokens that were passed the set is what may follow them
(`Leads.bind`).  So each step of the parser asks for one way to end the grammar's
constructor that it is at.

The internal failure at the end of the tokens is met only with a token in hand that
is not the end of the text.
-/

namespace DotLang.Parser

/-! ## Completing tokens -/

/-- An ID that may stand wherever an ID may. -/
def anyId : Id := .plain "a"

/-- The tokens that sequences are completed with. -/
inductive Filler : Token → Prop
  | id : Filler (.id anyId)
  | keyword (k : Keyword) : Filler (.keyword k)
  | mark (m : Mark) : Filler (.mark m)

attribute [simp] Filler.id Filler.keyword Filler.mark

/-- Fillers behind the tokens make them a sequence of `N`. -/
def Completes (N : List Token → Prop) (ts : List Token) : Prop :=
  ∃ us, (∀ t ∈ us, Filler t) ∧ N (ts ++ us)

section Completes
variable {N M : List Token → Prop} {ts us : List Token} {t : Token}

theorem Completes.more (us : List Token) (fill : ∀ t ∈ us, Filler t) (h : N (ts ++ us)) :
    Completes N ts := ⟨us, fill, h⟩

theorem Completes.of (h : N ts) : Completes N ts :=
  .more [] (by simp) (by rwa [List.append_nil])

/-- Before a filler the tokens can be completed if they can be behind it. -/
theorem Completes.before (fill : Filler t) (h : Completes N [t]) : Completes N [] := by
  obtain ⟨us, hus, h⟩ := h
  exact .more (t :: us) (List.forall_mem_cons.2 ⟨fill, hus⟩) h

/-- What is completed can be completed further. -/
theorem Completes.trans (h : Completes M ts) (hM : ∀ us, M us → Completes N us) :
    Completes N ts := by
  obtain ⟨us, hus, h⟩ := h
  obtain ⟨vs, hvs, h⟩ := hM _ h
  refine .more (us ++ vs) (List.forall_mem_append.2 ⟨hus, hvs⟩) ?_
  rwa [← List.append_assoc]

end Completes

/-! ## Steps that lead on -/

/-- Where the step fails, it has no token left, and the one in hand is not the end of
the text, or it has passed tokens that can be completed. -/
def Leads {α : Type} (N : List Token → Prop) (x : Parse α) (p : Parser) : Prop :=
  ∀ e q, x p = .error e q → (q.rest = [] ∧ q.current.token ≠ .finish) ∨
    e.reason ≠ .pastEnd ∧ ∃ ts, p.tokens = ts ++ q.tokens ∧ Completes N ts

section Leads
variable {α β : Type} {N M : List Token → Prop} {p : Parser}

theorem Leads.pure (a : α) : Leads N (pure a) p := by
  intro e q h
  cases h

/-- A part of the grammar leads on in a larger one. -/
theorem Leads.mono {x : Parse α} (h : Leads M x p) (hM : ∀ us, M us → Completes N us) :
    Leads N x p := by
  intro e q he
  rcases h e q he with hend | ⟨hr, ts, hts, hc⟩
  · exact Or.inl hend
  · exact Or.inr ⟨hr, ts, hts, hc.trans hM⟩

theorem Leads.bind {x : Parse α} {f : α → Parse β} (hx : Leads N x p)
    (hf : ∀ a q, Runs x p a q →
      ∃ ts, p.tokens = ts ++ q.tokens ∧ Leads (fun us => N (ts ++ us)) (f a) q) :
    Leads N (x >>= f) p := by
  intro e r h
  cases hp : x p with
  | error e' q =>
      rw [bind_of_error hp] at h
      cases h
      exact hx _ _ hp
  | ok a q =>
      rw [bind_of_ok hp] at h
      obtain ⟨ts, hts, hf⟩ := hf a q hp
      rcases hf e r h with hend | ⟨hr, us, hus, vs, hvs, hN⟩
      · exact Or.inl hend
      · refine Or.inr ⟨hr, ts ++ us, by rw [hts, hus, List.append_assoc], .more vs hvs ?_⟩
        rwa [List.append_assoc]

/-- Nothing is passed behind the last step that can fail. -/
theorem Leads.bind_pure {x : Parse α} (f : α → β) (hx : Leads N x p) :
    Leads N (x >>= fun a => Pure.pure (f a)) p := by
  intro e q h
  cases hp : x p with
  | error e' q' =>
      rw [bind_of_error hp] at h
      cases h
      exact hx _ _ hp
  | ok a q' =>
      rw [bind_of_ok hp] at h
      cases h

theorem Leads.token {f : Token → Parse β} (h : Leads N (f p.current.token) p) :
    Leads N (Parser.token >>= f) p := h

theorem Leads.fail {reason : SyntaxReason} (hr : reason ≠ .pastEnd) (h : Completes N []) :
    Leads (α := α) N (fail reason) p := by
  intro e q he
  cases he
  exact Or.inr ⟨hr, [], rfl, h⟩

theorem Leads.unexpected (what : Expected) (h : Completes N []) :
    Leads (α := α) N (unexpected what) p := .token (.fail (by simp) h)

/-! ## Single tokens -/

theorem Next.tokens {q : Parser} (h : p.Next q) : p.tokens = p.current.token :: q.tokens := by
  simp [Parser.tokens, h.rest]

theorem Next.op {q : Parser} (h : p.Next q) : q.op = p.op := (h.passes rfl).op

theorem Leads.advance (hc : p.current.token ≠ .finish) (h : Completes N [p.current.token]) :
    Leads N advance p := by
  obtain ⟨c, rest, d⟩ := p
  intro e q he
  cases rest with
  | nil =>
      rw [advance_of_nil hc] at he
      cases he
      exact Or.inl ⟨rfl, hc⟩
  | cons l rest =>
      rw [advance_of_cons hc] at he
      split at he
      · cases he
        exact Or.inr ⟨by simp, [c.token], rfl, h⟩
      · cases he

theorem Leads.advance_bind {f : Unit → Parse β} {t : Token} (ht : p.current.token = t)
    (hn : t ≠ .finish) (h : Completes N [t])
    (hf : ∀ q, p.Next q → Leads (fun us => N (t :: us)) (f ()) q) :
    Leads N (Parser.advance >>= f) p := by
  subst ht
  refine (Leads.advance hn h).bind fun _ q hq => ?_
  have hnext := runs_advance.1 hq
  exact ⟨[p.current.token], hnext.tokens, hf q hnext⟩

theorem Leads.mark (m : Mark) (h : Completes N [.mark m]) : Leads N (mark m) p := by
  refine .token ?_
  split
  · next hm => exact .advance (by simp [hm]) (hm ▸ h)
  · exact .unexpected _ (h.before (.mark m))

theorem Leads.mark_bind {f : Unit → Parse β} (m : Mark) (h : Completes N [.mark m])
    (hf : ∀ q, p.Next q → Leads (fun us => N (.mark m :: us)) (f ()) q) :
    Leads N (Parser.mark m >>= f) p := by
  refine (Leads.mark m h).bind fun _ q hq => ?_
  obtain ⟨hm, hnext⟩ := runs_mark.1 hq
  exact ⟨[.mark m], hm ▸ hnext.tokens, hf q hnext⟩

theorem Leads.id (what : Expected) (h : ∀ i, Completes N [.id i]) : Leads N (id what) p := by
  refine .token ?_
  split
  · next i hi => exact .advance_bind hi (by simp) (h i) fun _ _ => .pure i
  · exact .unexpected _ ((h anyId).before .id)

theorem Leads.id_bind {f : Id → Parse β} (what : Expected) (h : ∀ i, Completes N [.id i])
    (hf : ∀ i q, p.Next q → Leads (fun us => N (.id i :: us)) (f i) q) :
    Leads N (Parser.id what >>= f) p := by
  refine (Leads.id what h).bind fun i q hq => ?_
  obtain ⟨hi, hnext⟩ := runs_id.1 hq
  exact ⟨[.id i], hi ▸ hnext.tokens, hf i q hnext⟩

/-- A name that may be missing. -/
theorem Leads.name_bind {f : Option Id → Parse β} (h : ∀ i, Completes N [.id i])
    (hf : ∀ name q, p.Passes (name.toList.map .id) q →
      Leads (fun us => N (name.toList.map .id ++ us)) (f name) q) :
    Leads N (Parser.id? >>= f) p := by
  refine Leads.bind ?_ fun name q hq => ?_
  · refine .token ?_
    split
    · next i hi => exact .advance_bind hi (by simp) (h i) fun _ _ => .pure _
    · exact .pure _
  · have hp := name_sound hq
    exact ⟨_, hp.tokens, hf name q hp⟩

end Leads

/-! ## Nodes and attributes -/

/-- What may stand behind the name of a node. -/
def IsPort (name : Id) (ts : List Token) : Prop := ∃ n, SpellsNodeId (.id name :: ts) n

def IsNodeId (ts : List Token) : Prop := ∃ n, SpellsNodeId ts n

/-- An equal sign and a value. -/
def IsAssigned (ts : List Token) : Prop := ∃ i, ts = [.mark .equal, .id i]

/-- Entries and the closing bracket behind them. -/
def IsEntries (ts : List Token) : Prop :=
  ∃ us attrs, ts = us ++ [.mark .closeBracket] ∧ SpellsEntries us attrs

def IsAttrs (ts : List Token) : Prop := ∃ attrs, SpellsAttrs ts attrs

section Nodes
variable {p : Parser} {ts us : List Token}

theorem IsEntries.nil : IsEntries [.mark .closeBracket] := ⟨[], [], rfl, .nil⟩

theorem IsEntries.cons {sep : List Token} (name value : Id) (hs : SpellsSeparator sep)
    (h : IsEntries ts) :
    IsEntries (.id name :: .mark .equal :: .id value :: (sep ++ ts)) := by
  obtain ⟨us, attrs, rfl, h⟩ := h
  have entry : SpellsEntries (.id name :: .mark .equal :: .id value :: (sep ++ us)) _ := .cons hs h
  exact ⟨_, _, by simp, entry⟩

theorem IsAttrs.nil : IsAttrs [] := ⟨[], .nil⟩

theorem IsAttrs.cons (h : IsEntries ts) (h' : IsAttrs us) :
    IsAttrs (.mark .openBracket :: (ts ++ us)) := by
  obtain ⟨ts, attrs, rfl, h⟩ := h
  obtain ⟨more, h'⟩ := h'
  exact ⟨_, by simpa using SpellsAttrs.cons h h'⟩

/-- One list. -/
theorem IsAttrs.one (h : IsEntries ts) : IsAttrs (.mark .openBracket :: ts) := by
  simpa using IsAttrs.cons h .nil

theorem Leads.port (name : Id) : Leads (IsPort name) (port name) p := by
  refine .token ?_
  split
  · next hc =>
      refine .advance_bind hc (by simp) (.more [.id anyId] (by simp) ⟨_, .port name anyId⟩)
        fun q _ => ?_
      refine .id_bind _ (fun i => .of ⟨_, .port name i⟩) fun i r _ => .token ?_
      split
      · next hc' =>
          refine .advance_bind hc' (by simp)
            (.more [.id anyId] (by simp) ⟨_, .compass name i anyId⟩) fun s _ => ?_
          exact .id_bind _ (fun j => .of ⟨_, .compass name i j⟩) fun j _ _ => .pure _
      · exact .pure _
  · exact .pure _

theorem Leads.nodeId : Leads IsNodeId nodeId p :=
  .id_bind _ (fun name => .of ⟨_, .bare name⟩) fun name _ _ => .port name

theorem Leads.assigned : Leads IsAssigned assigned p := by
  refine .mark_bind _ (.more [.id anyId] (by simp) ⟨anyId, rfl⟩) fun _ _ => ?_
  exact .id _ fun i => .of ⟨i, rfl⟩

theorem Leads.assignment (name : Id) : Leads IsAssigned (assignment name) p :=
  .bind_pure _ .assigned

theorem Leads.separator : Leads SpellsSeparator separator p := by
  refine .token ?_
  split
  · next hs =>
      rcases hs with hs | hs
      · exact .advance (by simp [hs]) (hs ▸ .of .semicolon)
      · exact .advance (by simp [hs]) (hs ▸ .of .comma)
  · exact .pure _

theorem Leads.entries (room : Nat) : Leads IsEntries (entries room) p := by
  induction room generalizing p with
  | zero => exact .unexpected _ (.more [.mark .closeBracket] (by simp) .nil)
  | succ room ih =>
      refine .token ?_
      split
      · next hc => exact .advance_bind hc (by simp) (.of .nil) fun _ _ => .pure _
      · refine .id_bind _ (fun name => .more [.mark .equal, .id anyId, .mark .closeBracket]
          (by simp) (.cons name anyId .nothing .nil)) fun name q _ => ?_
        refine Leads.bind (Leads.assigned.mono ?_) fun value r hr => ?_
        · rintro us ⟨value, rfl⟩
          exact .more [.mark .closeBracket] (by simp) (.cons name value .nothing .nil)
        refine ⟨_, (assigned_sound hr).tokens, ?_⟩
        refine Leads.bind (Leads.separator.mono fun sep hsep => ?_) fun _ s hs => ?_
        · exact .more [.mark .closeBracket] (by simp)
            (by simpa using IsEntries.cons name value hsep .nil)
        obtain ⟨sep, hp, hsep⟩ := separator_sound hs
        refine ⟨sep, hp.tokens, .bind_pure _ (ih.mono fun us h => .of ?_)⟩
        simpa using IsEntries.cons name value hsep h

theorem Leads.attrLists (room : Nat) : Leads IsAttrs (attrLists room) p := by
  induction room generalizing p with
  | zero => exact .unexpected _ (.of .nil)
  | succ room ih =>
      refine .token ?_
      split
      · next hb =>
          refine .advance_bind hb (by simp) (.more [.mark .closeBracket] (by simp) (.one .nil))
            fun q _ => ?_
          refine Leads.bind ((Leads.entries room).mono fun us h => .of (.one h)) fun first r hr => ?_
          obtain ⟨ts, hp, spelled⟩ := entries_sound hr
          exact ⟨_, hp.tokens, .bind_pure _ (ih.mono fun us h => .of (.cons ⟨ts, _, rfl, spelled⟩ h))⟩
      · exact .pure _

/-- A list at least. -/
theorem Leads.attrList (room : Nat) : Leads (fun ts => IsAttrs ts ∧ ts ≠ []) (attrList room) p := by
  have empty : Completes (fun ts => IsAttrs ts ∧ ts ≠ []) [] :=
    .more [.mark .openBracket, .mark .closeBracket] (by simp) ⟨.one .nil, List.cons_ne_nil _ _⟩
  refine .token ?_
  split
  · refine (Leads.attrLists room).mono fun us h => ?_
    cases us with
    | nil => exact empty
    | cons t us => exact .of ⟨h, List.cons_ne_nil _ _⟩
  · exact .unexpected _ empty

end Nodes

/-! ## Statements -/

/-- The statements of a body and the closing brace behind them. -/
def IsBody (op : EdgeOp) (ts : List Token) : Prop :=
  ∃ us stmts, ts = us ++ [.mark .closeBrace] ∧ SpellsBody op us stmts

def IsStmt (op : EdgeOp) (ts : List Token) : Prop := ∃ s, SpellsStmt op ts s

def IsSubgraph (op : EdgeOp) (ts : List Token) : Prop := ∃ name stmts, SpellsSubgraph op ts name stmts

def IsHops (op : EdgeOp) (ts : List Token) : Prop := ∃ hs, SpellsHops op ts hs

/-- What stands behind the first operand of an edge. -/
def IsEdges (op : EdgeOp) (ts : List Token) : Prop :=
  ∃ us vs hs, ts = us ++ vs ∧ SpellsHops op us hs ∧ hs ≠ [] ∧ IsAttrs vs

section Statements
variable {op : EdgeOp} {ts us : List Token}

theorem IsBody.nil : IsBody op [.mark .closeBrace] := ⟨[], [], rfl, .nil⟩

theorem IsBody.semicolon (h : IsBody op ts) : IsBody op (.mark .semicolon :: ts) := by
  obtain ⟨us, stmts, rfl, h⟩ := h
  exact ⟨_, _, rfl, .semicolon h⟩

theorem IsBody.cons (h : IsStmt op ts) (h' : IsBody op us) : IsBody op (ts ++ us) := by
  obtain ⟨s, h⟩ := h
  obtain ⟨us, stmts, rfl, h'⟩ := h'
  exact ⟨_, _, by simp, .cons h h'⟩

theorem IsStmt.node {n : NodeId} (h : SpellsNodeId ts n) (h' : IsAttrs us) :
    IsStmt op (ts ++ us) := by
  obtain ⟨attrs, h'⟩ := h'
  exact ⟨_, .node h h'⟩

theorem IsStmt.node_bare {n : NodeId} (h : SpellsNodeId ts n) : IsStmt op ts := by
  simpa using IsStmt.node h .nil

theorem IsStmt.edges {tail : Operand} (h : SpellsOperand op ts tail) (h' : IsEdges op us) :
    IsStmt op (ts ++ us) := by
  obtain ⟨us, vs, hs, rfl, heads, hne, attrs, lists⟩ := h'
  exact ⟨_, by simpa using SpellsStmt.edge h heads hne lists⟩

theorem IsStmt.defaults (element : Element) (h : IsAttrs ts) (hne : ts ≠ []) :
    IsStmt op (.keyword element.keyword :: ts) := by
  obtain ⟨attrs, h⟩ := h
  exact ⟨_, .defaults element h hne⟩

theorem IsSubgraph.bare (h : IsBody op ts) : IsSubgraph op (.mark .openBrace :: ts) := by
  obtain ⟨us, stmts, rfl, h⟩ := h
  exact ⟨_, _, .bare h⟩

theorem IsSubgraph.keyword (name : Option Id) (h : IsBody op ts) :
    IsSubgraph op (.keyword .subgraph :: (name.toList.map .id ++ .mark .openBrace :: ts)) := by
  obtain ⟨us, stmts, rfl, h⟩ := h
  exact ⟨_, _, .keyword name h⟩

theorem IsHops.cons {head : Operand} (h : SpellsOperand op ts head) (h' : IsHops op us) :
    IsHops op (.mark op.mark :: (ts ++ us)) := by
  obtain ⟨hs, h'⟩ := h'
  exact ⟨_, .cons h h'⟩

theorem IsHops.one {head : Operand} (h : SpellsOperand op ts head) :
    IsHops op (.mark op.mark :: ts) := by
  simpa using IsHops.cons h ⟨[], .nil⟩

/-- No attribute list behind the hops. -/
theorem IsEdges.one {head : Operand} {hs : List (EdgeOp × Operand)}
    (h : SpellsOperand op ts head) (h' : SpellsHops op us hs) :
    IsEdges op (.mark op.mark :: (ts ++ us)) :=
  ⟨_, [], _, (List.append_nil _).symm, .cons h h', List.cons_ne_nil _ _, .nil⟩

end Statements

/-- The steps of statements with that much room lead to statements of a graph with
the operator. -/
structure AllLead (room : Nat) : Prop where
  body : ∀ {p : Parser}, Leads (IsBody p.op) (Parser.body room) p
  stmt : ∀ {p : Parser}, Leads (IsStmt p.op) (Parser.stmt room) p
  subgraph : ∀ {p : Parser}, Leads (IsSubgraph p.op) (Parser.subgraph room) p
  hops : ∀ {p : Parser}, Leads (IsHops p.op) (Parser.hops room) p
  /-- There is a hop, as an operator is in hand. -/
  edges : ∀ {p : Parser} (tail : Operand), (edgeOp? p.current.token).isSome →
    Leads (IsEdges p.op) (Parser.edges room tail) p

section Step
variable {room : Nat} {p : Parser} {op : EdgeOp}

theorem completes_body : Completes (IsBody op) [] := .more [.mark .closeBrace] (by simp) .nil

theorem completes_stmt : Completes (IsStmt op) [] :=
  .more [.id anyId] (by simp) (.node_bare (.bare anyId))

theorem completes_subgraph : Completes (IsSubgraph op) [] :=
  .more [.mark .openBrace, .mark .closeBrace] (by simp) (.bare .nil)

theorem completes_edges : Completes (IsEdges op) [] := by
  have head : SpellsOperand op [.id anyId] _ := .node (.bare anyId)
  exact .more [.mark op.mark, .id anyId] (by simp) (.one head .nil)

theorem allLead_zero : AllLead 0 where
  body := by
    unfold Parser.body
    exact .unexpected _ completes_body
  stmt := by
    unfold Parser.stmt
    exact .unexpected _ completes_stmt
  subgraph := by
    unfold Parser.subgraph
    exact .unexpected _ completes_subgraph
  hops := by
    unfold Parser.hops
    exact .unexpected _ (.of ⟨[], .nil⟩)
  edges _ _ := by
    unfold Parser.edges
    exact .unexpected _ completes_edges

theorem body_leads (ih : AllLead room) : Leads (IsBody p.op) (body (room + 1)) p := by
  unfold body
  refine .token ?_
  split
  · next hs =>
      refine .advance_bind hs (by simp) (.more [.mark .closeBrace] (by simp) (.semicolon .nil))
        fun q hq => ?_
      rw [← hq.op]
      exact ih.body.mono fun us h => .of h.semicolon
  · next hc => exact .advance_bind hc (by simp) (.of .nil) fun _ _ => .pure _
  · exact .unexpected _ completes_body
  · refine Leads.bind (ih.stmt.mono fun us h => ?_) fun first q hq => ?_
    · exact .more [.mark .closeBrace] (by simp) (.cons h .nil)
    · obtain ⟨ts, hp, spelled⟩ := (sound room).stmt hq
      refine ⟨ts, hp.tokens, .bind_pure _ (ih.body.mono fun us h => .of ?_)⟩
      rw [hp.op] at h
      exact .cons ⟨first, spelled⟩ h

theorem stmt_leads (ih : AllLead room) : Leads (IsStmt p.op) (stmt (room + 1)) p := by
  unfold stmt
  refine .token ?_
  split
  · next name hn =>
      refine .advance_bind hn (by simp) (.of (.node_bare (.bare name))) fun q hq => .token ?_
      split
      · refine (Leads.assignment name).mono ?_
        rintro us ⟨value, rfl⟩
        exact .of ⟨_, .assignment name value⟩
      · refine Leads.bind ((Leads.port name).mono ?_) fun n r hr => ?_
        · rintro us ⟨n, h⟩
          exact .of (.node_bare h)
        · obtain ⟨ts, hp, node⟩ := port_sound hr
          refine ⟨ts, hp.tokens, .token ?_⟩
          split
          · next ho =>
              refine (ih.edges _ ho).mono fun us h => .of ?_
              rw [hp.op, hq.op] at h
              exact .edges (.node node) h
          · exact .bind_pure _ ((Leads.attrLists room).mono fun us h => .of (.node node h))
  · split
    · refine Leads.bind (ih.subgraph.mono ?_) fun b q hq => ?_
      · rintro us ⟨name, stmts, h⟩
        exact .of ⟨_, .subgraph h⟩
      · obtain ⟨name, stmts⟩ := b
        obtain ⟨ts, hp, spelled⟩ := (sound room).subgraph hq
        refine ⟨ts, hp.tokens, .token ?_⟩
        split
        · next ho =>
            refine (ih.edges _ ho).mono fun us h => .of ?_
            rw [hp.op] at h
            exact .edges (.subgraph spelled) h
        · exact .pure _
    · split
      · next element he =>
          refine .advance_bind (element?_eq_some.1 he) (by simp) ?_ fun q _ => ?_
          · exact .more [.mark .openBracket, .mark .closeBracket] (by simp)
              (.defaults element (.one .nil) (List.cons_ne_nil _ _))
          · exact .bind_pure _ ((Leads.attrList room).mono fun us h =>
              .of (.defaults element h.1 h.2))
      · exact .unexpected _ completes_stmt

theorem subgraph_leads (ih : AllLead room) : Leads (IsSubgraph p.op) (subgraph (room + 1)) p := by
  unfold subgraph
  refine .token ?_
  split
  · next hk =>
      have fill : ∀ t ∈ [Token.mark .openBrace, .mark .closeBrace], Filler t := by simp
      refine .advance_bind hk (by simp) (.more _ fill (.keyword none .nil)) fun q hq => ?_
      refine .name_bind (fun i => .more _ fill (.keyword (some i) .nil)) fun name r hr => ?_
      refine .mark_bind _ (.more [.mark .closeBrace] (by simp) ?_) fun s hs => ?_
      · simpa using IsSubgraph.keyword name .nil
      · refine .bind_pure _ (ih.body.mono fun us h => .of ?_)
        rw [hs.op, hr.op, hq.op] at h
        exact .keyword name h
  · refine .mark_bind _ (.more [.mark .closeBrace] (by simp) (.bare .nil)) fun q hq => ?_
    refine .bind_pure _ (ih.body.mono fun us h => .of ?_)
    rw [hq.op] at h
    exact .bare h

/-- A wrong operator stands where no hop is needed. -/
theorem Leads.checkOp (op' : EdgeOp) : Leads (IsHops op) (checkOp op') p := by
  have stop : Completes (IsHops op) [] := .of ⟨[], .nil⟩
  obtain ⟨c, rest, directed⟩ := p
  cases op' with
  | arrow =>
      cases directed with
      | false => exact .fail (by simp) stop
      | true => exact .pure ()
  | line =>
      cases directed with
      | false => exact .pure ()
      | true => exact .fail (by simp) stop

theorem hops_leads (ih : AllLead room) : Leads (IsHops p.op) (hops (room + 1)) p := by
  unfold hops
  refine .token ?_
  split
  · exact .pure _
  · next op ho =>
      refine Leads.bind (.checkOp op) fun _ q hq => ?_
      obtain ⟨rfl, rfl⟩ := runs_checkOp.1 hq
      refine ⟨[], rfl, .advance_bind (edgeOp?_eq_some.1 ho) (by simp) ?_ fun r hr => .token ?_⟩
      · exact .more [.id anyId] (by simp) (.one (.node (.bare anyId)))
      have hmore : ∀ {ts s} (head : Operand), r.Passes ts s → SpellsOperand q.op ts head →
          Leads (fun us => IsHops q.op (.mark q.op.mark :: (ts ++ us)))
            (do return (q.op, head) :: (← hops room)) s := by
        intro ts s head hp operand
        refine .bind_pure _ (ih.hops.mono fun us h => .of ?_)
        rw [hp.op, hr.op] at h
        exact .cons operand h
      split
      · refine Leads.bind (ih.subgraph.mono ?_) fun b s hs => ?_
        · rintro us ⟨name, stmts, h⟩
          rw [hr.op] at h
          exact .of (.one (.subgraph h))
        · obtain ⟨name, stmts⟩ := b
          obtain ⟨ts, hp, spelled⟩ := (sound room).subgraph hs
          rw [hr.op] at spelled
          exact ⟨ts, hp.tokens, hmore (.subgraph name stmts) hp (.subgraph spelled)⟩
      · refine Leads.bind ((Leads.bind_pure _ Leads.nodeId).mono ?_) fun head s hs => ?_
        · rintro us ⟨n, h⟩
          exact .of (.one (.node h))
        · obtain ⟨n, rfl, hn⟩ := runs_map.1 hs
          obtain ⟨ts, hp, node⟩ := nodeId_sound hn
          exact ⟨ts, hp.tokens, hmore _ hp (.node node)⟩

theorem edges_leads (ih : AllLead room) (tail : Operand)
    (ho : (edgeOp? p.current.token).isSome) :
    Leads (IsEdges p.op) (edges (room + 1) tail) p := by
  unfold edges
  refine Leads.bind (ih.hops.mono ?_) fun hs q hq => ?_
  · rintro us ⟨hs, h⟩
    cases h with
    | nil => exact completes_edges
    | cons operand rest =>
        exact .of (.one operand rest)
  · obtain ⟨ts, hp, heads, hne⟩ := (sound room).hops hq
    exact ⟨ts, hp.tokens, .bind_pure _ ((Leads.attrLists room).mono fun us h =>
      .of ⟨ts, us, hs, rfl, heads, hne ho, h⟩)⟩

end Step

/-- With any room, the steps of statements lead to statements. -/
theorem allLead (room : Nat) : AllLead room := by
  induction room with
  | zero => exact allLead_zero
  | succ room ih =>
      exact ⟨body_leads ih, stmt_leads ih, subgraph_leads ih, hops_leads ih,
        fun tail ho => edges_leads ih tail ho⟩

/-! ## Graphs and files -/

def IsGraph (ts : List Token) : Prop := ∃ tree, SpellsTree ts tree

/-- A graph from the keyword of its kind on, behind `strict` or not. -/
def IsGraphOf (strict : Bool) (ts : List Token) : Prop :=
  IsGraph ((if strict then [.keyword .strict] else []) ++ ts)

/-- Graphs before the end of the text, of which there is one at least. -/
def IsFile (ts : List Token) : Prop := ∃ trees, SpellsFile (ts ++ [.finish]) trees

/-- The graphs behind the first one. -/
def IsGraphs (ts : List Token) : Prop := ts = [] ∨ IsFile ts

section Graphs
variable {p : Parser} {ts us : List Token}

theorem IsGraphOf.mk (strict : Bool) (kind : GraphKind) (name : Option Id)
    (h : IsBody kind.edgeOp ts) :
    IsGraphOf strict
      (.keyword kind.keyword :: (name.toList.map .id ++ .mark .openBrace :: ts)) := by
  obtain ⟨us, stmts, rfl, h⟩ := h
  exact ⟨_, .mk strict kind name h⟩

theorem IsFile.cons (h : IsGraph ts) (h' : IsGraphs us) : IsFile (ts ++ us) := by
  obtain ⟨tree, h⟩ := h
  rcases h' with rfl | ⟨trees, h'⟩
  · exact ⟨_, by simpa using SpellsFile.one h⟩
  · exact ⟨_, by simpa using SpellsFile.cons h h'⟩

theorem IsFile.one (h : IsGraph ts) : IsFile ts := by
  simpa using IsFile.cons h (Or.inl rfl)

/-- Braces complete a graph without statements. -/
theorem completes_graphOf (strict : Bool) (kind : GraphKind) (name : Option Id) :
    Completes (IsGraphOf strict) (.keyword kind.keyword :: name.toList.map .id) :=
  .more [.mark .openBrace, .mark .closeBrace] (by simp) (.mk strict kind name .nil)

theorem completes_file : Completes IsFile [] :=
  .more [.keyword .graph, .mark .openBrace, .mark .closeBrace] (by simp)
    (.one (IsGraphOf.mk false .graph none .nil))

/-- To note the direction of the edges passes no token. -/
theorem Leads.directed_bind {α : Type} {N : List Token → Prop} {f : Unit → Parse α} (d : Bool)
    (h : Leads N (f ()) ⟨p.current, p.rest, d⟩) :
    Leads N (modify (fun p => { p with directed := d }) >>= f) p := h

theorem Leads.ofKind (room : Nat) (strict : Bool) (kind : GraphKind)
    (hk : p.current.token = .keyword kind.keyword) :
    Leads (IsGraphOf strict) (ofKind room strict kind) p := by
  have hop : op ⟨p.current, p.rest, kind.isDirected⟩ = kind.edgeOp := by cases kind <;> rfl
  refine .directed_bind _ (.advance_bind hk (by simp) ?_ fun q hq => ?_)
  · exact completes_graphOf strict kind none
  refine .name_bind (fun i => completes_graphOf strict kind (some i)) fun name r hr => ?_
  refine .mark_bind _ (.more [.mark .closeBrace] (by simp) ?_) fun s hs => ?_
  · exact .mk strict kind name .nil
  refine .bind_pure _ ((allLead room).body.mono fun us h => .of ?_)
  rw [hs.op, hr.op, hq.op, hop] at h
  exact .mk strict kind name h

theorem Leads.ofKeyword (room : Nat) (strict : Bool) :
    Leads (IsGraphOf strict) (ofKeyword room strict) p := by
  refine .token ?_
  split
  · next hk => exact .ofKind room strict .graph hk
  · next hk => exact .ofKind room strict .digraph hk
  · exact .unexpected _ ((completes_graphOf strict .graph none).before (.keyword .graph))

theorem Leads.graph (room : Nat) : Leads IsGraph (graph room) p := by
  rw [graph_eq]
  refine .token ?_
  split
  · next hs =>
      refine .advance_bind hs (by simp) ?_ fun q _ => .ofKeyword room true
      exact .more [.keyword .graph, .mark .openBrace, .mark .closeBrace] (by simp)
        (IsGraphOf.mk true .graph none .nil)
  · exact .ofKeyword room false

theorem Leads.graphs (room : Nat) : Leads IsGraphs (graphs room) p := by
  induction room generalizing p with
  | zero => exact .unexpected _ (.of (Or.inl rfl))
  | succ room ih =>
      refine .token ?_
      split
      · exact .pure _
      · refine Leads.bind ((Leads.graph room).mono fun us h => .of (Or.inr (.one h)))
          fun first q hq => ?_
        obtain ⟨ts, hts, spelled⟩ := graph_sound hq
        exact ⟨ts, hts, .bind_pure _ (ih.mono fun us h => .of (Or.inr (.cons ⟨first, spelled⟩ h)))⟩

/-- Where the parser fails with a text, it has no token left, and the one in hand is
not the end of the text, or the tokens that it has passed begin a file. -/
theorem file_leads {room : Nat} {q : Parser} {e : SyntaxFault}
    (hc : p.current.token ≠ .finish) (h : file room p = .error e q) :
    (q.rest = [] ∧ q.current.token ≠ .finish) ∨ e.reason ≠ .pastEnd ∧
      ∃ ts, p.tokens = p.current.token :: (ts ++ q.tokens) ∧ Completes IsFile ts := by
  obtain ⟨c, rest, d⟩ := p
  cases rest with
  | nil =>
      rw [file, bind_of_error (advance_of_nil hc)] at h
      cases h
      exact Or.inl ⟨rfl, hc⟩
  | cons l rest =>
      have hstep : advance ⟨c, l :: rest, d⟩ = _ := advance_of_cons hc
      split at hstep
      · rw [file, bind_of_error hstep] at h
        cases h
        exact Or.inr ⟨by simp, [], rfl, completes_file⟩
      · rw [file, bind_of_ok hstep] at h
        have hrest : Leads IsFile (do return (← graph room) :: (← graphs room))
            ⟨l, rest, d⟩ := by
          refine Leads.bind ((Leads.graph room).mono fun us h => .of (.one h)) fun first r hr => ?_
          obtain ⟨ts, hts, spelled⟩ := graph_sound hr
          exact ⟨ts, hts, .bind_pure _ ((Leads.graphs room).mono fun us h =>
            .of (.cons ⟨first, spelled⟩ h))⟩
        refine (hrest _ _ h).imp_right fun ⟨hr, ts, hts, hc⟩ => ⟨hr, ts, ?_, hc⟩
        exact congrArg (c.token :: ·) hts

end Graphs

end DotLang.Parser
