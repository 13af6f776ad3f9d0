import DotLang.Proofs.Grammar
import DotLang.Proofs.Runs
import DotLang.Tree.Parser
/-!
# Single steps of the parser

The parser holds one token and has the others ahead.  `Parser.tokens` is what it
has not yet passed, and `Parser.Next` relates it to the parser that has passed
one token more.  The steps of one token are read in these terms: each either
takes the token in hand by `Next` or does nothing.
-/

namespace DotLang.Parser

/-- The token in hand and the tokens ahead. -/
def tokens (p : Parser) : List Token := p.current.token :: p.rest.map Lexeme.token

/-- `q` has passed the token that `p` holds, and holds no fault. -/
structure Next (p q : Parser) : Prop where
  rest : p.rest = q.current :: q.rest
  directed : q.directed = p.directed
  not_finish : p.current.token ≠ .finish
  not_fault : ∀ f, q.current.token ≠ .fault f

/-- `q` has passed the tokens `ts` of `p`. -/
structure Passes (p : Parser) (ts : List Token) (q : Parser) : Prop where
  tokens : p.tokens = ts ++ q.tokens
  directed : q.directed = p.directed

/-- The operator that the graph around the parser allows. -/
def op (p : Parser) : EdgeOp := if p.directed then .arrow else .line

theorem Passes.op {p q : Parser} {ts : List Token} (h : p.Passes ts q) : q.op = p.op := by
  simp [Parser.op, h.directed]

theorem Passes.refl (p : Parser) : p.Passes [] p := ⟨rfl, rfl⟩

theorem Passes.trans {p q r : Parser} {ts us : List Token} (h : p.Passes ts q)
    (h' : q.Passes us r) : p.Passes (ts ++ us) r :=
  ⟨by rw [h.tokens, h'.tokens, List.append_assoc], h'.directed.trans h.directed⟩

theorem Next.passes {p q : Parser} {t : Token} (h : p.Next q) (ht : p.current.token = t) :
    p.Passes [t] q := by
  refine ⟨?_, h.directed⟩
  simp [Parser.tokens, h.rest, ht]

/-! ## What the steps of one token do -/

@[simp] theorem runs_token {p q : Parser} {t : Token} :
    Runs token p t q ↔ t = p.current.token ∧ q = p := by
  unfold token
  rw [runs_bind]
  constructor
  · rintro ⟨a, u, hg, hp⟩
    obtain ⟨rfl, rfl⟩ := runs_get.1 hg
    exact runs_pure.1 hp
  · rintro ⟨rfl, rfl⟩
    exact ⟨_, _, runs_get.2 ⟨rfl, rfl⟩, runs_pure.2 ⟨rfl, rfl⟩⟩

@[simp] theorem not_runs_fail {α : Type} {p q : Parser} {reason : SyntaxReason} {a : α} :
    ¬ Runs (fail reason) p a q := by
  unfold fail
  rw [runs_bind]
  rintro ⟨s, u, _, h⟩
  exact not_runs_throw h

@[simp] theorem not_runs_unexpected {α : Type} {p q : Parser} {what : Expected} {a : α} :
    ¬ Runs (unexpected what) p a q := by
  unfold unexpected
  rw [runs_bind]
  rintro ⟨s, u, _, h⟩
  exact not_runs_fail h

/-- Reading the token in hand changes nothing. -/
theorem runs_token_bind {α : Type} {f : Token → Parse α} {p q : Parser} {a : α} :
    Runs (token >>= f) p a q ↔ Runs (f p.current.token) p a q := by
  rw [runs_bind]
  constructor
  · rintro ⟨t, u, ht, h⟩
    obtain ⟨rfl, rfl⟩ := runs_token.1 ht
    exact h
  · intro h
    exact ⟨_, _, runs_token.2 ⟨rfl, rfl⟩, h⟩

theorem runs_advance {p q : Parser} {u : Unit} : Runs advance p u q ↔ p.Next q := by
  unfold advance
  rw [runs_token_bind]
  split
  · next hf =>
      constructor
      · intro h
        obtain ⟨_, _, h, _⟩ := runs_bind.1 h
        exact absurd h not_runs_fail
      · intro h
        exact absurd hf h.not_finish
  · next hf =>
      rw [runs_get_bind]
      split
      · next hr =>
          constructor
          · intro h
            exact absurd h not_runs_fail
          · intro h
            rw [h.rest] at hr
            cases hr
      · next l rest hr =>
          rw [runs_bind]
          constructor
          · rintro ⟨_, p', hm, h⟩
            rw [runs_modify] at hm
            subst hm
            split at h
            · exact absurd h not_runs_fail
            · next hl =>
                obtain ⟨_, rfl⟩ := runs_pure.1 h
                exact ⟨hr, rfl, hf, hl⟩
          · intro h
            refine ⟨(), ⟨l, rest, p.directed⟩, runs_modify.2 rfl, ?_⟩
            have he := h.rest
            rw [hr] at he
            injection he with hl hrest
            have hq : q = ⟨l, rest, p.directed⟩ := by
              rw [hl, hrest, ← h.directed]
            subst hq
            split
            · next f hl => exact absurd hl (h.not_fault f)
            · exact runs_pure.2 ⟨rfl, rfl⟩

theorem runs_mark {p q : Parser} {m : Mark} {u : Unit} :
    Runs (mark m) p u q ↔ p.current.token = .mark m ∧ p.Next q := by
  unfold mark
  rw [runs_token_bind]
  split
  · next hm =>
      rw [runs_advance]
      exact ⟨fun h => ⟨hm, h⟩, fun h => h.2⟩
  · next hm =>
      exact ⟨fun h => absurd h not_runs_unexpected, fun h => absurd h.1 hm⟩

theorem runs_id {p q : Parser} {what : Expected} {i : Id} :
    Runs (id what) p i q ↔ p.current.token = .id i ∧ p.Next q := by
  unfold id
  rw [runs_token_bind]
  split
  · next j hj =>
      rw [runs_bind]
      constructor
      · rintro ⟨_, _, ha, hp⟩
        obtain ⟨rfl, rfl⟩ := runs_pure.1 hp
        exact ⟨hj, runs_advance.1 ha⟩
      · rintro ⟨hi, h⟩
        rw [hj] at hi
        cases hi
        exact ⟨(), q, runs_advance.2 h, runs_pure.2 ⟨rfl, rfl⟩⟩
  · next hn =>
      exact ⟨fun h => absurd h not_runs_unexpected, fun h => absurd h.1 (hn i)⟩

theorem runs_id? {p q : Parser} {o : Option Id} :
    Runs id? p o q ↔
      (∃ i, o = some i ∧ p.current.token = .id i ∧ p.Next q) ∨
        (o = none ∧ q = p ∧ ∀ i, p.current.token ≠ .id i) := by
  unfold id?
  rw [runs_token_bind]
  split
  · next j hj =>
      rw [runs_bind]
      constructor
      · rintro ⟨_, _, ha, hp⟩
        obtain ⟨rfl, rfl⟩ := runs_pure.1 hp
        exact Or.inl ⟨j, rfl, hj, runs_advance.1 ha⟩
      · rintro (⟨i, rfl, hi, h⟩ | ⟨_, _, hn⟩)
        · rw [hj] at hi
          cases hi
          exact ⟨(), q, runs_advance.2 h, runs_pure.2 ⟨rfl, rfl⟩⟩
        · exact absurd hj (hn j)
  · next hn =>
      rw [runs_pure]
      constructor
      · rintro ⟨rfl, rfl⟩
        exact Or.inr ⟨rfl, rfl, hn⟩
      · rintro (⟨i, _, hi, _⟩ | ⟨rfl, rfl, _⟩)
        · exact absurd hi (hn i)
        · exact ⟨rfl, rfl⟩

/-- An equal sign and a value. -/
theorem runs_assigned {p q : Parser} {i : Id} :
    Runs assigned p i q ↔
      ∃ r, p.current.token = .mark .equal ∧ p.Next r ∧ r.current.token = .id i ∧ r.Next q := by
  unfold assigned
  rw [runs_bind]
  constructor
  · rintro ⟨_, r, hm, hi⟩
    obtain ⟨he, hr⟩ := runs_mark.1 hm
    obtain ⟨hv, hq⟩ := runs_id.1 hi
    exact ⟨r, he, hr, hv, hq⟩
  · rintro ⟨r, he, hr, hv, hq⟩
    exact ⟨(), r, runs_mark.2 ⟨he, hr⟩, runs_id.2 ⟨hv, hq⟩⟩

/-! ## Kinds of tokens -/

theorem runs_checkOp {p q : Parser} {op : EdgeOp} {u : Unit} :
    Runs (checkOp op) p u q ↔ op = p.op ∧ q = p := by
  unfold checkOp
  rw [runs_get_bind]
  unfold Parser.op
  cases op <;> cases hd : p.directed <;> simp

theorem edgeOp?_eq_some {t : Token} {op : EdgeOp} :
    edgeOp? t = some op ↔ t = .mark op.mark := by
  unfold edgeOp?
  cases op <;> split <;> simp_all [EdgeOp.mark]

theorem element?_eq_some {t : Token} {element : Element} :
    element? t = some element ↔ t = .keyword element.keyword := by
  unfold element?
  cases element <;> split <;> simp_all [Element.keyword]

/-! ## Graphs -/

/-- The rest of a graph from its keyword, for a graph of that kind. -/
def ofKind (room : Nat) (strict : Bool) (kind : GraphKind) : Parse Tree := do
  modify fun p => { p with directed := kind.isDirected }
  advance
  let name ← id?
  mark .openBrace
  return ⟨strict, kind, name, ← body room⟩

theorem runs_ofKind {room : Nat} {strict : Bool} {kind : GraphKind} {p q : Parser}
    {tree : Tree} :
    Runs (ofKind room strict kind) p tree q ↔
      ∃ name stmts p1 p2 p3, Next ⟨p.current, p.rest, kind.isDirected⟩ p1 ∧
        Runs id? p1 name p2 ∧ p2.current.token = .mark .openBrace ∧ p2.Next p3 ∧
        Runs (body room) p3 stmts q ∧ tree = ⟨strict, kind, name, stmts⟩ := by
  unfold ofKind
  constructor
  · intro h
    obtain ⟨_, p0, hm, h⟩ := runs_bind.1 h
    rw [runs_modify] at hm
    subst hm
    obtain ⟨_, p1, ha, h⟩ := runs_bind.1 h
    obtain ⟨name, p2, hi, h⟩ := runs_bind.1 h
    obtain ⟨_, p3, hb, h⟩ := runs_bind.1 h
    obtain ⟨stmts, p4, hs, h⟩ := runs_bind.1 h
    obtain ⟨rfl, rfl⟩ := runs_pure.1 h
    obtain ⟨hb, hn⟩ := runs_mark.1 hb
    exact ⟨name, stmts, p1, p2, p3, runs_advance.1 ha, hi, hb, hn, hs, rfl⟩
  · rintro ⟨name, stmts, p1, p2, p3, ha, hi, hb, hn, hs, rfl⟩
    refine runs_bind.2 ⟨(), _, runs_modify.2 rfl, ?_⟩
    refine runs_bind.2 ⟨(), p1, runs_advance.2 ha, ?_⟩
    refine runs_bind.2 ⟨name, p2, hi, ?_⟩
    refine runs_bind.2 ⟨(), p3, runs_mark.2 ⟨hb, hn⟩, ?_⟩
    exact runs_bind.2 ⟨stmts, q, hs, runs_pure.2 ⟨rfl, rfl⟩⟩

/-- The rest of a graph behind `strict`, for a graph of the kind whose keyword is
in hand. -/
def ofKeyword (room : Nat) (strict : Bool) : Parse Tree := do
  match ← token with
  | .keyword .graph => ofKind room strict .graph
  | .keyword .digraph => ofKind room strict .digraph
  | _ => unexpected .graphKeyword

theorem graph_eq (room : Nat) :
    graph room = (do
      if (← token) = .keyword .strict then
        advance
        ofKeyword room true
      else
        ofKeyword room false) := by
  unfold graph
  congr 1
  funext t
  by_cases ht : t = .keyword .strict
  · simp only [ht, if_true, decide_true]
    rfl
  · simp only [ht, if_false, decide_false]
    rfl

/-- The keyword of a kind is what goes on a graph. -/
theorem runs_ofKeyword {room : Nat} {strict : Bool} {p q : Parser} {tree : Tree} :
    Runs (ofKeyword room strict) p tree q ↔
      ∃ kind, p.current.token = .keyword kind.keyword ∧
        Runs (ofKind room strict kind) p tree q := by
  unfold ofKeyword
  rw [runs_token_bind]
  constructor
  · intro h
    split at h
    · next ht => exact ⟨.graph, ht, h⟩
    · next ht => exact ⟨.digraph, ht, h⟩
    · exact absurd h not_runs_unexpected
  · rintro ⟨kind, hk, h⟩
    cases kind with
    | graph => simpa only [hk, GraphKind.keyword] using h
    | digraph => simpa only [hk, GraphKind.keyword] using h

/-- A run of `graph` passes `strict` if it is there, finds the keyword of a kind,
and goes on as for a graph of that kind. -/
theorem runs_graph {room : Nat} {p q : Parser} {tree : Tree} :
    Runs (graph room) p tree q ↔
      ∃ strict kind p', (if strict then p.current.token = .keyword .strict ∧ p.Next p'
          else p.current.token ≠ .keyword .strict ∧ p' = p) ∧
        p'.current.token = .keyword kind.keyword ∧ Runs (ofKind room strict kind) p' tree q := by
  rw [graph_eq, runs_token_bind]
  constructor
  · intro h
    split at h
    · next hs =>
        obtain ⟨_, p', ha, h⟩ := runs_bind.1 h
        obtain ⟨kind, hk, h⟩ := runs_ofKeyword.1 h
        exact ⟨true, kind, p', ⟨hs, runs_advance.1 ha⟩, hk, h⟩
    · next hs =>
        obtain ⟨kind, hk, h⟩ := runs_ofKeyword.1 h
        exact ⟨false, kind, p, ⟨hs, rfl⟩, hk, h⟩
  · rintro ⟨strict, kind, p', hp, hk, h⟩
    have h := runs_ofKeyword.2 ⟨kind, hk, h⟩
    cases strict with
    | true =>
        rw [if_pos hp.1]
        exact runs_bind.2 ⟨(), p', runs_advance.2 hp.2, h⟩
    | false =>
        obtain ⟨hs, rfl⟩ := hp
        rw [if_neg hs]
        exact h

end DotLang.Parser
