import DotLang.Proofs.LexingBelow
/-!
# Parsing the same tokens in two places

The same tokens may stand further on in a text and may have others behind them.
`Parser.placed` is a parser that has its tokens so many characters further on and
`more` behind them.  `Tracks` says of two steps that the second does in such a
place what the first does with the tokens in hand and ahead: it gives the same
value and leaves the same tokens, or it fails for the same reason so many
characters further on.

With `more` a step may go on where it had no token left.  The one thing that is
said of this case is that a fault at the head of `more` is met there.
`SyntaxFault.Placed` relates the two failures.

The two steps may have different room, as long as both have enough for the
tokens ahead.  So `Tracking` also says that more room than that changes nothing.
-/

namespace DotLang

/-- The failure, `k` characters further on. -/
def SyntaxFault.shift (k : Nat) (e : SyntaxFault) : SyntaxFault := ⟨e.reason, e.start + k⟩

/-- How the failure of a step looks `k` characters further on, with `more`
behind the tokens. -/
inductive SyntaxFault.Placed (k : Nat) : List Lexeme → SyntaxFault → SyntaxFault → Prop
  /-- The step fails at one of its tokens. -/
  | moved {more : List Lexeme} {e : SyntaxFault} (h : e.reason = .pastEnd → more = []) :
      Placed k more e (e.shift k)
  /-- The step has no token left, and the next one is a fault. -/
  | reached {l : Lexeme} {more : List Lexeme} {e : SyntaxFault} {f : LexFault}
      (h : e.reason = .pastEnd) (hl : l.token = .fault f) :
      Placed k (l :: more) e ⟨.fault f, l.start⟩

namespace Parser

/-- The token in hand and the tokens ahead, with their places. -/
def lexemes (p : Parser) : List Lexeme := p.current :: p.rest

/-- The parser with its tokens `k` characters further on and `more` behind
them. -/
def placed (k : Nat) (more : List Lexeme) (p : Parser) : Parser :=
  ⟨p.current.shift k, p.rest.map (Lexeme.shift k) ++ more, p.directed⟩

theorem tokens_eq (p : Parser) : p.tokens = p.lexemes.map Lexeme.token := rfl

section Placed
variable {k : Nat} {more : List Lexeme} {p q : Parser}

theorem lexemes_placed : (p.placed k more).lexemes = p.lexemes.map (Lexeme.shift k) ++ more := rfl

theorem Next.placed (h : p.Next q) : (p.placed k more).Next (q.placed k more) where
  rest := by
    show p.rest.map (Lexeme.shift k) ++ more = _
    rw [h.rest]
    rfl
  directed := h.directed
  not_finish := h.not_finish
  not_fault := h.not_fault

theorem Next.suffix (h : p.Next q) : q.lexemes <:+ p.lexemes := by
  unfold lexemes
  rw [h.rest]
  exact List.suffix_cons _ _

theorem length_le_of_suffix (h : q.lexemes <:+ p.lexemes) : q.rest.length ≤ p.rest.length :=
  Nat.le_of_succ_le_succ h.length_le

theorem Next.length (h : p.Next q) : p.rest.length = q.rest.length + 1 := by
  rw [h.rest, List.length_cons]

end Placed

/-! ## Failures of single steps -/

theorem fails_token_bind {α : Type} {f : Token → Parse α} {p : Parser} {e : SyntaxFault} :
    Fails (token >>= f) p e ↔ Fails (f p.current.token) p e := Iff.rfl

theorem fails_fail {α : Type} {reason : SyntaxReason} {p : Parser} {e : SyntaxFault} :
    Fails (fail (α := α) reason) p e ↔ e = ⟨reason, p.current.start⟩ := by
  constructor
  · rintro ⟨t, h⟩
    cases h
    rfl
  · rintro rfl
    exact ⟨p, rfl⟩

theorem fails_advance {p : Parser} {e : SyntaxFault} (hc : p.current.token ≠ .finish) :
    Fails advance p e ↔ (p.rest = [] ∧ e = ⟨.pastEnd, p.current.start⟩) ∨
      ∃ l rest f, p.rest = l :: rest ∧ l.token = .fault f ∧ e = ⟨.fault f, l.start⟩ := by
  obtain ⟨current, rest, directed⟩ := p
  unfold advance
  rw [fails_token_bind, if_neg hc]
  show Fails (get >>= _) _ _ ↔ _
  rw [fails_get_bind]
  cases rest with
  | nil =>
      rw [fails_fail]
      refine ⟨fun h => Or.inl ⟨rfl, h⟩, ?_⟩
      rintro (⟨_, h⟩ | ⟨_, _, _, hr, _⟩)
      · exact h
      · cases hr
  | cons l rest =>
      rw [fails_modify_bind]
      constructor
      · intro h
        split at h
        · next f hf => exact Or.inr ⟨l, rest, f, rfl, hf, fails_fail.1 h⟩
        · exact absurd h not_fails_pure
      · rintro (⟨hr, _⟩ | ⟨l', rest', f, hr, hf, rfl⟩)
        · cases hr
        · cases hr
          split
          · next f' hf' =>
              rw [hf] at hf'
              cases hf'
              exact fails_fail.2 rfl
          · next hn => exact absurd hf (hn f)

/-! ## Tracking -/

/-- What the step `x` does from `p`, the step `x'` does with the tokens `k`
characters further on and `more` behind them. -/
structure Tracks {α : Type} (k : Nat) (more : List Lexeme) (x x' : Parse α) (p : Parser) :
    Prop where
  /-- The steps give the same value and leave the same tokens. -/
  runs : ∀ {a q}, Runs x p a q → Runs x' (p.placed k more) a (q.placed k more)
  /-- What is left are the last ones of the tokens. -/
  suffix : ∀ {a q}, Runs x p a q → q.lexemes <:+ p.lexemes
  /-- The steps fail alike. -/
  fails : ∀ {e e'}, Fails x p e → e.Placed k more e' → Fails x' (p.placed k more) e'

section Tracks
variable {α β : Type} {k : Nat} {more : List Lexeme} {p : Parser}

theorem Tracks.pure (a : α) : Tracks k more (pure a) (pure a) p where
  runs h := by
    obtain ⟨rfl, rfl⟩ := runs_pure.1 h
    exact runs_pure.2 ⟨rfl, rfl⟩
  suffix h := by
    obtain ⟨_, rfl⟩ := runs_pure.1 h
    exact List.suffix_refl _
  fails h := absurd h not_fails_pure

/-- A composed step is tracked if its parts are, and the second part has no
more tokens ahead. -/
theorem Tracks.bind {x x' : Parse α} {f f' : α → Parse β} (hx : Tracks k more x x' p)
    (hf : ∀ a q, Runs x p a q → q.rest.length ≤ p.rest.length →
      Tracks k more (f a) (f' a) q) : Tracks k more (x >>= f) (x' >>= f') p where
  runs h := by
    obtain ⟨a, q, hq, h⟩ := runs_bind.1 h
    exact runs_bind.2 ⟨a, _, hx.runs hq,
      (hf a q hq (length_le_of_suffix (hx.suffix hq))).runs h⟩
  suffix h := by
    obtain ⟨a, q, hq, h⟩ := runs_bind.1 h
    have hs := hx.suffix hq
    exact ((hf a q hq (length_le_of_suffix hs)).suffix h).trans hs
  fails h he := by
    rcases fails_bind.1 h with h | ⟨a, q, hq, h⟩
    · exact (hx.fails h he).bind
    · exact (hx.runs hq).bind_fails
        ((hf a q hq (length_le_of_suffix (hx.suffix hq))).fails h he)

theorem Tracks.map {x x' : Parse α} (f : α → β) (hx : Tracks k more x x' p) :
    Tracks k more (f <$> x) (f <$> x') p :=
  hx.bind fun a _ _ _ => .pure (f a)

theorem Tracks.token {f f' : Token → Parse β}
    (h : Tracks k more (f p.current.token) (f' p.current.token) p) :
    Tracks k more (Parser.token >>= f) (Parser.token >>= f') p where
  runs hr := runs_token_bind.2 (h.runs (runs_token_bind.1 hr))
  suffix hr := h.suffix (runs_token_bind.1 hr)
  fails hf he := fails_token_bind.2 (h.fails (fails_token_bind.1 hf) he)

theorem Tracks.get {f f' : Parser → Parse β}
    (h : Tracks k more (f p) (f' (p.placed k more)) p) :
    Tracks k more (MonadState.get >>= f) (MonadState.get >>= f') p where
  runs hr := runs_get_bind.2 (h.runs (runs_get_bind.1 hr))
  suffix hr := h.suffix (runs_get_bind.1 hr)
  fails hf he := fails_get_bind.2 (h.fails (fails_get_bind.1 hf) he)

theorem Tracks.fail {reason : SyntaxReason} (hr : reason ≠ .pastEnd) :
    Tracks (α := α) k more (fail reason) (fail reason) p where
  runs h := absurd h not_runs_fail
  suffix h := absurd h not_runs_fail
  fails h he := by
    obtain rfl := fails_fail.1 h
    cases he with
    | moved => exact fails_fail.2 rfl
    | reached h => exact absurd h hr

theorem Tracks.unexpected (what : Expected) :
    Tracks (α := α) k more (unexpected what) (unexpected what) p :=
  .token (.fail (by simp))

theorem Tracks.advance (hc : p.current.token ≠ .finish) : Tracks k more advance advance p where
  runs h := runs_advance.2 (runs_advance.1 h).placed
  suffix h := (runs_advance.1 h).suffix
  fails h he := by
    have hc' : (p.placed k more).current.token ≠ .finish := hc
    refine (fails_advance hc').2 ?_
    rcases (fails_advance hc).1 h with ⟨hrest, rfl⟩ | ⟨l, rest, f, hrest, hl, rfl⟩
    · cases he with
      | moved h =>
          refine Or.inl ⟨?_, rfl⟩
          simp [placed, hrest, h rfl]
      | @reached l more _ f _ hl => exact Or.inr ⟨l, more, f, by simp [placed, hrest], hl, rfl⟩
    · cases he with
      | moved =>
          refine Or.inr ⟨l.shift k, rest.map (Lexeme.shift k) ++ more, f, ?_, hl, rfl⟩
          simp [placed, hrest]
      | reached h => cases h

theorem Tracks.mark (m : Mark) : Tracks k more (mark m) (mark m) p := by
  refine .token ?_
  split
  · next hm => exact .advance (by simp [hm])
  · exact .unexpected _

theorem Tracks.id (what : Expected) : Tracks k more (id what) (id what) p := by
  refine .token ?_
  split
  · next i hi => exact (Tracks.advance (by simp [hi])).bind fun _ _ _ _ => .pure i
  · exact .unexpected _

theorem Tracks.id? : Tracks k more id? id? p := by
  refine .token ?_
  split
  · next i hi => exact (Tracks.advance (by simp [hi])).bind fun _ _ _ _ => .pure _
  · exact .pure _

/-! ## Nodes and attributes -/

theorem Tracks.port (name : Id) : Tracks k more (port name) (port name) p := by
  refine .token ?_
  split
  · next hc =>
      refine (Tracks.advance (by simp [hc])).bind fun _ q _ _ => ?_
      refine (Tracks.id _).bind fun i r _ _ => .token ?_
      split
      · next hc' =>
          refine (Tracks.advance (by simp [hc'])).bind fun _ s _ _ => ?_
          exact (Tracks.id _).bind fun j _ _ _ => .pure _
      · exact .pure _
  · exact .pure _

theorem Tracks.nodeId : Tracks k more nodeId nodeId p :=
  (Tracks.id _).bind fun name _ _ _ => .port name

theorem Tracks.assigned : Tracks k more assigned assigned p :=
  (Tracks.mark _).bind fun _ _ _ _ => .id _

theorem Tracks.assignment (name : Id) : Tracks k more (assignment name) (assignment name) p :=
  Tracks.assigned.bind fun _ _ _ _ => .pure _

theorem Tracks.separator : Tracks k more separator separator p := by
  refine .token ?_
  split
  · next hs => exact .advance (by rcases hs with hs | hs <;> simp [hs])
  · exact .pure _

theorem Tracks.entries {room room' : Nat} (hr : p.rest.length < room)
    (hr' : p.rest.length < room') : Tracks k more (entries room) (entries room') p := by
  induction room generalizing p room' with
  | zero => cases hr
  | succ room ih =>
      cases room' with
      | zero => cases hr'
      | succ room' =>
          unfold Parser.entries
          refine .token ?_
          split
          · next hc => exact (Tracks.advance (by simp [hc])).bind fun _ _ _ _ => .pure _
          · refine (Tracks.id _).bind fun name q hq _ => ?_
            have hlen := (runs_id.1 hq).2.length
            refine Tracks.assigned.bind fun value q1 _ hle => ?_
            refine Tracks.separator.bind fun _ q2 _ hle' => ?_
            exact (ih (by omega) (by omega)).bind fun attrs _ _ _ => .pure _

theorem Tracks.attrLists {room room' : Nat} (hr : p.rest.length < room)
    (hr' : p.rest.length < room') : Tracks k more (attrLists room) (attrLists room') p := by
  induction room generalizing p room' with
  | zero => cases hr
  | succ room ih =>
      cases room' with
      | zero => cases hr'
      | succ room' =>
          unfold Parser.attrLists
          refine .token ?_
          split
          · next hb =>
              refine (Tracks.advance (by simp [hb])).bind fun _ q hq _ => ?_
              have hlen := (runs_advance.1 hq).length
              refine (Tracks.entries (by omega) (by omega)).bind fun first q1 _ hle => ?_
              exact (ih (by omega) (by omega)).bind fun attrs _ _ _ => .pure _
          · exact .pure _

theorem Tracks.attrList {room room' : Nat} (hr : p.rest.length < room)
    (hr' : p.rest.length < room') : Tracks k more (attrList room) (attrList room') p := by
  refine .token ?_
  split
  · exact .attrLists hr hr'
  · exact .unexpected _

theorem Tracks.checkOp (op : EdgeOp) : Tracks k more (checkOp op) (checkOp op) p := by
  refine .get ?_
  have hd : (p.placed k more).directed = p.directed := rfl
  simp only [hd]
  split
  · exact .fail (by simp)
  · exact .fail (by simp)
  · exact .pure _

/-- The direction of a graph is set in either place. -/
theorem Tracks.setDirected (d : Bool) :
    Tracks k more (modify fun p => { p with directed := d })
      (modify fun p => { p with directed := d }) p where
  runs h := by
    rw [runs_modify] at h ⊢
    rw [h]
    rfl
  suffix h := by
    rw [runs_modify] at h
    rw [h]
    exact List.suffix_refl _
  fails h := by
    obtain ⟨_, h⟩ := h
    cases h

end Tracks

/-! ## Statements -/

/-- A step that has room enough for the tokens ahead is tracked by the same step
with enough room. -/
structure Tracking (k : Nat) (more : List Lexeme) (room : Nat) : Prop where
  body : ∀ {room' p}, 4 * p.rest.length + 3 ≤ room → 4 * p.rest.length + 3 ≤ room' →
    Tracks k more (Parser.body room) (Parser.body room') p
  stmt : ∀ {room' p}, 4 * p.rest.length + 2 ≤ room → 4 * p.rest.length + 2 ≤ room' →
    Tracks k more (Parser.stmt room) (Parser.stmt room') p
  subgraph : ∀ {room' p}, 4 * p.rest.length + 1 ≤ room → 4 * p.rest.length + 1 ≤ room' →
    Tracks k more (Parser.subgraph room) (Parser.subgraph room') p
  hops : ∀ {room' p}, 4 * p.rest.length + 1 ≤ room → 4 * p.rest.length + 1 ≤ room' →
    Tracks k more (Parser.hops room) (Parser.hops room') p
  edges : ∀ {room' p} (tail : Operand), 4 * p.rest.length + 2 ≤ room →
    4 * p.rest.length + 2 ≤ room' →
      Tracks k more (Parser.edges room tail) (Parser.edges room' tail) p

section Step
variable {k room room' : Nat} {more : List Lexeme} {p q : Parser}

theorem length_of_tokens {ts : List Token} (h : p.tokens = ts ++ q.tokens) :
    p.rest.length = ts.length + q.rest.length := by
  have hl := congrArg List.length h
  simp only [tokens, List.length_cons, List.length_append, List.length_map] at hl
  omega

theorem exists_room {n : Nat} (h : n + 1 ≤ room) : ∃ r, room = r + 1 := ⟨room - 1, by omega⟩

/-- A statement has a token. -/
theorem length_of_stmt {s : Stmt} (h : Runs (stmt room) p s q) :
    q.rest.length + 1 ≤ p.rest.length := by
  obtain ⟨ts, hp, spelled⟩ := (sound room).stmt h
  obtain ⟨t, rest, rfl, _⟩ := spellsStmt_first spelled
  rw [length_of_tokens hp.tokens, List.length_cons]
  omega

theorem length_of_subgraph {name : Option Id} {stmts : List Stmt}
    (h : Runs (subgraph room) p (name, stmts) q) : q.rest.length + 1 ≤ p.rest.length := by
  obtain ⟨ts, hp, spelled⟩ := (sound room).subgraph h
  have hlen := spellsSubgraph_length spelled
  rw [length_of_tokens hp.tokens]
  omega

theorem body_tracks (ih : Tracking k more room) (hr : 4 * p.rest.length + 3 ≤ room + 1)
    (hr' : 4 * p.rest.length + 3 ≤ room' + 1) :
    Tracks k more (body (room + 1)) (body (room' + 1)) p := by
  unfold body
  refine .token ?_
  split
  · next hs =>
      refine (Tracks.advance (by simp [hs])).bind fun _ q hq _ => ?_
      have hlen := (runs_advance.1 hq).length
      exact ih.body (by omega) (by omega)
  · next hc => exact (Tracks.advance (by simp [hc])).bind fun _ _ _ _ => .pure _
  · exact .unexpected _
  · refine (ih.stmt (by omega) (by omega)).bind fun first q hq _ => ?_
    have hlen := length_of_stmt hq
    exact (ih.body (by omega) (by omega)).bind fun stmts _ _ _ => .pure _

theorem stmt_tracks (ih : Tracking k more room) (hr : 4 * p.rest.length + 2 ≤ room + 1)
    (hr' : 4 * p.rest.length + 2 ≤ room' + 1) :
    Tracks k more (stmt (room + 1)) (stmt (room' + 1)) p := by
  unfold stmt
  refine .token ?_
  split
  · next name hn =>
      refine (Tracks.advance (by simp [hn])).bind fun _ q hq _ => .token ?_
      have hlen := (runs_advance.1 hq).length
      split
      · exact .assignment name
      · refine (Tracks.port name).bind fun n q1 _ hle => .token ?_
        split
        · exact ih.edges _ (by omega) (by omega)
        · exact (Tracks.attrLists (by omega) (by omega)).bind fun attrs _ _ _ => .pure _
  · split
    · refine (ih.subgraph (by omega) (by omega)).bind fun b q hq _ => ?_
      obtain ⟨name, stmts⟩ := b
      have hlen := length_of_subgraph hq
      refine .token ?_
      split
      · exact ih.edges _ (by omega) (by omega)
      · exact .pure _
    · split
      · next element he =>
          have hc : p.current.token ≠ .finish := by simp [element?_eq_some.1 he]
          refine (Tracks.advance hc).bind fun _ q hq _ => ?_
          have hlen := (runs_advance.1 hq).length
          exact (Tracks.attrList (by omega) (by omega)).bind fun attrs _ _ _ => .pure _
      · exact .unexpected _

theorem subgraph_tracks (ih : Tracking k more room) (hr : 4 * p.rest.length + 1 ≤ room + 1)
    (hr' : 4 * p.rest.length + 1 ≤ room' + 1) :
    Tracks k more (subgraph (room + 1)) (subgraph (room' + 1)) p := by
  unfold subgraph
  refine .token ?_
  split
  · next hk =>
      refine (Tracks.advance (by simp [hk])).bind fun _ q _ hle => ?_
      refine Tracks.id?.bind fun name q1 _ hle' => ?_
      refine (Tracks.mark _).bind fun _ q2 hq _ => ?_
      have hlen := (runs_mark.1 hq).2.length
      exact (ih.body (by omega) (by omega)).bind fun stmts _ _ _ => .pure _
  · refine (Tracks.mark _).bind fun _ q hq _ => ?_
    have hlen := (runs_mark.1 hq).2.length
    exact (ih.body (by omega) (by omega)).bind fun stmts _ _ _ => .pure _

theorem hops_tracks (ih : Tracking k more room) (hr : 4 * p.rest.length + 1 ≤ room + 1)
    (hr' : 4 * p.rest.length + 1 ≤ room' + 1) :
    Tracks k more (hops (room + 1)) (hops (room' + 1)) p := by
  unfold hops
  refine .token ?_
  split
  · exact .pure _
  · next op ho =>
      refine (Tracks.checkOp op).bind fun _ q hq _ => ?_
      obtain ⟨_, rfl⟩ := runs_checkOp.1 hq
      refine (Tracks.advance (by simp [edgeOp?_eq_some.1 ho])).bind fun _ q1 hq _ => .token ?_
      have hlen := (runs_advance.1 hq).length
      have hmore : ∀ (head : Operand) (r : Parser), r.rest.length ≤ q1.rest.length →
          Tracks k more (do return (op, head) :: (← hops room))
            (do return (op, head) :: (← hops room')) r := fun head r hle =>
        (ih.hops (by omega) (by omega)).bind fun hs _ _ _ => .pure _
      split
      · refine (ih.subgraph (by omega) (by omega)).bind fun b r _ hle => ?_
        exact (Tracks.pure _).bind fun head s hs hle' => hmore head s (by omega)
      · exact (Tracks.nodeId.map _).bind fun head s _ hle => hmore head s hle

theorem edges_tracks (ih : Tracking k more room) (tail : Operand)
    (hr : 4 * p.rest.length + 2 ≤ room + 1) (hr' : 4 * p.rest.length + 2 ≤ room' + 1) :
    Tracks k more (edges (room + 1) tail) (edges (room' + 1) tail) p := by
  unfold edges
  refine (ih.hops (by omega) (by omega)).bind fun hs q _ hle => ?_
  exact (Tracks.attrLists (by omega) (by omega)).bind fun attrs _ _ _ => .pure _

end Step

section Graphs
variable {k : Nat} {more : List Lexeme}

/-- Without room no step has enough. -/
theorem tracking_zero : Tracking k more 0 where
  body h := absurd h (Nat.not_succ_le_zero _)
  stmt h := absurd h (Nat.not_succ_le_zero _)
  subgraph h := absurd h (Nat.not_succ_le_zero _)
  hops h := absurd h (Nat.not_succ_le_zero _)
  edges _ h := absurd h (Nat.not_succ_le_zero _)

theorem tracking_succ {room : Nat} (ih : Tracking k more room) : Tracking k more (room + 1) where
  body h h' := by
    obtain ⟨room', rfl⟩ := exists_room h'
    exact body_tracks ih h h'
  stmt h h' := by
    obtain ⟨room', rfl⟩ := exists_room h'
    exact stmt_tracks ih h h'
  subgraph h h' := by
    obtain ⟨room', rfl⟩ := exists_room h'
    exact subgraph_tracks ih h h'
  hops h h' := by
    obtain ⟨room', rfl⟩ := exists_room h'
    exact hops_tracks ih h h'
  edges tail h h' := by
    obtain ⟨room', rfl⟩ := exists_room h'
    exact edges_tracks ih tail h h'

/-- Steps with enough room do the same, wherever their tokens stand. -/
theorem tracking (room : Nat) : Tracking k more room := by
  induction room with
  | zero => exact tracking_zero
  | succ room ih => exact tracking_succ ih

/-! ## Graphs -/

theorem Tracks.ofKind {room room' : Nat} {p : Parser} (strict : Bool) (kind : GraphKind)
    (hc : p.current.token ≠ .finish) (hr : 4 * p.rest.length + 3 ≤ room)
    (hr' : 4 * p.rest.length + 3 ≤ room') :
    Tracks k more (ofKind room strict kind) (ofKind room' strict kind) p := by
  refine (Tracks.setDirected _).bind fun _ q hq _ => ?_
  obtain rfl := runs_modify.1 hq
  refine (Tracks.advance (p := ⟨p.current, p.rest, kind.isDirected⟩) hc).bind fun _ q1 _ hle => ?_
  refine Tracks.id?.bind fun name q2 _ hle' => ?_
  refine (Tracks.mark _).bind fun _ q3 _ hle'' => ?_
  have hlen : q3.rest.length ≤ p.rest.length := Nat.le_trans (Nat.le_trans hle'' hle') hle
  exact ((tracking room).body (by omega) (by omega)).bind fun stmts _ _ _ => .pure _

theorem Tracks.ofKeyword {room room' : Nat} {p : Parser} (strict : Bool)
    (hr : 4 * p.rest.length + 3 ≤ room) (hr' : 4 * p.rest.length + 3 ≤ room') :
    Tracks k more (ofKeyword room strict) (ofKeyword room' strict) p := by
  refine .token ?_
  split
  · next hk => exact .ofKind strict .graph (by simp [hk]) hr hr'
  · next hk => exact .ofKind strict .digraph (by simp [hk]) hr hr'
  · exact .unexpected _

theorem Tracks.graph {room room' : Nat} {p : Parser} (hr : 4 * p.rest.length + 3 ≤ room)
    (hr' : 4 * p.rest.length + 3 ≤ room') : Tracks k more (graph room) (graph room') p := by
  rw [graph_eq, graph_eq]
  refine .token ?_
  split
  · next hs =>
      refine (Tracks.advance (by simp [hs])).bind fun _ q _ hle => ?_
      exact .ofKeyword true (by omega) (by omega)
  · exact .ofKeyword false hr hr'

/-- A graph has a token. -/
theorem length_of_graph {room : Nat} {p q : Parser} {tree : Tree}
    (h : Runs (Parser.graph room) p tree q) : q.rest.length + 1 ≤ p.rest.length := by
  obtain ⟨ts, hp, spelled⟩ := graph_sound h
  obtain ⟨t, rest, rfl, _⟩ := spellsTree_first spelled
  rw [length_of_tokens hp, List.length_cons]
  omega

theorem Tracks.graphs {room room' : Nat} {p : Parser} (hr : 4 * p.rest.length + 4 ≤ room)
    (hr' : 4 * p.rest.length + 4 ≤ room') : Tracks k more (graphs room) (graphs room') p := by
  induction room generalizing p room' with
  | zero => exact absurd hr (Nat.not_succ_le_zero _)
  | succ room ih =>
      obtain ⟨room', rfl⟩ := exists_room hr'
      unfold Parser.graphs
      refine .token ?_
      split
      · exact .pure _
      · refine (Tracks.graph (by omega) (by omega)).bind fun first q hq _ => ?_
        have hlen := length_of_graph hq
        exact (ih (by omega) (by omega)).bind fun trees _ _ _ => .pure _

end Graphs

/-! ## The direction in front of a graph -/

section Direction
variable {room : Nat} {p p' q : Parser} {e : SyntaxFault}

theorem Next.of_same (h : p.Next q) (hl : p.lexemes = p'.lexemes) :
    p'.Next ⟨q.current, q.rest, p'.directed⟩ := by
  injection hl with hc hr
  exact ⟨hr ▸ h.rest, rfl, hc ▸ h.not_finish, h.not_fault⟩

/-- A graph sets its direction, whatever was the last one. -/
theorem runs_graph_of_same {tree : Tree} (hl : p.lexemes = p'.lexemes)
    (h : Runs (graph room) p tree q) : Runs (graph room) p' tree q := by
  obtain ⟨strict, kind, p1, hp, hk, h⟩ := runs_graph.1 h
  injection hl with hc hr
  refine runs_graph.2 ⟨strict, kind, ⟨p1.current, p1.rest, p'.directed⟩, ?_, hk, h⟩
  cases strict with
  | true =>
      have hp : p.current.token = .keyword .strict ∧ p.Next p1 := hp
      exact ⟨hc ▸ hp.1, hp.2.of_same (by rw [lexemes, lexemes, hc, hr])⟩
  | false =>
      obtain ⟨hn, rfl⟩ := hp
      refine ⟨hc ▸ hn, ?_⟩
      rw [hc, hr]

theorem fails_advance_of_same (hl : p.lexemes = p'.lexemes) (hf : p.current.token ≠ .finish)
    (h : Fails advance p e) : Fails advance p' e := by
  injection hl with hc hr
  refine (fails_advance (hc ▸ hf)).2 ?_
  rw [← hc, ← hr]
  exact (fails_advance hf).1 h

/-- From its keyword on a graph has its own direction. -/
theorem fails_ofKeyword_of_same {strict : Bool} (hl : p.lexemes = p'.lexemes)
    (h : Fails (ofKeyword room strict) p e) : Fails (ofKeyword room strict) p' e := by
  obtain ⟨hc, hr⟩ := List.cons.inj hl
  have hkind : ∀ kind, Fails (ofKind room strict kind) p e →
      Fails (ofKind room strict kind) p' e := by
    intro kind h
    unfold ofKind at h ⊢
    rw [fails_modify_bind] at h ⊢
    rw [← hc, ← hr]
    exact h
  unfold ofKeyword at h ⊢
  rw [fails_token_bind] at h ⊢
  rw [← hc]
  split at h
  · exact hkind .graph h
  · exact hkind .digraph h
  · unfold unexpected at h ⊢
    rw [fails_token_bind, fails_fail] at h ⊢
    rw [← hc]
    exact h

theorem fails_graph_of_same (hl : p.lexemes = p'.lexemes) (h : Fails (graph room) p e) :
    Fails (graph room) p' e := by
  have hc : p.current = p'.current := (List.cons.inj hl).1
  rw [graph_eq] at h ⊢
  rw [fails_token_bind] at h ⊢
  rw [← hc]
  by_cases hs : p.current.token = .keyword .strict
  · rw [if_pos hs] at h ⊢
    rcases fails_bind.1 h with h | ⟨u, q, hq, h⟩
    · exact (fails_advance_of_same hl (by simp [hs]) h).bind
    · have hq' : Runs advance p' u _ := runs_advance.2 ((runs_advance.1 hq).of_same hl)
      have h' : Fails (ofKeyword room true) ⟨q.current, q.rest, p'.directed⟩ e :=
        fails_ofKeyword_of_same (p := q) rfl h
      exact hq'.bind_fails h'
  · rw [if_neg hs] at h ⊢
    exact fails_ofKeyword_of_same hl h

theorem fails_graphs_first (hc : p.current.token ≠ .finish) (h : Fails (graph room) p e) :
    Fails (graphs (room + 1)) p e := by
  unfold graphs
  rw [fails_token_bind, if_neg hc]
  exact h.bind

theorem fails_graphs_rest {tree : Tree} (hc : p.current.token ≠ .finish)
    (hg : Runs (graph room) p tree q) (h : Fails (graphs room) q e) :
    Fails (graphs (room + 1)) p e := by
  unfold graphs
  rw [fails_token_bind, if_neg hc]
  exact hg.bind_fails h.bind

theorem fails_graphs_of_same (hl : p.lexemes = p'.lexemes) (hf : p.current.token ≠ .finish)
    (h : Fails (graphs (room + 1)) p e) : Fails (graphs (room + 1)) p' e := by
  have hc : p.current = p'.current := (List.cons.inj hl).1
  have hf' : p'.current.token ≠ .finish := hc ▸ hf
  unfold graphs at h
  rw [fails_token_bind, if_neg hf] at h
  rcases fails_bind.1 h with h | ⟨tree, q, hq, h⟩
  · exact fails_graphs_first hf' (fails_graph_of_same hl h)
  · rcases fails_bind.1 h with h | ⟨_, _, _, h⟩
    · exact fails_graphs_rest hf' (runs_graph_of_same hl hq) h
    · exact absurd h not_fails_pure

end Direction

/-! ## Graphs in front of other tokens -/

section Behind
variable {p : Parser} {front back : List Lexeme} {l : Lexeme} {tree : Tree}

theorem length_lexemes (p : Parser) : p.lexemes.length = p.rest.length + 1 := rfl

/-- A parser has its last tokens behind those before them. -/
theorem exists_placed (hp : p.lexemes = front ++ back) (hne : front ≠ []) :
    ∃ p0 : Parser, p0.lexemes = front ∧ p0.placed 0 back = p := by
  obtain ⟨c, front, rfl⟩ := List.exists_cons_of_ne_nil hne
  obtain ⟨hc, hr⟩ : p.current = c ∧ p.rest = front ++ back := List.cons.inj hp
  refine ⟨⟨c, front, p.directed⟩, rfl, ?_⟩
  have hmap : front.map (Lexeme.shift 0) = front := List.map_id front
  calc placed 0 back ⟨c, front, p.directed⟩ = ⟨c, front ++ back, p.directed⟩ := by
        rw [placed, hmap]
        rfl
    _ = p := by rw [← hc, ← hr]

theorem le_room_of_placed {k n room : Nat} {more : List Lexeme}
    (h : 4 * (p.placed k more).rest.length + n ≤ room) : 4 * p.rest.length + n ≤ room := by
  simp only [placed, List.length_append, List.length_map] at h
  omega

theorem not_finish_of_tree (hp : p.lexemes = front ++ back)
    (spelled : SpellsTree (front.map Lexeme.token) tree) : p.current.token ≠ .finish := by
  obtain ⟨t, ts, hts, ht⟩ := spellsTree_first spelled
  cases front with
  | nil => cases hts
  | cons c front =>
      injection hp with hc
      injection hts with hct
      rw [hc, hct]
      exact ht

/-- A graph in front of a token that is no fault is read up to that token. -/
theorem graph_gives_lexemes (room : Nat) (hp : p.lexemes = front ++ l :: back)
    (spelled : SpellsTree (front.map Lexeme.token) tree) (hl : ∀ f, l.token ≠ .fault f)
    (hr : 4 * p.rest.length + 3 ≤ room) :
    ∃ q, Runs (graph room) p tree q ∧ q.lexemes = l :: back := by
  -- The parser stops at `l`, so the tokens behind it may be left out at first.
  rw [← List.singleton_append, ← List.append_assoc] at hp
  obtain ⟨p0, hp0, rfl⟩ := exists_placed hp (by simp)
  have htrack : Tracks 0 back (graph room) (graph room) p0 :=
    .graph (le_room_of_placed hr) (le_room_of_placed hr)
  have hsees : p0.Sees (front.map Lexeme.token) [l.token] := by
    refine ⟨by rw [tokens_eq, hp0, List.map_append]; rfl, by simp, fun f hf => ?_⟩
    rcases List.mem_append.1 hf with hf | hf
    · exact (spelled.inner _ hf).not_fault f rfl
    · exact hl f (List.mem_singleton.1 hf).symm
  have hroom : 4 * (front.map Lexeme.token).length < room := by
    have hlen := congrArg List.length hp
    simp only [length_lexemes, List.length_append, List.length_singleton] at hlen
    rw [List.length_map]
    omega
  obtain ⟨q0, hq0, hs⟩ := graph_gives room hsees spelled hroom
  have hq0l : q0.lexemes = [l] := by
    have hlen : q0.lexemes.length = [l].length := by
      have htok := congrArg List.length hs.tokens
      simpa [tokens_eq] using htok
    have hend : [l] <:+ p0.lexemes := hp0 ▸ List.suffix_append front [l]
    exact (List.suffix_of_suffix_length_le (htrack.suffix hq0) hend
      (Nat.le_of_eq hlen)).eq_of_length hlen
  refine ⟨q0.placed 0 back, htrack.runs hq0, ?_⟩
  rw [lexemes_placed, hq0l]
  rfl

/-- A graph in front of a fault fails there. -/
theorem graph_fails_lexemes (room : Nat) {f : LexFault} (hp : p.lexemes = front ++ l :: back)
    (spelled : SpellsTree (front.map Lexeme.token) tree) (hl : l.token = .fault f)
    (hr : 4 * p.rest.length + 3 ≤ room) : Fails (graph room) p ⟨.fault f, l.start⟩ := by
  have hne : front ≠ [] := by
    rintro rfl
    obtain ⟨t, ts, hts, _⟩ := spellsTree_first spelled
    cases hts
  obtain ⟨p0, hp0, rfl⟩ := exists_placed hp hne
  have htrack : ∀ more, Tracks 0 more (graph room) (graph room) p0 := fun more =>
    .graph (le_room_of_placed hr) (le_room_of_placed hr)
  -- In front of the end of the text the graph is read, so with no token behind
  -- it the parser fails just for want of one.
  let last : Lexeme := ⟨.finish, 0, 0⟩
  have hlast : (p0.placed 0 [last]).lexemes = front ++ [last] := by
    rw [lexemes_placed, hp0]
    exact congrArg (· ++ [last]) (List.map_id front)
  have hroom : 4 * (p0.placed 0 [last]).rest.length + 3 ≤ room := by
    simp only [placed, List.length_append, List.length_map, List.length_cons,
      List.length_nil] at hr ⊢
    omega
  obtain ⟨q, hq, hql⟩ := graph_gives_lexemes room hlast spelled (by simp [last]) hroom
  rcases runs_or_fails (graph room) p0 with ⟨tree', q0, hq0⟩ | ⟨e, he⟩
  · obtain ⟨_, rfl⟩ := hq.unique ((htrack _).runs hq0)
    have hlen := congrArg List.length hql
    simp [lexemes_placed, length_lexemes] at hlen
  · by_cases hend : e.reason = .pastEnd
    · exact (htrack (l :: back)).fails he (.reached hend hl)
    · exact absurd ((htrack [last]).fails he (.moved fun h => absurd h hend)) hq.not_fails

/-- Behind graphs a failure in what follows them is the one of the whole. -/
theorem graphs_fails_behind {room : Nat} {us : List Token} {trees : List Tree}
    {e : SyntaxFault}
    (spelled : SpellsFile us trees) (hus : us = front.map Lexeme.token ++ [.finish])
    (hp : p.lexemes = front ++ l :: back) (hr : 4 * p.rest.length + 4 ≤ room)
    (hfault : ∀ f, l.token = .fault f → e = ⟨.fault f, l.start⟩)
    (hback : (∀ f, l.token ≠ .fault f) → ∀ q room, q.lexemes = l :: back →
      4 * q.rest.length + 4 ≤ room → Fails (graphs room) q e) :
    Fails (graphs room) p e := by
  obtain ⟨room, rfl⟩ := exists_room hr
  induction spelled generalizing p front room with
  | one tree =>
      obtain ⟨rfl, _⟩ := List.append_inj' hus rfl
      have hc := not_finish_of_tree hp tree
      by_cases hl : ∃ f, l.token = .fault f
      · obtain ⟨f, hf⟩ := hl
        rw [hfault f hf]
        exact fails_graphs_first hc (graph_fails_lexemes room hp tree hf (by omega))
      · have hl : ∀ f, l.token ≠ .fault f := fun f hf => hl ⟨f, hf⟩
        obtain ⟨q, hq, hql⟩ := graph_gives_lexemes room hp tree hl (by omega)
        have hlen := length_of_graph hq
        exact fails_graphs_rest hc hq (hback hl q room hql (by omega))
  | @cons ts us _ _ tree rest ih =>
      obtain ⟨us, rfl⟩ := spellsFile_last rest
      rw [← List.append_assoc] at hus
      obtain ⟨hus, _⟩ := List.append_inj' hus rfl
      obtain ⟨first, others, rfl, rfl, rfl⟩ := List.map_eq_append_iff.1 hus.symm
      have hne : others ≠ [] := by
        rintro rfl
        obtain ⟨t, ts, ht, hn⟩ := spellsFile_first rest
        cases ht
        exact hn rfl
      obtain ⟨next, others, rfl⟩ := List.exists_cons_of_ne_nil hne
      rw [List.append_assoc, List.cons_append] at hp
      have hnext : ∀ f, next.token ≠ .fault f := fun f hf =>
        rest.faultless f (by simp [hf])
      obtain ⟨q, hq, hql⟩ := graph_gives_lexemes room hp tree hnext (by omega)
      have hlen := length_of_graph hq
      obtain ⟨room, rfl⟩ : ∃ r, room = r + 1 := Nat.exists_eq_succ_of_ne_zero (by omega)
      exact fails_graphs_rest (not_finish_of_tree hp tree) hq
        (ih rfl hql room (by omega))

/-- Graphs fail further on as they do here. -/
theorem graphs_fails_shift {room room' k : Nat} {q : Parser} {e : SyntaxFault}
    (hc : p.current.token ≠ .finish) (hq : q.lexemes = p.lexemes.map (Lexeme.shift k))
    (hr : 4 * p.rest.length + 4 ≤ room) (hr' : 4 * q.rest.length + 4 ≤ room')
    (h : Fails (graphs room) p e) : Fails (graphs room') q (e.shift k) := by
  have hlen : q.rest.length = p.rest.length := by
    have hl := congrArg List.length hq
    simp only [length_lexemes, List.length_map] at hl
    omega
  have hsame : (p.placed k []).lexemes = q.lexemes := by
    rw [hq, lexemes_placed, List.append_nil]
  have htrack : Tracks k [] (graphs room) (graphs room') p := .graphs hr (hlen ▸ hr')
  obtain ⟨room', rfl⟩ := exists_room hr'
  exact fails_graphs_of_same hsame hc (htrack.fails h (.moved fun _ => rfl))

end Behind

/-! ## Files -/

/-- A file fails at a fault at its start, or in its graphs. -/
theorem fails_file {room : Nat} {p : Parser} {l : Lexeme} {back : List Lexeme}
    {e : SyntaxFault} (hc : p.current.token ≠ .finish) (hp : p.rest = l :: back)
    (hl : l.token ≠ .finish) :
    Fails (file room) p e ↔ (∃ f, l.token = .fault f ∧ e = ⟨.fault f, l.start⟩) ∨
      ((∀ f, l.token ≠ .fault f) ∧ Fails (graphs (room + 1)) ⟨l, back, p.directed⟩ e) := by
  have hgraphs : ∀ {q : Parser}, q.current.token ≠ .finish →
      (Fails (graphs (room + 1)) q e ↔
        Fails (do return (← graph room) :: (← graphs room)) q e) := by
    intro q hq
    show Fails (token >>= _) q e ↔ _
    rw [fails_token_bind, if_neg hq]
  have hadvance := fails_advance (e := e) hc
  rw [hp] at hadvance
  unfold file
  rw [fails_bind]
  constructor
  · rintro (h | ⟨_, q, hq, h⟩)
    · rcases hadvance.1 h with ⟨hr, _⟩ | ⟨l', rest, f, hr, hf, he⟩
      · cases hr
      · cases hr
        exact Or.inl ⟨f, hf, he⟩
    · have hn := runs_advance.1 hq
      obtain ⟨current, rest, directed⟩ := q
      have hr := hp.symm.trans hn.rest
      cases hr
      have hd : directed = p.directed := hn.directed
      rw [← hd]
      exact Or.inr ⟨hn.not_fault, (hgraphs hl).2 h⟩
  · rintro (⟨f, hf, he⟩ | ⟨hn, h⟩)
    · exact Or.inl (hadvance.2 (Or.inr ⟨l, back, f, rfl, hf, he⟩))
    · have hnext : p.Next ⟨l, back, p.directed⟩ := ⟨hp, rfl, hc, hn⟩
      exact Or.inr ⟨(), _, runs_advance.2 hnext, (hgraphs hl).1 h⟩

/-- Behind the graphs of a file another one fails as it does alone, only further
on. -/
theorem file_fails_behind {room room' k : Nat} {p p' : Parser} {front back : List Lexeme}
    {l : Lexeme} {trees : List Tree} {e : SyntaxFault} (hc : p.current.token ≠ .finish)
    (hp : p.rest = l :: back) (hl : l.token ≠ .finish) (hr : 4 * p.rest.length ≤ room)
    (hc' : p'.current.token ≠ .finish)
    (hp' : p'.rest = front ++ (l :: back).map (Lexeme.shift k)) (hr' : 4 * p'.rest.length ≤ room')
    (spelled : SpellsFile (front.map Lexeme.token ++ [.finish]) trees)
    (h : Fails (file room) p e) : Fails (file room') p' (e.shift k) := by
  rw [fails_file hc hp hl] at h
  obtain ⟨t, ts, hts, ht⟩ := spellsFile_first spelled
  cases front with
  | nil =>
      cases hts
      exact absurd rfl ht
  | cons c front =>
      injection hts with hct
      have hcfault : ∀ f, c.token ≠ .fault f := fun f hf => spelled.faultless f (by simp [hf])
      refine (fails_file hc' hp' (hct ▸ ht)).2 (Or.inr ⟨hcfault, ?_⟩)
      have hlex : Parser.lexemes ⟨c, front ++ (l :: back).map (Lexeme.shift k), p'.directed⟩ =
          c :: front ++ l.shift k :: back.map (Lexeme.shift k) := rfl
      rw [hp, List.length_cons] at hr
      rw [hp', List.cons_append, List.length_cons] at hr'
      have hroom : 4 * (front ++ (l :: back).map (Lexeme.shift k)).length + 4 ≤ room' + 1 := by
        omega
      refine graphs_fails_behind spelled rfl hlex hroom ?_ ?_
      · intro f hf
        rcases h with ⟨f', hf', rfl⟩ | ⟨hn, _⟩
        · cases hf.symm.trans hf'
          rfl
        · exact absurd hf (hn f)
      · intro hn q r hq hqr
        rcases h with ⟨f, hf, _⟩ | ⟨_, h⟩
        · exact absurd hf (hn f)
        · exact graphs_fails_shift (p := ⟨l, back, p.directed⟩) hl hq (by simp only; omega) hqr h

end Parser

end DotLang
