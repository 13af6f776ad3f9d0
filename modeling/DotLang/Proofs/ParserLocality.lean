import DotLang.Proofs.ParserTracking
/-!
# The parser never looks further than the token in hand

A step of the parser ends with a token in hand, also when it fails, and a failure
stands at that token.  `Local` says that the tokens behind it have no part in what
the step did: without them it does the same.  It is a property of the step alone,
from every state and with whatever room, so it composes without conditions, and
the statements, which call each other, are one induction on the room.

A failure so decided is met in every text that goes on from there
(`file_fails_with`): the parser is followed up to the token at fault, where
`Local` leaves the other tokens out, and `Tracks` puts others in their place.
-/

namespace DotLang.Parser

variable {α β : Type}

/-- The outcome of a step. -/
abbrev Outcome (α : Type) := EStateM.Result SyntaxFault Parser α

/-- The parser that a step leaves, when it succeeds and when it fails. -/
def left : Outcome α → Parser
  | .ok _ q => q
  | .error _ q => q

/-- The parser with `more` behind its tokens. -/
def followed (more : List Lexeme) (p : Parser) : Parser :=
  ⟨p.current, p.rest ++ more, p.directed⟩

/-- The outcome with `more` behind the tokens that are left. -/
def outcomeFollowed (more : List Lexeme) : Outcome α → Outcome α
  | .ok a q => .ok a (q.followed more)
  | .error e q => .error e (q.followed more)

/-- What a step does depends on the tokens up to the one that it leaves in hand, and
it fails at that one. -/
structure Local (x : Parse α) : Prop where
  /-- What is left are the last ones of the tokens. -/
  suffix : ∀ p, (left (x p)).lexemes <:+ p.lexemes
  /-- A failure stands at the token in hand. -/
  place : ∀ {p e q}, x p = .error e q → e.start = q.current.start
  /-- A step that does not come to the last tokens does the same without them. -/
  cut : ∀ {p more}, more.length ≤ (left (x (p.followed more))).rest.length →
    x (p.followed more) = outcomeFollowed more (x p)

theorem bind_of_ok {x : Parse α} {f : α → Parse β} {p q : Parser} {a : α}
    (h : x p = .ok a q) : (x >>= f) p = f a q := by
  show EStateM.bind x f p = _
  rw [EStateM.bind, h]

theorem bind_of_error {x : Parse α} {f : α → Parse β} {p q : Parser} {e : SyntaxFault}
    (h : x p = .error e q) : (x >>= f) p = .error e q := by
  show EStateM.bind x f p = _
  rw [EStateM.bind, h]

/-! ## The step of one token -/

section Advance
variable {c l : Lexeme} {rest : List Lexeme} {d : Bool}

theorem advance_of_finish (hc : c.token = .finish) :
    advance ⟨c, rest, d⟩ = .error ⟨.pastEnd, c.start⟩ ⟨c, rest, d⟩ := by
  obtain ⟨t, start, stop⟩ := c
  subst hc
  rfl

theorem advance_of_nil (hc : c.token ≠ .finish) :
    advance ⟨c, [], d⟩ = .error ⟨.pastEnd, c.start⟩ ⟨c, [], d⟩ := by
  obtain ⟨t, start, stop⟩ := c
  cases t with
  | finish => exact absurd rfl hc
  | id | keyword | mark | fault => rfl

theorem advance_of_cons (hc : c.token ≠ .finish) :
    advance ⟨c, l :: rest, d⟩ =
      match l.token with
      | .fault f => .error ⟨.fault f, l.start⟩ ⟨l, rest, d⟩
      | _ => .ok () ⟨l, rest, d⟩ := by
  obtain ⟨t, start, stop⟩ := c
  obtain ⟨t', start', stop'⟩ := l
  cases t with
  | finish => exact absurd rfl hc
  | id | keyword | mark | fault => cases t' <;> rfl

theorem left_advance (hc : c.token ≠ .finish) :
    left (advance ⟨c, l :: rest, d⟩) = ⟨l, rest, d⟩ := by
  rw [advance_of_cons hc]
  split
  · rfl
  · rfl

end Advance

/-! ## Composed steps -/

namespace Local

theorem pure (a : α) : Local (pure a : Parse α) where
  suffix _ := List.suffix_refl _
  place h := by cases h
  cut _ := rfl

theorem bind {x : Parse α} {f : α → Parse β} (hx : Local x) (hf : ∀ a, Local (f a)) :
    Local (x >>= f) where
  suffix p := by
    have hs := hx.suffix p
    cases h : x p with
    | ok a q =>
        rw [h] at hs
        rw [bind_of_ok h]
        exact ((hf a).suffix q).trans hs
    | error e q =>
        rw [h] at hs
        rw [bind_of_error h]
        exact hs
  place {p e q} h := by
    cases hp : x p with
    | ok a r =>
        rw [bind_of_ok hp] at h
        exact (hf a).place h
    | error e' r =>
        rw [bind_of_error hp] at h
        cases h
        exact hx.place hp
  cut {p more} h := by
    cases hp : x (p.followed more) with
    | ok a q =>
        rw [bind_of_ok hp] at h ⊢
        have hle := length_le_of_suffix ((hf a).suffix q)
        have hcut := hx.cut (by
          rw [hp]
          exact Nat.le_trans h hle)
        rw [hp] at hcut
        cases hx' : x p with
        | ok a' q' =>
            rw [hx'] at hcut
            cases hcut
            rw [bind_of_ok hx']
            exact (hf a).cut h
        | error e' q' =>
            rw [hx'] at hcut
            cases hcut
    | error e q =>
        rw [bind_of_error hp] at h ⊢
        have hcut := hx.cut (by rw [hp]; exact h)
        rw [hp] at hcut
        cases hx' : x p with
        | ok a' q' =>
            rw [hx'] at hcut
            cases hcut
        | error e' q' =>
            rw [hx'] at hcut
            cases hcut
            rw [bind_of_error hx']
            rfl

theorem map {x : Parse α} (f : α → β) (hx : Local x) : Local (f <$> x) :=
  hx.bind fun a => .pure (f a)

theorem token {f : Token → Parse β} (h : ∀ t, Local (f t)) : Local (token >>= f) where
  suffix p := (h p.current.token).suffix p
  place hp := (h _).place hp
  cut hle := (h _).cut hle

theorem fail {reason : SyntaxReason} : Local (fail reason : Parse α) where
  suffix _ := List.suffix_refl _
  place h := by
    cases h
    rfl
  cut _ := rfl

theorem unexpected (what : Expected) : Local (unexpected what : Parse α) := .token fun _ => .fail

theorem advance : Local advance where
  suffix p := by
    obtain ⟨c, rest, d⟩ := p
    by_cases hc : c.token = .finish
    · rw [advance_of_finish hc]
      exact List.suffix_refl _
    · cases rest with
      | nil =>
          rw [advance_of_nil hc]
          exact List.suffix_refl _
      | cons l rest =>
          rw [left_advance hc]
          exact List.suffix_cons c _
  place {p e q} h := by
    obtain ⟨c, rest, d⟩ := p
    by_cases hc : c.token = .finish
    · rw [advance_of_finish hc] at h
      cases h
      rfl
    · cases rest with
      | nil =>
          rw [advance_of_nil hc] at h
          cases h
          rfl
      | cons l rest =>
          rw [advance_of_cons hc] at h
          split at h
          · cases h
            rfl
          · cases h
  cut {p more} hle := by
    obtain ⟨c, rest, d⟩ := p
    by_cases hc : c.token = .finish
    · rw [advance_of_finish hc]
      exact advance_of_finish hc
    · cases rest with
      | nil =>
          -- With nothing behind the token, a step forward would come to `more`.
          cases more with
          | nil =>
              rw [advance_of_nil hc]
              exact advance_of_nil hc
          | cons l more =>
              change _ ≤ (left (Parser.advance ⟨c, l :: more, d⟩)).rest.length at hle
              rw [left_advance hc] at hle
              exact absurd hle (Nat.not_succ_le_self _)
      | cons l rest =>
          show Parser.advance ⟨c, l :: (rest ++ more), d⟩ = _
          rw [advance_of_cons hc, advance_of_cons hc]
          split
          · rfl
          · rfl

theorem mark (m : Mark) : Local (mark m) := by
  refine .token fun t => ?_
  split
  · exact .advance
  · exact .unexpected _

theorem id (what : Expected) : Local (id what) := by
  refine .token fun t => ?_
  split
  · exact Local.advance.bind fun _ => .pure _
  · exact .unexpected _

theorem id? : Local id? := by
  refine .token fun t => ?_
  split
  · exact Local.advance.bind fun _ => .pure _
  · exact .pure _

theorem checkOp (op : EdgeOp) : Local (checkOp op) where
  suffix p := by
    obtain ⟨current, rest, directed⟩ := p
    cases op <;> cases directed <;> exact List.suffix_refl _
  place {p e q} h := by
    obtain ⟨current, rest, directed⟩ := p
    cases op <;> cases directed <;> cases h <;> rfl
  cut {p more} hle := by
    obtain ⟨current, rest, directed⟩ := p
    cases op <;> cases directed <;> rfl

/-- The direction of a graph is set whatever the tokens are. -/
theorem setDirected (d : Bool) : Local (modify fun p => { p with directed := d }) where
  suffix _ := List.suffix_refl _
  place h := by cases h
  cut _ := rfl

/-! ## Nodes and attributes -/

theorem port (name : Id) : Local (port name) := by
  refine .token fun t => ?_
  split
  · refine Local.advance.bind fun _ => (Local.id _).bind fun i => .token fun t => ?_
    split
    · exact Local.advance.bind fun _ => (Local.id _).bind fun j => .pure _
    · exact .pure _
  · exact .pure _

theorem nodeId : Local nodeId := (Local.id _).bind fun name => .port name

theorem assigned : Local assigned := (Local.mark _).bind fun _ => .id _

theorem assignment (name : Id) : Local (assignment name) :=
  Local.assigned.bind fun _ => .pure _

theorem separator : Local separator := by
  refine .token fun t => ?_
  split
  · exact .advance
  · exact .pure _

theorem entries (room : Nat) : Local (entries room) := by
  induction room with
  | zero => exact .unexpected _
  | succ room ih =>
      refine .token fun t => ?_
      split
      · exact Local.advance.bind fun _ => .pure _
      · exact (Local.id _).bind fun name => Local.assigned.bind fun value =>
          Local.separator.bind fun _ => ih.bind fun attrs => .pure _

theorem attrLists (room : Nat) : Local (attrLists room) := by
  induction room with
  | zero => exact .unexpected _
  | succ room ih =>
      refine .token fun t => ?_
      split
      · exact Local.advance.bind fun _ => (Local.entries room).bind fun first =>
          ih.bind fun more => .pure _
      · exact .pure _

theorem attrList (room : Nat) : Local (attrList room) := by
  refine .token fun t => ?_
  split
  · exact .attrLists room
  · exact .unexpected _

end Local

/-! ## Statements -/

/-- The steps of statements with that much room are local. -/
structure AllLocal (room : Nat) : Prop where
  body : Local (Parser.body room)
  stmt : Local (Parser.stmt room)
  subgraph : Local (Parser.subgraph room)
  hops : Local (Parser.hops room)
  edges : ∀ tail, Local (Parser.edges room tail)

theorem allLocal_zero : AllLocal 0 where
  body := .unexpected _
  stmt := .unexpected _
  subgraph := .unexpected _
  hops := .unexpected _
  edges _ := .unexpected _

section Step
variable {room : Nat}

theorem body_local (ih : AllLocal room) : Local (body (room + 1)) := by
  unfold body
  refine .token fun t => ?_
  split
  · exact Local.advance.bind fun _ => ih.body
  · exact Local.advance.bind fun _ => .pure _
  · exact .unexpected _
  · exact ih.stmt.bind fun first => ih.body.bind fun stmts => .pure _

theorem stmt_local (ih : AllLocal room) : Local (stmt (room + 1)) := by
  unfold stmt
  refine .token fun t => ?_
  split
  · next name =>
      refine Local.advance.bind fun _ => .token fun t => ?_
      split
      · exact .assignment name
      · refine (Local.port name).bind fun node => .token fun t => ?_
        split
        · exact ih.edges _
        · exact (Local.attrLists room).bind fun attrs => .pure _
  · split
    · refine ih.subgraph.bind fun b => .token fun t => ?_
      split
      · exact ih.edges _
      · exact .pure _
    · split
      · exact Local.advance.bind fun _ => (Local.attrList room).bind fun attrs => .pure _
      · exact .unexpected _

theorem subgraph_local (ih : AllLocal room) : Local (subgraph (room + 1)) := by
  unfold subgraph
  refine .token fun t => ?_
  split
  · exact Local.advance.bind fun _ => Local.id?.bind fun name => (Local.mark _).bind fun _ =>
      ih.body.bind fun stmts => .pure _
  · exact (Local.mark _).bind fun _ => ih.body.bind fun stmts => .pure _

theorem hops_local (ih : AllLocal room) : Local (hops (room + 1)) := by
  unfold hops
  refine .token fun t => ?_
  split
  · exact .pure _
  · next op _ =>
      refine (Local.checkOp op).bind fun _ => Local.advance.bind fun _ => .token fun t => ?_
      have hmore : ∀ head : Operand, Local (do return (op, head) :: (← hops room)) :=
        fun head => ih.hops.bind fun hs => .pure _
      split
      · exact ih.subgraph.bind fun b => (Local.pure _).bind hmore
      · exact (Local.nodeId.map _).bind hmore

theorem edges_local (ih : AllLocal room) (tail : Operand) : Local (edges (room + 1) tail) := by
  unfold edges
  exact ih.hops.bind fun hs => (Local.attrLists room).bind fun attrs => .pure _

end Step

/-- With any room, the steps of statements are local. -/
theorem allLocal (room : Nat) : AllLocal room := by
  induction room with
  | zero => exact allLocal_zero
  | succ room ih =>
      exact ⟨body_local ih, stmt_local ih, subgraph_local ih, hops_local ih, edges_local ih⟩

/-! ## Graphs and files -/

namespace Local

theorem ofKind (room : Nat) (strict : Bool) (kind : GraphKind) :
    Local (ofKind room strict kind) :=
  (Local.setDirected _).bind fun _ => Local.advance.bind fun _ => Local.id?.bind fun _ =>
    (Local.mark _).bind fun _ => (allLocal room).body.bind fun _ => .pure _

theorem ofKeyword (room : Nat) (strict : Bool) : Local (ofKeyword room strict) := by
  refine .token fun t => ?_
  split
  · exact .ofKind room strict .graph
  · exact .ofKind room strict .digraph
  · exact .unexpected _

theorem graph (room : Nat) : Local (graph room) := by
  rw [graph_eq]
  refine .token fun t => ?_
  split
  · exact Local.advance.bind fun _ => .ofKeyword room true
  · exact .ofKeyword room false

theorem graphs (room : Nat) : Local (graphs room) := by
  induction room with
  | zero => exact .unexpected _
  | succ room ih =>
      refine .token fun t => ?_
      split
      · exact .pure _
      · exact (Local.graph room).bind fun first => ih.bind fun trees => .pure _

theorem file (room : Nat) : Local (file room) :=
  Local.advance.bind fun _ => (Local.graph room).bind fun _ =>
    (Local.graphs room).bind fun _ => .pure _

end Local

/-! ## Files that go on from a failure -/

theorem placed_zero (more : List Lexeme) (p : Parser) : p.placed 0 more = p.followed more := by
  have hmap : p.rest.map (Lexeme.shift 0) = p.rest := List.map_id p.rest
  rw [placed, hmap]
  rfl

theorem Tracks.file {k room room' : Nat} {more : List Lexeme} {p : Parser}
    (hc : p.current.token ≠ .finish) (hr : 4 * p.rest.length ≤ room)
    (hr' : 4 * p.rest.length ≤ room') : Tracks k more (file room) (file room') p := by
  refine (Tracks.advance hc).bind fun _ q hq _ => ?_
  have hlen := (runs_advance.1 hq).length
  refine (Tracks.graph (by omega) (by omega)).bind fun first r hr _ => ?_
  have hlen' := length_of_graph hr
  exact (Tracks.graphs (by omega) (by omega)).bind fun _ _ _ _ => .pure _

theorem length_followed (more : List Lexeme) (p : Parser) :
    (p.followed more).rest.length = p.rest.length + more.length := List.length_append

theorem eq_followed {p : Parser} {c : Lexeme} {ts back : List Lexeme}
    (hp : p.lexemes = c :: ts ++ back) : p = followed back ⟨c, ts, p.directed⟩ := by
  obtain ⟨hc, hr⟩ := List.cons.inj hp
  rw [followed, ← hc]
  exact congrArg (Parser.mk p.current · p.directed) hr

/-- A failure at a token is the failure of every file that has the same tokens up to
that one. -/
theorem file_fails_with {room : Nat} {p q : Parser} {e : SyntaxFault}
    (hc : p.current.token ≠ .finish) (hr : 4 * p.rest.length ≤ room)
    (h : file room p = .error e q) (he : e.reason ≠ .pastEnd) :
    ∃ front, p.lexemes = front ++ q.lexemes ∧ ∀ {p' : Parser} {more room'},
      p'.lexemes = front ++ q.current :: more → p'.directed = p.directed →
        4 * p'.rest.length ≤ room' → Fails (file room') p' e := by
  have hs := (Local.file room).suffix p
  rw [h] at hs
  obtain ⟨front, hfront⟩ := hs
  refine ⟨front, hfront.symm, fun {p' more room'} hp' hd hroom => ?_⟩
  obtain ⟨c, ts, hts⟩ := List.exists_cons_of_ne_nil (List.concat_ne_nil q.current front)
  have split : ∀ back, front ++ q.current :: back = c :: ts ++ back := by simp [← hts]
  have hp := eq_followed (hfront.symm.trans (split q.rest))
  have hp'' := eq_followed (hp'.trans (split more))
  rw [hd] at hp''
  have hcut : file room (followed q.rest ⟨c, ts, p.directed⟩) =
      outcomeFollowed q.rest (file room ⟨c, ts, p.directed⟩) :=
    (Local.file room).cut (by
      rw [← hp, h]
      exact Nat.le_refl _)
  rw [← hp, h] at hcut
  cases hx : file room ⟨c, ts, p.directed⟩ with
  | ok trees q0 =>
      rw [hx] at hcut
      cases hcut
  | error e0 q0 =>
      rw [hx] at hcut
      injection hcut with he0
      subst he0
      rw [hp] at hc hr
      rw [hp''] at hroom ⊢
      rw [length_followed] at hr hroom
      have track : Tracks 0 more (file room) (file room') ⟨c, ts, p.directed⟩ :=
        .file hc (by omega) (by omega)
      rw [← placed_zero]
      exact track.fails ⟨q0, hx⟩ (.moved fun h => absurd h he)

end DotLang.Parser
