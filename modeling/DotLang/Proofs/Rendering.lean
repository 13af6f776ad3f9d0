import DotLang.Proofs.Parsing
import DotLang.Proofs.SafeIds
import DotLang.Tree.Render
/-!
# Parsing undoes rendering

A tree is writable if all its IDs are safe, its names of attributes and ports
are safe in the form that is chosen for them, and every edge has a hop and the
operator of the graph.  `Tree.parse_render` says that the text of a writable tree
is parsed as that tree.

The induction goes along the writable tree and holds in front of any text that
is lexed.  A piece gives some tokens that spell it, and the parser is not looked
at before the whole text is lexed: that these tokens are parsed as the tree is
what `Tree.parse_complete` says.
-/

namespace DotLang

open Text

/-! ## Writable trees -/

/-- The node can be written with its port. -/
structure NodeId.Safe (n : NodeId) : Prop where
  name : n.name.Safe
  port : ∀ p ∈ n.port, (Id.ofText p).Safe

/-- The entry can be written. -/
structure SafeEntry (e : String × Id) : Prop where
  key : (Id.ofText e.1).Safe
  value : e.2.Safe

/-- All of the entries can be written. -/
def SafeEntries (attrs : AttrList) : Prop := ∀ e ∈ attrs, SafeEntry e

instance (e : String × Id) : Decidable (SafeEntry e) :=
  decidable_of_iff ((Id.ofText e.1).Safe ∧ e.2.Safe)
    ⟨fun h => ⟨h.1, h.2⟩, fun h => ⟨h.key, h.value⟩⟩

instance (attrs : AttrList) : Decidable (SafeEntries attrs) :=
  inferInstanceAs (Decidable (∀ e ∈ attrs, SafeEntry e))

mutual

/-- All statements of the body can be written in a graph with that operator. -/
inductive WritableBody (op : EdgeOp) : List Stmt → Prop
  | nil : WritableBody op []
  | cons {first : Stmt} {stmts : List Stmt} (stmt : WritableStmt op first)
      (rest : WritableBody op stmts) : WritableBody op (first :: stmts)

/-- The statement can be written. -/
inductive WritableStmt (op : EdgeOp) : Stmt → Prop
  | node {id : NodeId} {attrs : AttrList} (node : id.Safe) (entries : SafeEntries attrs) :
      WritableStmt op (.node id attrs)
  | edge {tail : Operand} {hops : List (EdgeOp × Operand)} {attrs : AttrList}
      (operand : WritableOperand op tail) (heads : WritableHops op hops) (some_hop : hops ≠ [])
      (entries : SafeEntries attrs) : WritableStmt op (.edge tail hops attrs)
  | defaults {attrs : AttrList} (element : Element) (entries : SafeEntries attrs) :
      WritableStmt op (.defaults element attrs)
  | subgraph {name : Option Id} {stmts : List Stmt} (safe : ∀ i ∈ name, i.Safe)
      (body : WritableBody op stmts) : WritableStmt op (.subgraph name stmts)

/-- The operand can be written. -/
inductive WritableOperand (op : EdgeOp) : Operand → Prop
  | node {id : NodeId} (node : id.Safe) : WritableOperand op (.node id)
  | subgraph {name : Option Id} {stmts : List Stmt} (safe : ∀ i ∈ name, i.Safe)
      (body : WritableBody op stmts) : WritableOperand op (.subgraph name stmts)

/-- The hops can be written, and all have the operator. -/
inductive WritableHops (op : EdgeOp) : List (EdgeOp × Operand) → Prop
  | nil : WritableHops op []
  | cons {head : Operand} {hops : List (EdgeOp × Operand)} (operand : WritableOperand op head)
      (rest : WritableHops op hops) : WritableHops op ((op, head) :: hops)

end

/-- The tree can be written. -/
structure Tree.Writable (t : Tree) : Prop where
  name : ∀ i ∈ t.name, i.Safe
  body : WritableBody t.kind.edgeOp t.body

/-! ## Pieces of a text -/

/-- In front of any text the characters are lexed as tokens that spell
something. -/
def Written (text : List Char) (Spells : List Token → Prop) : Prop :=
  ∀ {rest : List Char} {us : List Token}, Lexes rest us →
    ∃ ts, Spells ts ∧ Lexes (text ++ rest) (ts ++ us)

/-- The same in front of a text that does not go on a word. -/
def WrittenBounded (text : List Char) (Spells : List Token → Prop) : Prop :=
  ∀ {rest : List Char} {us : List Token}, Bounds rest → Lexes rest us →
    ∃ ts, Spells ts ∧ Lexes (text ++ rest) (ts ++ us)

theorem indentation_blank (depth : Nat) : (indentation depth).all isBlank = true := by
  unfold indentation
  rw [List.all_eq_true]
  intro c hc
  rw [List.eq_of_mem_replicate hc]
  decide

@[simp] theorem Id.ofText_value (text : String) : (Id.ofText text).value = text := by
  unfold Id.ofText
  split
  · rfl
  · split <;> rfl

/-! ## Nodes and attributes -/

theorem NodeId.Safe.written {n : NodeId} (h : n.Safe) :
    WrittenBounded n.render (SpellsNodeId · n) := by
  intro rest us hb hr
  obtain ⟨name, port⟩ := n
  cases port with
  | none =>
      refine ⟨_, .bare name, ?_⟩
      simpa [NodeId.render] using Lexes.id h.name hb hr
  | some p =>
      have hport := Lexes.mark (c := ':') rfl (Lexes.id (h.port p rfl) hb hr)
      have hname := Lexes.id h.name (bounds_cons (by decide) (by decide) _) hport
      have hspells := SpellsNodeId.port name (Id.ofText p)
      rw [Id.ofText_value] at hspells
      exact ⟨_, hspells, by simpa [NodeId.render] using hname⟩

section Attributes
variable {rest : List Char} {us : List Token}

theorem SafeEntry.written {e : String × Id} (h : SafeEntry e) (hb : Bounds rest)
    (hr : Lexes rest us) :
    Lexes (renderAttr e ++ rest) (.id (Id.ofText e.1) :: .mark .equal :: .id e.2 :: us) := by
  have hvalue := Lexes.mark (c := '=') rfl (Lexes.id h.value hb hr)
  have hkey := Lexes.id h.key (bounds_cons (by decide) (by decide) _) hvalue
  simpa [renderAttr] using hkey

/-- An entry is spelled with its name in the form that is chosen for it. -/
theorem spellsEntries_cons (e : String × Id) {sep ts : List Token} {attrs : AttrList}
    (separator : SpellsSeparator sep) (entries : SpellsEntries ts attrs) :
    SpellsEntries (.id (Id.ofText e.1) :: .mark .equal :: .id e.2 :: (sep ++ ts))
      (e :: attrs) := by
  have h := @SpellsEntries.cons (Id.ofText e.1) e.2 sep ts attrs separator entries
  rw [Id.ofText_value] at h
  exact h

/-- Entries are read back in front of their closing bracket. -/
theorem SafeEntries.written {attrs : AttrList} (h : SafeEntries attrs) (hr : Lexes rest us) :
    ∃ ts, SpellsEntries ts attrs ∧
      Lexes (renderEntries attrs ++ ']' :: rest) (ts ++ .mark .closeBracket :: us) := by
  fun_induction renderEntries attrs with
  | case1 => exact ⟨[], .nil, .mark rfl hr⟩
  | case2 e =>
      have he := (h e List.mem_cons_self).written (bounds_cons (c := ']') (by decide) (by decide) _)
        (.mark rfl hr)
      have hspells := spellsEntries_cons e .nothing .nil
      exact ⟨_, hspells, he⟩
  | case3 e attrs _ ih =>
      obtain ⟨ts, spelled, hl⟩ := ih fun e' he' => h e' (List.mem_cons_of_mem _ he')
      have he := (h e List.mem_cons_self).written (bounds_cons (by decide) (by decide) _)
        (.mark (c := ',') rfl (.blank (c := ' ') (by decide) hl))
      have hspells := spellsEntries_cons e .comma spelled
      exact ⟨_, hspells, by simpa using he⟩

theorem SafeEntries.written_bracketed {attrs : AttrList} (h : SafeEntries attrs) :
    Written (renderBracketed attrs) fun ts => SpellsAttrs ts attrs ∧ ts ≠ [] := by
  intro rest us hr
  obtain ⟨ts, spelled, hl⟩ := h.written hr
  have hopen := Lexes.blank (c := ' ') (by decide) (.mark (c := '[') rfl hl)
  have hspells := SpellsAttrs.cons spelled .nil
  rw [List.append_nil] at hspells
  exact ⟨_, ⟨hspells, by simp⟩, by simpa [renderBracketed] using hopen⟩

theorem SafeEntries.written_attrs {attrs : AttrList} (h : SafeEntries attrs) :
    Written (renderAttrs attrs) (SpellsAttrs · attrs) := by
  intro rest us hr
  unfold renderAttrs
  split
  · next he =>
      rw [List.isEmpty_iff.1 he]
      exact ⟨[], .nil, hr⟩
  · obtain ⟨ts, ⟨spelled, _⟩, hl⟩ := h.written_bracketed hr
    exact ⟨ts, spelled, hl⟩

/-- Neither attribute lists nor the end of a line go on a word. -/
theorem bounds_renderAttrs (attrs : AttrList) (rest : List Char) :
    Bounds (renderAttrs attrs ++ '\n' :: rest) := by
  unfold renderAttrs
  split
  · exact bounds_cons (by decide) (by decide) _
  · exact bounds_cons (by decide) (by decide) _

end Attributes

/-! ## Statements -/

theorem renderOpening_none : renderOpening none = ['\x7b', '\n'] := by decide

theorem renderOpening_some (name : Id) :
    renderOpening (some name) =
      Keyword.subgraph.word.toList ++ ' ' :: (name.render ++ [' ', '\x7b', '\n']) := by
  have hs : "subgraph ".toList = Keyword.subgraph.word.toList ++ [' '] := by decide
  have he : " \x7b\n".toList = [' ', '\x7b', '\n'] := by decide
  show "subgraph ".toList ++ name.render ++ " \x7b\n".toList = _
  rw [hs, he]
  simp

/-- Defaults are written as an assignment or behind their keyword. -/
theorem render_defaults (depth : Nat) (element : Element) (attrs : AttrList) :
    (∃ e, element = .graph ∧ attrs = [e] ∧ Stmt.render depth (.defaults element attrs) =
        indentation depth ++ renderAttr e ++ ['\n']) ∨
      Stmt.render depth (.defaults element attrs) = indentation depth ++
        (element.keyword.word.toList ++ renderBracketed attrs) ++ ['\n'] := by
  unfold Stmt.render
  split
  · exact Or.inl ⟨_, rfl, rfl, rfl⟩
  · exact Or.inr rfl

/-- The start of a subgraph and its body in front of the closing brace. -/
theorem written_subgraph {op : EdgeOp} {name : Option Id} {stmts : List Stmt} {depth : Nat}
    (safe : ∀ i ∈ name, i.Safe)
    (body : Written (Stmt.renderBody (depth + 1) stmts) (SpellsBody op · stmts)) :
    Written (renderOpening name ++ Stmt.renderBody (depth + 1) stmts ++ indentation depth ++
      ['\x7d']) (SpellsSubgraph op · name stmts) := by
  intro rest us hr
  obtain ⟨ts, spelled, hl⟩ := body ((Lexes.mark (c := '\x7d') rfl hr).blanks
    (indentation_blank depth))
  have hbody : Lexes ('\x7b' :: '\n' :: (Stmt.renderBody (depth + 1) stmts ++
      (indentation depth ++ '\x7d' :: rest)))
      (.mark .openBrace :: (ts ++ .mark .closeBrace :: us)) :=
    .mark rfl (.blank (by decide) hl)
  cases name with
  | none =>
      refine ⟨_, .bare spelled, ?_⟩
      simpa [renderOpening_none] using hbody
  | some i =>
      have hname := Lexes.id (safe i rfl) (bounds_cons (by decide) (by decide) _)
        (Lexes.blank (c := ' ') (by decide) hbody)
      have hkey := Lexes.keyword .subgraph (bounds_cons (by decide) (by decide) _)
        (Lexes.blank (c := ' ') (by decide) hname)
      refine ⟨_, .keyword (some i) spelled, ?_⟩
      simpa [renderOpening_some] using hkey

/-- Hops go on no word. -/
theorem WritableHops.bounds {op : EdgeOp} {hops : List (EdgeOp × Operand)} {depth : Nat}
    {rest : List Char} (h : WritableHops op hops) (hb : Bounds rest) :
    Bounds (Stmt.renderHops depth hops ++ rest) := by
  cases h with
  | nil => exact hb
  | cons => exact bounds_cons (by decide) (by decide) _

mutual

theorem WritableBody.written {op : EdgeOp} {depth : Nat} {stmts : List Stmt} :
    WritableBody op stmts → Written (Stmt.renderBody depth stmts) (SpellsBody op · stmts)
  | .nil, _, _, hr => ⟨[], .nil, hr⟩
  | .cons stmt rest, _, _, hr => by
      obtain ⟨us, body, hl⟩ := rest.written hr
      obtain ⟨ts, first, hl⟩ := stmt.written hl
      refine ⟨ts ++ us, .cons first body, ?_⟩
      simpa [Stmt.renderBody] using hl

theorem WritableStmt.written {op : EdgeOp} {depth : Nat} {s : Stmt} :
    WritableStmt op s → Written (s.render depth) (SpellsStmt op · s)
  | .node node entries, _, _, hr => by
      obtain ⟨us, lists, hl⟩ := entries.written_attrs (.blank (c := '\n') (by decide) hr)
      obtain ⟨ts, first, hl⟩ := node.written (bounds_renderAttrs _ _) hl
      refine ⟨ts ++ us, .node first lists, ?_⟩
      simpa [Stmt.render] using hl.blanks (indentation_blank depth)
  | @WritableStmt.edge _ _ _ attrs operand heads some_hop entries, rest, _, hr => by
      obtain ⟨vs, lists, hl⟩ := entries.written_attrs (.blank (c := '\n') (by decide) hr)
      have hb := bounds_renderAttrs attrs rest
      obtain ⟨us, spelled, hl⟩ := heads.written hb hl
      obtain ⟨ts, first, hl⟩ := operand.written (heads.bounds hb) hl
      refine ⟨ts ++ us ++ vs, .edge first spelled some_hop lists, ?_⟩
      simpa [Stmt.render] using hl.blanks (indentation_blank depth)
  | @WritableStmt.defaults _ attrs element entries, _, _, hr => by
      have hr := Lexes.blank (c := '\n') (by decide) hr
      rcases render_defaults depth element attrs with he | he
      · obtain ⟨e, rfl, rfl, he⟩ := he
        have hl := (entries e List.mem_cons_self).written
          (bounds_cons (by decide) (by decide) _) hr
        have hspells : SpellsStmt op _ _ := .assignment (Id.ofText e.1) e.2
        rw [Id.ofText_value] at hspells
        refine ⟨_, hspells, ?_⟩
        simpa [he] using hl.blanks (indentation_blank depth)
      · obtain ⟨ts, ⟨lists, some_list⟩, hl⟩ := entries.written_bracketed hr
        have hkey := Lexes.keyword element.keyword (bounds_cons (by decide) (by decide) _) hl
        refine ⟨_, .defaults element lists some_list, ?_⟩
        simpa [he, renderBracketed] using hkey.blanks (indentation_blank depth)
  | .subgraph safe body, _, _, hr => by
      obtain ⟨ts, spelled, hl⟩ := written_subgraph safe body.written
        (.blank (c := '\n') (by decide) hr)
      refine ⟨ts, .subgraph spelled, ?_⟩
      simpa [Stmt.render] using hl.blanks (indentation_blank depth)

theorem WritableOperand.written {op : EdgeOp} {depth : Nat} {o : Operand} :
    WritableOperand op o → WrittenBounded (o.render depth) (SpellsOperand op · o)
  | .node node, _, _, hb, hr => by
      obtain ⟨ts, spelled, hl⟩ := node.written hb hr
      exact ⟨ts, .node spelled, hl⟩
  | .subgraph safe body, _, _, _, hr => by
      obtain ⟨ts, spelled, hl⟩ := written_subgraph safe body.written hr
      exact ⟨ts, .subgraph spelled, hl⟩

theorem WritableHops.written {op : EdgeOp} {depth : Nat} {hops : List (EdgeOp × Operand)} :
    WritableHops op hops → WrittenBounded (Stmt.renderHops depth hops) (SpellsHops op · hops)
  | .nil, _, _, _, hr => ⟨[], .nil, hr⟩
  | .cons operand rest, _, _, hb, hr => by
      obtain ⟨us, spelled, hl⟩ := rest.written hb hr
      obtain ⟨ts, first, hl⟩ := operand.written (rest.bounds hb) hl
      have hop := Lexes.op op (.blank (c := ' ') (by decide) hl)
      refine ⟨_, .cons first spelled, ?_⟩
      simpa [Stmt.renderHops] using Lexes.blank (c := ' ') (by decide) hop

end

/-! ## Whole trees -/

/-- The text of a tree with its literal parts as lists. -/
theorem Tree.render_mk (strict : Bool) (kind : GraphKind) (name : Option Id) (body : List Stmt) :
    Tree.render ⟨strict, kind, name, body⟩ =
      (if strict then Keyword.strict.word.toList ++ [' '] else []) ++
        (kind.keyword.word.toList ++ (name.elim [] (' ' :: ·.render) ++
          ' ' :: '\x7b' :: '\n' :: (Stmt.renderBody 1 body ++ ['\x7d', '\n']))) := by
  have hs : "strict ".toList = Keyword.strict.word.toList ++ [' '] := by decide
  have ho : " \x7b\n".toList = [' ', '\x7b', '\n'] := by decide
  have hc : "\x7d\n".toList = ['\x7d', '\n'] := by decide
  unfold Tree.render
  rw [hs, ho, hc]
  cases name <;> simp only [List.append_assoc, List.cons_append, List.nil_append, Option.elim]

/-- The text of a writable tree is lexed as tokens that spell the tree. -/
theorem Tree.Writable.written {t : Tree} (h : t.Writable) :
    ∃ ts, SpellsTree ts t ∧ Lexes t.render ts := by
  obtain ⟨strict, kind, name, stmts⟩ := t
  have hwritten : Written (Stmt.renderBody 1 stmts) (SpellsBody kind.edgeOp · stmts) :=
    h.body.written
  obtain ⟨ts, spelled, hl⟩ := hwritten (Lexes.mark (c := '\x7d') rfl (.blank (c := '\n') (by decide) .nil))
  rw [Tree.render_mk]
  generalize hb : ' ' :: '\x7b' :: '\n' :: (Stmt.renderBody 1 stmts ++ ['\x7d', '\n']) = body
  have hbound : Bounds body := hb ▸ bounds_cons (by decide) (by decide) _
  have hbody : Lexes body (.mark .openBrace :: (ts ++ [.mark .closeBrace])) := by
    rw [← hb]
    exact .blank (by decide) (.mark rfl (.blank (by decide) hl))
  have hname : Bounds (name.elim [] (' ' :: ·.render) ++ body) ∧
      Lexes (name.elim [] (' ' :: ·.render) ++ body)
        (name.toList.map .id ++ .mark .openBrace :: (ts ++ [.mark .closeBrace])) := by
    cases name with
    | none => exact ⟨hbound, hbody⟩
    | some i =>
        have hi := Lexes.blank (c := ' ') (by decide) (Lexes.id (h.name i rfl) hbound hbody)
        exact ⟨bounds_cons (by decide) (by decide) _, hi⟩
  have hkind := Lexes.keyword kind.keyword hname.1 hname.2
  refine ⟨_, .mk strict kind name spelled, ?_⟩
  cases strict with
  | false => exact hkind
  | true =>
      have hstrict := Lexes.keyword .strict (bounds_cons (by decide) (by decide) _)
        (Lexes.blank (c := ' ') (by decide) hkind)
      simpa using hstrict

/-- The text of a writable tree is parsed as the tree. -/
theorem Tree.parse_render {t : Tree} (h : t.Writable) :
    Tree.parse (String.ofList t.render) = .ok [t] := by
  obtain ⟨ts, spelled, hl⟩ := h.written
  refine Tree.parse_complete ?_
  rw [hl.tokensOf]
  exact .one spelled

end DotLang
