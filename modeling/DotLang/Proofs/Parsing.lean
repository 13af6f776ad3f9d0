import DotLang.Proofs.ParserCompleteness
import DotLang.Proofs.ParserSoundness
/-!
# Parsing decides the grammar

A text parses just if it holds no fault and its tokens spell a file, and the
result is the one list of trees that they spell.

One direction reads a run of the parser as a derivation.  It needs that the
parser stops at the last token, which the lexer gives, and that no derivation
passes a fault.  The other direction finds a run for a derivation.  As a step of
the parser gives one result only, this also shows that tokens spell one file
only, without a look at two derivations at once.
-/

namespace DotLang

/-! ## The tokens of a text -/

/-- A token is neither the end of the text nor a fault. -/
structure Token.Inner (t : Token) : Prop where
  not_finish : t ≠ .finish
  not_fault : ∀ f, t ≠ .fault f

theorem Token.Inner.id (i : Id) : (Token.id i).Inner := ⟨by simp, by simp⟩

theorem Token.Inner.keyword (k : Keyword) : (Token.keyword k).Inner := ⟨by simp, by simp⟩

theorem Token.Inner.mark (m : Mark) : (Token.mark m).Inner := ⟨by simp, by simp⟩

/-- All of the tokens are inner ones. -/
def AllInner (ts : List Token) : Prop := ∀ t ∈ ts, t.Inner

@[simp] theorem allInner_nil : AllInner [] := by simp [AllInner]

@[simp] theorem allInner_cons {t : Token} {ts : List Token} :
    AllInner (t :: ts) ↔ t.Inner ∧ AllInner ts := by simp [AllInner]

@[simp] theorem allInner_append {ts us : List Token} :
    AllInner (ts ++ us) ↔ AllInner ts ∧ AllInner us := by
  simp only [AllInner, List.mem_append, or_imp, forall_and]

theorem allInner_name (name : Option Id) : AllInner (name.toList.map .id) := by
  cases name with
  | none => exact allInner_nil
  | some i => exact allInner_cons.2 ⟨.id i, allInner_nil⟩

/-! ## The tokens of a derivation -/

theorem SpellsNodeId.inner {ts : List Token} {n : NodeId} (h : SpellsNodeId ts n) :
    AllInner ts := by
  cases h <;> simp [Token.Inner.id, Token.Inner.mark]

theorem SpellsEntries.inner {ts : List Token} {attrs : AttrList} (h : SpellsEntries ts attrs) :
    AllInner ts := by
  induction h with
  | nil => exact allInner_nil
  | cons separator _ ih =>
      cases separator <;> simp [Token.Inner.id, Token.Inner.mark, ih]

theorem SpellsAttrs.inner {ts : List Token} {attrs : AttrList} (h : SpellsAttrs ts attrs) :
    AllInner ts := by
  induction h with
  | nil => exact allInner_nil
  | cons entries _ ih => simp [Token.Inner.mark, entries.inner, ih]

mutual

theorem SpellsBody.inner {op : EdgeOp} {ts : List Token} {stmts : List Stmt} :
    SpellsBody op ts stmts → AllInner ts
  | .nil => allInner_nil
  | .semicolon rest => allInner_cons.2 ⟨.mark _, rest.inner⟩
  | .cons stmt rest => allInner_append.2 ⟨stmt.inner, rest.inner⟩

theorem SpellsStmt.inner {op : EdgeOp} {ts : List Token} {s : Stmt} :
    SpellsStmt op ts s → AllInner ts
  | .assignment _ _ => by simp [Token.Inner.id, Token.Inner.mark]
  | .node node lists => allInner_append.2 ⟨node.inner, lists.inner⟩
  | .edge operand heads _ lists =>
      allInner_append.2 ⟨allInner_append.2 ⟨operand.inner, heads.inner⟩, lists.inner⟩
  | .defaults _ lists _ => allInner_cons.2 ⟨.keyword _, lists.inner⟩
  | .subgraph subgraph => subgraph.inner

theorem SpellsOperand.inner {op : EdgeOp} {ts : List Token} {o : Operand} :
    SpellsOperand op ts o → AllInner ts
  | .node node => node.inner
  | .subgraph subgraph => subgraph.inner

theorem SpellsHops.inner {op : EdgeOp} {ts : List Token} {hs : List (EdgeOp × Operand)} :
    SpellsHops op ts hs → AllInner ts
  | .nil => allInner_nil
  | .cons operand rest =>
      allInner_cons.2 ⟨.mark _, allInner_append.2 ⟨operand.inner, rest.inner⟩⟩

theorem SpellsSubgraph.inner {op : EdgeOp} {ts : List Token} {name : Option Id}
    {stmts : List Stmt} : SpellsSubgraph op ts name stmts → AllInner ts
  | .bare body => by simp [Token.Inner.mark, body.inner]
  | .keyword name body => by
      simp [Token.Inner.keyword, Token.Inner.mark, allInner_name, body.inner]

end

theorem SpellsTree.inner {ts : List Token} {tree : Tree} (h : SpellsTree ts tree) :
    AllInner ts := by
  cases h with
  | mk strict kind name body =>
      cases strict <;>
        simp [Token.Inner.keyword, Token.Inner.mark, allInner_name, body.inner]

/-- Before the end of the text the tokens of a file are inner ones. -/
theorem SpellsFile.inner {ts : List Token} {trees : List Tree} (h : SpellsFile ts trees) :
    ∃ us, ts = us ++ [.finish] ∧ AllInner us := by
  induction h with
  | one tree => exact ⟨_, rfl, tree.inner⟩
  | cons tree _ ih =>
      obtain ⟨us, rfl, hus⟩ := ih
      exact ⟨_, (List.append_assoc _ _ _).symm, allInner_append.2 ⟨tree.inner, hus⟩⟩

theorem SpellsFile.faultless {ts : List Token} {trees : List Tree} (h : SpellsFile ts trees) :
    Parser.Faultless ts := by
  obtain ⟨us, rfl, hus⟩ := h.inner
  intro f hf
  rcases List.mem_append.1 hf with hf | hf
  · exact (hus _ hf).not_fault f rfl
  · simp at hf

/-! ## The end of a text -/

theorem readToken_not_finish (c : Char) (cs : List Char) :
    (readToken (c :: cs)).1 ≠ .finish := by
  simp only [readToken]
  repeat' split
  · simp
  · unfold readString
    split <;> simp
  · unfold readHtml
    split <;> simp
  · unfold readDash
    repeat' split
    all_goals simp
  · unfold Token.ofWord
    split <;> simp
  · unfold readNumeral
    repeat' split
    all_goals simp
  · simp

/-- The lexer ends with the end of the text, which it gives nowhere else. -/
theorem Lexer.lexemes_finish (l : Lexer) :
    ∃ ts, l.lexemes.map Lexeme.token = ts ++ [.finish] ∧ Token.finish ∉ ts := by
  fun_induction Lexer.lexemes l with
  | case1 l h => exact ⟨[], rfl, by simp⟩
  | case2 l h ih =>
      obtain ⟨ts, hts, hn⟩ := ih
      refine ⟨l.next.1 :: ts, by simp [hts], fun hm => ?_⟩
      rcases List.mem_cons.1 hm with he | hm
      · obtain ⟨c, cs, hc⟩ := List.exists_cons_of_ne_nil h
        refine readToken_not_finish c cs ?_
        rw [← hc]
        exact he.symm
      · exact hn hm

theorem tokensOf_finish (text : String) :
    ∃ ts, tokensOf text = ts ++ [.finish] ∧ Token.finish ∉ ts :=
  (Lexer.ofText text.toList).lexemes_finish

/-! ## Parsing -/

/-- Nothing stands behind the end of the text. -/
theorem eq_nil_behind_finish {ts us vs : List Token}
    (h : ts ++ [.finish] = us ++ .finish :: vs) (hn : Token.finish ∉ ts) : vs = [] := by
  rcases List.eq_nil_or_concat vs with hv | hv
  · exact hv
  · obtain ⟨ws, t, rfl⟩ := hv
    rw [List.concat_eq_append, ← List.cons_append, ← List.append_assoc] at h
    obtain ⟨rfl, _⟩ := List.append_inj' h rfl
    exact absurd (List.mem_append_right us List.mem_cons_self) hn

theorem Tree.parse_eq_ok {text : String} {trees : List Tree} :
    Tree.parse text = .ok trees ↔
      ∃ q, Runs (Parser.file (Parser.ofText text.toList).room) (Parser.ofText text.toList)
        trees q := by
  unfold Tree.parse
  constructor
  · intro h
    split at h
    · next trees' q hr =>
        cases h
        exact ⟨q, runs_get_bind.1 hr⟩
    · cases h
  · rintro ⟨q, h⟩
    rw [show (Parser.withRoom Parser.file).run (Parser.ofText text.toList) = .ok trees q from
      runs_get_bind.2 h]

theorem Tree.parse_eq_error {text : String} {e : SyntaxError} :
    Tree.parse text = .error e ↔
      ∃ f, Fails (Parser.file (Parser.ofText text.toList).room) (Parser.ofText text.toList) f ∧
        e = f.inText text.toList := by
  unfold Tree.parse
  constructor
  · intro h
    split at h
    · cases h
    · next f q hr =>
        cases h
        exact ⟨f, fails_get_bind.1 ⟨q, hr⟩, rfl⟩
  · rintro ⟨f, h, rfl⟩
    obtain ⟨q, hq⟩ := h
    rw [show (Parser.withRoom Parser.file).run (Parser.ofText text.toList) = .error f q from hq]

/-- What the parser gives for a text is spelled by all its tokens. -/
theorem Tree.parse_sound {text : String} {trees : List Tree}
    (h : Tree.parse text = .ok trees) : SpellsFile (tokensOf text) trees := by
  obtain ⟨q, hq⟩ := Tree.parse_eq_ok.1 h
  obtain ⟨hf, ts, hts, spelled⟩ := Parser.file_sound hq
  have htok : tokensOf text = ts ++ q.tokens := (List.cons.inj hts).2
  obtain ⟨us, hus, hn⟩ := tokensOf_finish text
  rw [htok] at hus
  unfold Parser.tokens at htok hus
  rw [hf] at htok hus
  rw [eq_nil_behind_finish hus.symm hn] at htok
  rw [htok]
  exact spelled

/-- Before a file the parser gives what the tokens ahead spell. -/
theorem SpellsFile.runs {p : Parser} {room : Nat} {trees : List Tree}
    (h : SpellsFile (p.rest.map Lexeme.token) trees) (hc : p.current.token = .mark .colon)
    (hr : 4 * p.rest.length < room) : ∃ q, Runs (Parser.file room) p trees q := by
  refine Parser.file_gives (by simp [hc]) (fun f hf => ?_) h hr
  rcases List.mem_cons.1 hf with hf | hf
  · simp [hc] at hf
  · exact h.faultless f hf

/-- What the tokens of a text spell is what the parser gives. -/
theorem Tree.parse_complete {text : String} {trees : List Tree}
    (h : SpellsFile (tokensOf text) trees) : Tree.parse text = .ok trees := by
  refine Tree.parse_eq_ok.2 (SpellsFile.runs h rfl ?_)
  unfold Parser.room
  omega

/-- Tokens spell one file only, as the parser gives one result only. -/
theorem SpellsFile.unique {ts : List Token} {trees others : List Tree}
    (h : SpellsFile ts trees) (h' : SpellsFile ts others) : trees = others := by
  let p : Parser := ⟨⟨.mark .colon, 0, 0⟩, ts.map fun t => ⟨t, 0, 0⟩, false⟩
  have hrest : p.rest.map Lexeme.token = ts := by
    simp only [p, List.map_map]
    exact List.map_id ts
  rw [← hrest] at h h'
  obtain ⟨q, hq⟩ := h.runs rfl (Nat.lt_succ_self _)
  obtain ⟨q', hq'⟩ := h'.runs rfl (Nat.lt_succ_self _)
  exact (hq.unique hq').1

/-- The parser gives trees for a text just if none of its tokens is a fault and
they spell these trees, and they spell no others. -/
theorem Tree.parse_ok_iff (text : String) (trees : List Tree) :
    (Tree.parse text = .ok trees ↔
      Parser.Faultless (tokensOf text) ∧ SpellsFile (tokensOf text) trees) ∧
    ∀ others, SpellsFile (tokensOf text) trees → SpellsFile (tokensOf text) others →
      others = trees := by
  refine ⟨⟨fun h => ?_, fun h => Tree.parse_complete h.2⟩, fun others h h' => h'.unique h⟩
  exact ⟨(Tree.parse_sound h).faultless, Tree.parse_sound h⟩

end DotLang
