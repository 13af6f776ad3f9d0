import DotLang.Proofs.TokenForms
/-!
# Tokens can be written again

A token that is read somewhere in a text can be written on its own, in front of
anything that does not go on a word or a numeral (`Token.Writable`).  So every
sequence of such tokens is the sequence of a text (`exists_text`).

The piece of text that was read is written again, and not a spelling of the ID:
there are quoted strings that no spelling of `Id.render` gives back.  In front of
further tokens the piece is read as before (`ReadsToken.replace`).
-/

namespace DotLang

open Text

/-- There is a piece of text that is read as the token. -/
def Token.Writable (t : Token) : Prop :=
  ∃ w, ∀ {cs ts}, Bounds cs → Lexes cs ts → Lexes (w ++ cs) (t :: ts)

/-- Blanks between the pieces keep them apart. -/
theorem exists_text {ts : List Token} (h : ∀ t ∈ ts, t.Writable) :
    ∃ text, tokensOf text = ts ++ [.finish] := by
  have hlex : ∃ cs, Lexes cs ts := by
    induction ts with
    | nil => exact ⟨[], .nil⟩
    | cons t ts ih =>
        obtain ⟨⟨w, hw⟩, hts⟩ := List.forall_mem_cons.1 h
        obtain ⟨cs, hcs⟩ := ih hts
        exact ⟨_, hw (bounds_cons (by decide) (by decide) cs) (.blank (c := ' ') (by decide) hcs)⟩
  obtain ⟨cs, hcs⟩ := hlex
  exact ⟨_, hcs.tokensOf⟩

/-! ## Marks and keywords -/

theorem writable_mark (m : Mark) : (Token.mark m).Writable := by
  cases m with
  | equal => exact ⟨['='], fun _ => .mark rfl⟩
  | colon => exact ⟨[':'], fun _ => .mark rfl⟩
  | comma => exact ⟨[','], fun _ => .mark rfl⟩
  | semicolon => exact ⟨[';'], fun _ => .mark rfl⟩
  | arrow => exact ⟨_, fun _ => .op .arrow⟩
  | line => exact ⟨_, fun _ => .op .line⟩
  | openBracket => exact ⟨['['], fun _ => .mark rfl⟩
  | closeBracket => exact ⟨[']'], fun _ => .mark rfl⟩
  | openBrace => exact ⟨['\x7b'], fun _ => .mark rfl⟩
  | closeBrace => exact ⟨['\x7d'], fun _ => .mark rfl⟩

theorem writable_keyword (k : Keyword) : (Token.keyword k).Writable :=
  ⟨_, .keyword k⟩

/-! ## Tokens that were read -/

/-- A bound in front of further tokens ends every token. -/
theorem Lexes.stopsAt {cs : List Char} {ts : List Token} (h : Lexes cs ts) (hb : Bounds cs)
    (t : Token) : t.StopsAt cs where
  first c hc := by
    obtain ⟨hchar, hpoint⟩ := hb c hc
    have hstart : isIdStart c = false ∧ c.isDigit = false := by
      rwa [isIdChar, Bool.or_eq_false_iff] at hchar
    unfold Token.runsInto
    split <;> simp [hchar, hstart, hpoint]
  not_joined _ _ _ := h.not_plus false

/-- What is read is written again, if it is no fault. -/
theorem ReadsToken.writable {c : Char} {cs rest : List Char} {t : Token}
    (h : ReadsToken (c :: cs) t rest) (hb : isBlank c = false) : t.Writable := by
  obtain ⟨w, -, hw⟩ := h.replace
  exact ⟨c :: w, fun hbound hlex =>
    .token (h.startsToken hb) (hw _ (hlex.stopsAt hbound t)).readToken hlex⟩

/-- A token of a text, which is neither its end nor a fault, is written again. -/
theorem Lexer.writable_of_mem {l : Lexer} {t : Token} (h : t ∈ l.lexemes.map Lexeme.token)
    (ht : t.Inner) : t.Writable := by
  obtain ⟨c, cs, rest, hb, hread⟩ := exists_readsToken h ht
  exact hread.writable hb

end DotLang
