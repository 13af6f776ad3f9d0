import DotLang.Proofs.Gaps
import DotLang.Proofs.Parsing
/-!
# The lexer loses nothing

However a lexer is used, it stays in its text, and the next token stands behind
nothing but a gap (`Lexer.Advances`).  A token that is not the end takes at least
one character, also when it is a fault.  So reading token after token comes to the
end of the text, and on the way the tokens and the gaps between them are laid out
one behind the other (`Tiles`).

The gap in front of a token is a text (`IsGap`).  What a gap is depends on the line
before it, so a gap between two indexes (`GapAt`) is one together with the text that
surrounds it.
-/

namespace DotLang

open Text

/-! ## Gaps between two indexes -/

/-- From the index `p` up to the index `q` there are blanks and comments only. -/
def GapAt (text : List Char) (p q : Nat) : Prop :=
  p ≤ q ∧ IsGap ((lineBefore text p).all isBlank) ((text.drop p).take (q - p)) (text.drop q)

theorem gapAt_append {before gap behind : List Char}
    (h : IsGap ((before.reverse.takeWhile (· ≠ '\n')).all isBlank) gap behind) :
    GapAt (before ++ gap ++ behind) before.length (before ++ gap).length := by
  have hline : (lineBefore (before ++ gap ++ behind) before.length).all isBlank =
      (before.reverse.takeWhile (· ≠ '\n')).all isBlank := by
    rw [lineBefore, List.append_assoc, List.take_left, List.all_reverse]
  refine ⟨by simp, ?_⟩
  rw [hline, List.drop_left, List.append_assoc, List.drop_left, List.length_append,
    Nat.add_sub_cancel_left, List.take_left]
  exact h

/-- The tokens stand one behind the other, with gaps between them and no character
in two of them, and the last one is the end of the text. -/
inductive Tiles (text : List Char) : Nat → List Lexeme → Prop
  | finish {p : Nat} (gap : GapAt text p text.length) :
      Tiles text p [⟨.finish, text.length, text.length⟩]
  | token {p : Nat} {x : Lexeme} {xs : List Lexeme} (inner : x.token ≠ .finish)
      (gap : GapAt text p x.start) (takes : x.start < x.stop) (inside : x.stop ≤ text.length)
      (rest : Tiles text x.stop xs) : Tiles text p (x :: xs)

namespace Lexer

/-! ## What can be called -/

/-- The operations that move a lexer. -/
inductive Call
  | next
  | skipChar
  | skipBlanks
  | skipComment
  | word
  | number
  | string
  | html
deriving DecidableEq, Repr

/-- The lexer behind an operation. -/
def call (l : Lexer) : Call → Lexer
  | .next => l.next.2
  | .skipChar => l.skipChar
  | .skipBlanks => l.skipBlanks.2
  | .skipComment => l.skipComment.2
  | .word => l.word.2
  | .number => l.number.2
  | .string => l.string.2
  | .html => l.html.2

/-- The lexer behind some operations. -/
def run (l : Lexer) (calls : List Call) : Lexer := calls.foldl call l

/-- What the first `n` readings of a token give. -/
def reads : Nat → Lexer → List Lexeme
  | 0, _ => []
  | n + 1, l => ⟨l.next.1, l.next.2.start, l.next.2.pos⟩ :: reads n l.next.2

/-- The next token stands in the text behind a gap, and so do those that follow. -/
structure Advances (text : List Char) (l : Lexer) : Prop where
  /-- The text does not change. -/
  text_eq : l.text = text
  /-- The position is in the text or at its end. -/
  pos_le : l.pos ≤ text.length
  /-- The character is the one at the position, NUL at the end. -/
  char_eq : l.char = text.getD l.pos '\x00'
  /-- The next token is the end exactly if there is only a gap ahead. -/
  finish_iff : l.next.1 = .finish ↔ GapAt text l.pos text.length
  /-- The end stands at the end. -/
  finish_pos : l.next.1 = .finish → l.next.2.start = text.length ∧ l.next.2.pos = text.length
  /-- Any other token stands behind a gap and takes a character, also a fault. -/
  takes : l.next.1 ≠ .finish → GapAt text l.pos l.next.2.start ∧
    l.next.2.start < l.next.2.pos ∧ l.next.2.pos ≤ text.length
  /-- Reading on, also behind faults, comes to the end, and what is read covers all
  but the gaps. -/
  tiles : ∃ n ≤ text.length, Tiles text l.pos (l.reads (n + 1))

/-! ## Calls -/

variable {l : Lexer}

theorem text_call (l : Lexer) (c : Call) : (l.call c).text = l.text := by
  cases c with
  | next => exact text_next l
  | skipChar => exact text_advance l 1
  | skipBlanks => exact text_moveTo l _
  | skipComment =>
      simp only [call, skipComment]
      split
      · exact text_moveTo l _
      · rfl
  | word => exact text_moveTo l _
  | number => exact text_moveTo l _
  | string => exact text_moveTo l _
  | html => exact text_moveTo l _

theorem text_run (l : Lexer) (calls : List Call) : (l.run calls).text = l.text := by
  induction calls generalizing l with
  | nil => rfl
  | cons c calls ih => exact (ih (l.call c)).trans (text_call l c)

theorem char_eq_getD (l : Lexer) : l.char = l.text.getD l.pos '\x00' := by
  rw [char, text, ← length_reverse_behind, List.getD_eq_getElem?_getD,
    List.getElem?_append_right (Nat.le_refl _), Nat.sub_self, ← List.head?_eq_getElem?,
    List.headD_eq_head?_getD]

/-! ## One token -/

/-- The token stands behind a gap. -/
theorem gapAt_toToken (l : Lexer) : GapAt l.text l.pos l.toToken.pos := by
  obtain ⟨gap, he, hgap⟩ := exists_gap l.lineBlank l.ahead
  have hp : l.toToken.pos = (l.behind.reverse ++ gap).length := by
    show (l.moveTo (skipGap l.lineBlank l.ahead)).pos = _
    rw [moveTo_append he]
    simp [pos, Nat.add_comm]
  have hgap' : IsGap ((l.behind.reverse.reverse.takeWhile (· ≠ '\n')).all isBlank) gap
      (skipGap l.lineBlank l.ahead) := by
    rwa [List.reverse_reverse]
  have h := gapAt_append hgap'
  rwa [List.append_assoc, ← he, length_reverse_behind, ← hp] at h

theorem next_eq_finish_iff : l.next.1 = .finish ↔ l.toToken.ahead = [] := by
  show (readToken l.toToken.ahead).1 = .finish ↔ _
  cases h : l.toToken.ahead with
  | nil => exact iff_of_true rfl rfl
  | cons c cs => exact iff_of_false (readToken_not_finish c cs) (by simp)

/-- Only a gap is ahead exactly if no token is. -/
theorem toToken_eq_nil_iff : l.toToken.ahead = [] ↔ GapAt l.text l.pos l.text.length := by
  have hline : (lineBefore l.text l.pos).all isBlank = l.lineBlank := by
    rw [lineBefore, text, ← length_reverse_behind, List.take_left,
      List.all_reverse, List.reverse_reverse]
    rfl
  have hdrop : l.text.drop l.pos = l.ahead := by
    rw [text, ← length_reverse_behind, List.drop_left]
  have hle : l.pos ≤ l.text.length := by
    rw [length_text]
    exact Nat.le_add_right _ _
  have htake : l.ahead.take (l.text.length - l.pos) = l.ahead := by
    rw [length_text, Nat.add_sub_cancel_left, List.take_length]
  rw [ahead_toToken, skipGap_eq_nil_iff, GapAt, hline, hdrop, htake, List.drop_length]
  exact (and_iff_right hle).symm

theorem start_next (l : Lexer) : l.next.2.start = l.toToken.pos := rfl

theorem start_lt_pos (h : l.next.1 ≠ .finish) : l.next.2.start < l.next.2.pos := by
  have hne := mt next_eq_finish_iff.2 h
  obtain ⟨c, cs, hc⟩ := List.exists_cons_of_ne_nil hne
  have hshort : (readToken (c :: cs)).2.length < (c :: cs).length := readToken_length
  have hnext := length_text l.next.2
  have htoken := length_text l.toToken
  rw [text_next, ahead_next, ← ahead_toToken, hc] at hnext
  rw [text_toToken, hc] at htoken
  rw [start_next]
  omega

/-! ## All tokens -/

theorem exists_tiles (l : Lexer) :
    ∃ n ≤ l.ahead.length, Tiles l.text l.pos (l.reads (n + 1)) := by
  fun_induction lexemes l with
  | case1 l h =>
      have hp : l.toToken.pos = l.text.length := by
        have hl := length_text l.toToken
        rw [text_toToken, h] at hl
        exact hl.symm
      have hfinish : l.reads 1 = [⟨.finish, l.text.length, l.text.length⟩] := by
        have hf : l.next.1 = .finish := next_eq_finish_iff.2 h
        have hpos : l.next.2.pos = l.text.length := by
          have hl := length_text l.next.2
          rw [text_next, ahead_next, ← ahead_toToken, h] at hl
          exact hl.symm
        rw [reads, hf, start_next, hp, hpos]
        rfl
      refine ⟨0, Nat.zero_le _, ?_⟩
      rw [hfinish]
      exact .finish (toToken_eq_nil_iff.1 h)
  | case2 l h ih =>
      obtain ⟨n, hn, htiles⟩ := ih
      have hf : l.next.1 ≠ .finish := mt next_eq_finish_iff.1 h
      rw [text_next] at htiles
      refine ⟨n + 1, Nat.lt_of_le_of_lt hn (next_length h), .token hf ?_ (start_lt_pos hf) ?_ htiles⟩
      · exact gapAt_toToken l
      · show l.next.2.pos ≤ _
        rw [← text_next l, length_text]
        exact Nat.le_add_right _ _

theorem advances (l : Lexer) : l.Advances l.text where
  text_eq := rfl
  pos_le := by
    rw [length_text]
    exact Nat.le_add_right _ _
  char_eq := char_eq_getD l
  finish_iff := next_eq_finish_iff.trans toToken_eq_nil_iff
  finish_pos h := by
    have hnil := next_eq_finish_iff.1 h
    have hstart := length_text l.toToken
    have hpos := length_text l.next.2
    rw [text_toToken, hnil] at hstart
    rw [text_next, ahead_next, ← ahead_toToken, hnil] at hpos
    exact ⟨hstart.symm, hpos.symm⟩
  takes h := by
    refine ⟨gapAt_toToken l, start_lt_pos h, ?_⟩
    rw [← text_next l, length_text]
    exact Nat.le_add_right _ _
  tiles := by
    obtain ⟨n, hn, htiles⟩ := exists_tiles l
    refine ⟨n, Nat.le_trans hn ?_, htiles⟩
    rw [length_text]
    exact Nat.le_add_left _ _

/-- Whatever is called on a lexer, it goes on through its text to the end and loses
nothing. -/
theorem advances_run (text : List Char) (calls : List Call) :
    ((ofText text).run calls).Advances text := by
  have h := advances ((ofText text).run calls)
  rwa [text_run] at h

end Lexer

end DotLang
