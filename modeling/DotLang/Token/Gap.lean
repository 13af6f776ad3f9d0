import DotLang.Text.Blank
/-!
# Gaps

Blanks and comments separate tokens.  A comment runs from `//` to the end of its
line, or from `/*` to `*/`, or from a `#` that is the first thing on its line to
the end of that line.  A comment that is never closed runs to the end of the
text.

What a gap is depends on the text before it in one point: whether the line so
far is blank.  The functions here take that as an argument and otherwise look
ahead only.  `skipGap_suffix` says that skipping drops characters from the
front, and `skipGap_head_not_blank` that no blank stands behind a gap.
-/

namespace DotLang

open Text

/-- Whether a line is still blank after some more text. -/
def lineBlankAfter (lineBlank : Bool) (cs : List Char) : Bool :=
  cs.foldl (fun b c => c == '\n' || (b && isBlank c)) lineBlank

/-- The text behind a `/* */` comment whose opening is already read. -/
def afterBlock : List Char → List Char
  | [] => []
  | [_] => []
  | c :: d :: cs => if c = '*' ∧ d = '/' then cs else afterBlock (d :: cs)

/-- The rest of the text from the end of this line. -/
def afterLine (cs : List Char) : List Char := cs.dropWhile (· ≠ '\n')

/-- The text behind the comment that starts here, if one does. -/
def comment? (lineBlank : Bool) : List Char → Option (List Char)
  | [] => none
  | c :: cs =>
      if c = '#' ∧ lineBlank then some (afterLine cs)
      else if c = '/' ∧ cs.head? = some '/' then some (afterLine cs)
      else if c = '/' ∧ cs.head? = some '*' then some (afterBlock cs.tail)
      else none

/-! ## Skipping only drops characters -/

theorem afterBlock_suffix (cs : List Char) : afterBlock cs <:+ cs := by
  fun_induction afterBlock cs with
  | case1 => exact List.suffix_refl _
  | case2 => exact List.nil_suffix
  | case3 c d cs => exact (List.suffix_cons d cs).trans (List.suffix_cons c _)
  | case4 c d cs _ ih => exact ih.trans (List.suffix_cons c _)

theorem afterLine_suffix (cs : List Char) : afterLine cs <:+ cs :=
  List.dropWhile_suffix _

/-- A comment is at least one character long. -/
theorem comment?_suffix {lineBlank : Bool} {cs rest : List Char}
    (h : comment? lineBlank cs = some rest) : rest <:+ cs.tail := by
  cases cs with
  | nil => simp [comment?] at h
  | cons c cs =>
      simp only [comment?] at h
      split at h
      · cases h; exact afterLine_suffix cs
      · split at h
        · cases h; exact afterLine_suffix cs
        · split at h
          · cases h; exact (afterBlock_suffix _).trans (List.tail_suffix cs)
          · cases h

theorem comment?_length {lineBlank : Bool} {cs rest : List Char}
    (h : comment? lineBlank cs = some rest) : rest.length < cs.length := by
  have hs := (comment?_suffix h).length_le
  cases cs with
  | nil => simp [comment?] at h
  | cons c cs => simp at hs ⊢; omega

/-! ## Gaps -/

/-- The text behind the blanks and comments that stand here. -/
def skipGap (lineBlank : Bool) (cs : List Char) : List Char :=
  match _h : comment? lineBlank cs with
  | some rest => skipGap false rest
  | none =>
      match cs with
      | [] => []
      | c :: rest => if isBlank c then skipGap (lineBlank || c == '\n') rest else c :: rest
termination_by cs.length
decreasing_by
  · exact comment?_length _h
  · simp

theorem skipGap_suffix (lineBlank : Bool) (cs : List Char) : skipGap lineBlank cs <:+ cs := by
  fun_induction skipGap lineBlank cs with
  | case1 b cs rest h ih =>
      exact ih.trans ((comment?_suffix h).trans (List.tail_suffix cs))
  | case2 => exact List.suffix_refl _
  | case3 b c rest _ _ ih => exact ih.trans (List.suffix_cons c rest)
  | case4 => exact List.suffix_refl _

theorem skipGap_length_le (lineBlank : Bool) (cs : List Char) :
    (skipGap lineBlank cs).length ≤ cs.length :=
  (skipGap_suffix lineBlank cs).length_le

/-- No blank stands behind a gap. -/
theorem skipGap_head_not_blank {lineBlank : Bool} {cs rest : List Char} {c : Char}
    (h : skipGap lineBlank cs = c :: rest) : isBlank c = false := by
  fun_induction skipGap lineBlank cs with
  | case1 b cs rest h ih => exact ih ‹_›
  | case2 => cases h
  | case3 b c rest _ _ ih => exact ih h
  | case4 b c rest _ hb => cases h; simpa using hb

example : skipGap true " /* x */ // y\n# z\n a".toList = ['a'] := by decide +kernel
example : skipGap false "# z".toList = "# z".toList := by decide +kernel

end DotLang
