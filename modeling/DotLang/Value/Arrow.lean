import DotLang.Text.Pieces
import DotLang.Value
/-!
# Arrows

An arrow is one to four shapes in a row, each with optional modifiers, or one of
the names kept from older files.  The shapes are read from the left, each with
the modifiers it can take and the first name that fits.
-/

namespace DotLang

open Text

/-- The side of an arrow shape that is drawn. -/
inductive ArrowSide
  | left
  | right
deriving DecidableEq, Repr

/-- A primitive shape with its modifiers. -/
structure ArrowShape where
  /-- Whether the shape is not filled. -/
  hollow : Bool
  /-- The side that is drawn, both for none. -/
  side : Option ArrowSide
  /-- The name of the shape. -/
  name : String
deriving DecidableEq, Repr

/-- The arrow at one end of an edge. -/
inductive Arrow
  | shapes (l : List ArrowShape)
  /-- A name kept from older files. -/
  | deprecated (name : String)
deriving DecidableEq, Repr

namespace ArrowShape

/-- The names of the primitive shapes. -/
def names : List String :=
  ["box", "crow", "curve", "icurve", "diamond", "dot", "inv", "none", "normal", "tee", "vee"]

/-- The mark for a hollow shape and the rest. -/
def readHollow (cs : List Char) : Bool × List Char :=
  match cs with
  | 'o' :: rest => (true, rest)
  | _ => (false, cs)

/-- The letter for a side and the rest. -/
def readSide (cs : List Char) : Option ArrowSide × List Char :=
  match cs with
  | 'l' :: rest => (some .left, rest)
  | 'r' :: rest => (some .right, rest)
  | _ => (none, cs)

/-- The first name that the text starts with, and the rest. -/
def readName (cs : List Char) : Option (String × List Char) :=
  names.findSome? fun name => (afterLead? name.toList cs).map (name, ·)

/-- The shape that the text starts with, and the rest. -/
def read (cs : List Char) : Except ValueReason (ArrowShape × List Char) :=
  let (hollow, cs) := readHollow cs
  let (side, cs) := readSide cs
  match readName cs with
  | some (name, rest) => .ok (⟨hollow, side, name⟩, rest)
  | none => .error (.arrowShape (String.ofList cs))

/-- The text of a shape. -/
def text (s : ArrowShape) : List Char :=
  (if s.hollow then ['o'] else []) ++
    (match s.side with
      | none => []
      | some .left => ['l']
      | some .right => ['r']) ++ s.name.toList

/-- What follows a lead is shorter than the text by the lead. -/
theorem afterLead?_length {lead cs rest : List Char} (h : afterLead? lead cs = some rest) :
    cs.length = lead.length + rest.length := by
  fun_induction afterLead? lead cs with
  | case1 => cases h; simp
  | case2 => cases h
  | case3 l ls c cs _ ih => simp [ih h]; omega
  | case4 => cases h

theorem readName_length {cs rest : List Char} {name : String}
    (h : readName cs = some (name, rest)) : rest.length < cs.length := by
  obtain ⟨n, hn, hm⟩ := List.exists_of_findSome?_eq_some h
  obtain ⟨r, hr, he⟩ := Option.map_eq_some_iff.1 hm
  cases he
  have hlen := afterLead?_length hr
  have hpos : ∀ n ∈ names, 0 < n.toList.length := by decide
  have := hpos name hn
  omega

/-- A shape takes at least one character. -/
theorem read_length {cs rest : List Char} {s : ArrowShape} (h : read cs = .ok (s, rest)) :
    rest.length < cs.length := by
  have hh : (readHollow cs).2.length ≤ cs.length := by
    unfold readHollow
    split <;> simp
  have hs : (readSide (readHollow cs).2).2.length ≤ (readHollow cs).2.length := by
    unfold readSide
    split <;> simp [*]
  simp only [read] at h
  split at h
  · next hn =>
      cases h
      have := readName_length hn
      omega
  · cases h

end ArrowShape

namespace Arrow

/-- The names kept from older files. -/
def deprecatedNames : List String := ["ediamond", "open", "halfopen", "empty", "invempty"]

/-- The shapes that make up the text. -/
def readShapes (cs : List Char) : Except ValueReason (List ArrowShape) :=
  if cs.isEmpty then .ok []
  else
    match _h : ArrowShape.read cs with
    | .error reason => .error reason
    | .ok (s, rest) => (readShapes rest).map (s :: ·)
termination_by cs.length
decreasing_by exact ArrowShape.read_length _h

/-- The arrow that the text denotes. -/
def read (cs : List Char) : Except ValueReason Arrow :=
  if deprecatedNames.contains (String.ofList cs) then .ok (.deprecated (String.ofList cs))
  else do
    let l ← readShapes cs
    if l.isEmpty || 4 < l.length then throw .arrowCount
    return .shapes l

/-- The canonical text of an arrow. -/
def text : Arrow → List Char
  | .deprecated name => name.toList
  | .shapes l => l.flatMap ArrowShape.text

instance : AttrValue Arrow := ⟨read, text⟩

end Arrow

example : AttrValue.parse Arrow "lteeodiamond" =
    .ok (.shapes [⟨false, some .left, "tee"⟩, ⟨true, none, "diamond"⟩]) := by decide +kernel
example : AttrValue.parse Arrow "open" = .ok (.deprecated "open") := by decide +kernel
example : AttrValue.parse Arrow "" = .error .arrowCount := by decide +kernel

end DotLang
