import DotLang.Text.Pieces
import DotLang.Value.Scalar
/-!
# Positions

A point is two or three coordinates.  The route of an edge is a list of splines,
each with control points and, in front of them, the points that its arrows end
at.
-/

namespace DotLang

open Text

/-- A position. -/
structure Point where
  x : Double
  y : Double
  z : Option Double
  /-- Whether the position must not change. -/
  fixed : Bool
deriving DecidableEq

namespace Point

/-- The point that the text denotes, with a `!` behind it if it is fixed. -/
def read (cs : List Char) : Except ValueReason Point :=
  let cs := trim cs
  let (coords, fixed) := match beforeTail? ['!'] cs with
    | some coords => (coords, true)
    | none => (cs, false)
  match splitAt ',' coords with
  | [x, y] => do
      return ⟨← readNumberValue x, ← readNumberValue y, none, fixed⟩
  | [x, y, z] => do
      return ⟨← readNumberValue x, ← readNumberValue y, some (← readNumberValue z), fixed⟩
  | _ => .error .pointForm

/-- The canonical text of a point. -/
def text (p : Point) : List Char :=
  p.x.text ++ ',' :: p.y.text ++
    (match p.z with
      | none => []
      | some z => ',' :: z.text) ++
    if p.fixed then ['!'] else []

instance : AttrValue Point := ⟨read, text⟩

end Point

/-! ## Splines -/

/-- One curve of a route. -/
structure Spline where
  /-- The point where the arrow at the head ends. -/
  finish : Option Point
  /-- The point where the arrow at the tail ends. -/
  start : Option Point
  /-- The control points. -/
  points : List Point
deriving DecidableEq

namespace Spline

/-- The spline with one more item of its text.  End points stand in front of the
control points, each at most once. -/
def addItem (s : Spline) (item : List Char) : Except ValueReason Spline :=
  match item with
  | 'e' :: ',' :: p =>
      if s.finish.isSome || !s.points.isEmpty then .error .misplacedEnd
      else return { s with finish := some (← Point.read p) }
  | 's' :: ',' :: p =>
      if s.start.isSome || !s.points.isEmpty then .error .misplacedStart
      else return { s with start := some (← Point.read p) }
  | p => return { s with points := s.points ++ [← Point.read p] }

/-- Whether so many control points make a spline: one more than a positive
multiple of three. -/
def goodCount (n : Nat) : Bool := 4 ≤ n && n % 3 == 1

/-- The spline that the text denotes. -/
def read (cs : List Char) : Except ValueReason Spline := do
  let s ← (wordsBy isBlank cs).foldlM addItem ⟨none, none, []⟩
  if goodCount s.points.length then return s else throw .controlPoints

/-- The canonical text of a spline. -/
def text (s : Spline) : List Char :=
  joinWith [' ']
    ((s.finish.map fun p => 'e' :: ',' :: p.text).toList ++
      (s.start.map fun p => 's' :: ',' :: p.text).toList ++ s.points.map Point.text)

instance : AttrValue Spline := ⟨read, text⟩

end Spline

/-- The route of an edge. -/
structure SplineList where
  /-- The curves in order. -/
  splines : List Spline
deriving DecidableEq

namespace SplineList

/-- The splines between the semicolons of a text. -/
def read (cs : List Char) : Except ValueReason SplineList := do
  return ⟨← (splitAt ';' cs).mapM Spline.read⟩

/-- The canonical text of a route. -/
def text (l : SplineList) : List Char := joinWith [';'] (l.splines.map Spline.text)

instance : AttrValue SplineList := ⟨read, text⟩

end SplineList

example : (AttrValue.parse Point " 1,-2.50 ,3!").toOption.map AttrValue.show =
    some "1,-2.5,3!" := by decide +kernel
example : AttrValue.parse Point "1" = .error .pointForm := by decide +kernel
example : (AttrValue.parse SplineList "s,5,5 e,1,2 0,0 1,1 2,2 3,3").toOption.map AttrValue.show =
    some "e,1,2 s,5,5 0,0 1,1 2,2 3,3" := by decide +kernel

end DotLang
