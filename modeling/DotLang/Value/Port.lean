import DotLang.Text.Pieces
import DotLang.Value.Choice
/-!
# Ports

An edge is attached to a port of a node, to a compass point of the node, or to a
compass point of a port.  A text without a colon is a compass point if it can
be one.
-/

namespace DotLang

open Text

/-- The sides of a node. -/
inductive Compass
  | north | northEast | east | southEast | south | southWest | west | northWest
  | center
  /-- The best side. -/
  | any
deriving DecidableEq, Repr

instance : Choice Compass where
  all := [.north, .northEast, .east, .southEast, .south, .southWest, .west, .northWest, .center,
    .any]
  word
    | .north => "n"
    | .northEast => "ne"
    | .east => "e"
    | .southEast => "se"
    | .south => "s"
    | .southWest => "sw"
    | .west => "w"
    | .northWest => "nw"
    | .center => "c"
    | .any => "_"

/-- The compass point that the text names. -/
def Compass.ofChars? (cs : List Char) : Option Compass := (Choice.read cs).toOption

/-- The end of an edge at a node. -/
structure Port where
  /-- The name of the port. -/
  name : Option String
  /-- The side of the port, or of the node without a port. -/
  compass : Option Compass
deriving DecidableEq, Repr

namespace Port

/-- The port that the text denotes.  What stands behind the last colon is a
compass point. -/
def read (cs : List Char) : Except ValueReason Port :=
  if cs.isEmpty then .error .emptyPort
  else
    match cutLast ':' cs with
    | some (name, side) =>
        match Compass.ofChars? side with
        | none => .error (.compassPoint (String.ofList side))
        | some compass =>
            if name.isEmpty then .error .emptyPortName
            else .ok ⟨some (String.ofList name), some compass⟩
    | none =>
        match Compass.ofChars? cs with
        | some compass => .ok ⟨none, some compass⟩
        | none => .ok ⟨some (String.ofList cs), none⟩

/-- The canonical text of a port. -/
def text (p : Port) : List Char :=
  match p.name, p.compass with
  | some name, some compass => name.toList ++ ':' :: (Choice.word compass).toList
  | some name, none => name.toList
  | none, some compass => (Choice.word compass).toList
  | none, none => []

instance : AttrValue Port := ⟨read, text⟩

end Port

example : AttrValue.parse Port "f0:ne" = .ok ⟨some "f0", some .northEast⟩ := by decide +kernel
example : AttrValue.parse Port "_" = .ok ⟨none, some .any⟩ := by decide +kernel
example : AttrValue.parse Port "a:b" = .error (.compassPoint "b") := by decide +kernel

end DotLang
