import DotLang.Value
/-!
# Shapes

The shape of a node is a built-in polygon, one of the two record shapes, or a
custom shape with any other name.
-/

namespace DotLang

/-- The shape of a node. -/
inductive Shape
  | polygon (name : String)
  | record
  | roundedRecord
  | custom (name : String)
deriving DecidableEq, Repr

namespace Shape

/-- The names of the built-in polygons. -/
def polygons : List String :=
  ["box", "polygon", "ellipse", "oval", "circle", "point", "egg", "triangle", "plaintext",
    "plain", "diamond", "trapezium", "parallelogram", "house", "pentagon", "hexagon", "septagon",
    "octagon", "doublecircle", "doubleoctagon", "tripleoctagon", "invtriangle", "invtrapezium",
    "invhouse", "Mdiamond", "Msquare", "Mcircle", "rect", "rectangle", "square", "star", "none",
    "underline", "cylinder", "note", "tab", "folder", "box3d", "component", "promoter", "cds",
    "terminator", "utr", "primersite", "restrictionsite", "fivepoverhang", "threepoverhang",
    "noverhang", "assembly", "signature", "insulator", "ribosite", "rnastab", "proteasesite",
    "proteinstab", "rpromoter", "rarrow", "larrow", "lpromoter"]

/-- The shape that the text names. -/
def read (cs : List Char) : Except ValueReason Shape :=
  let name := String.ofList cs
  if name = "" then .error .emptyShape
  else if name = "record" then .ok .record
  else if name = "Mrecord" then .ok .roundedRecord
  else if polygons.contains name then .ok (.polygon name)
  else .ok (.custom name)

/-- The name of a shape. -/
def text : Shape → List Char
  | .polygon name | .custom name => name.toList
  | .record => "record".toList
  | .roundedRecord => "Mrecord".toList

instance : AttrValue Shape := ⟨read, text⟩

end Shape

example : AttrValue.parse Shape "box" = .ok (.polygon "box") := by decide +kernel
example : AttrValue.parse Shape "Mrecord" = .ok .roundedRecord := by decide +kernel

end DotLang
