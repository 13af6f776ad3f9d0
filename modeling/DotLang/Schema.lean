import DotLang.Attributes
import DotLang.Tree
import DotLang.Value.Arrow
import DotLang.Value.Choice
import DotLang.Value.Color
import DotLang.Value.Port
import DotLang.Value.Position
import DotLang.Value.Shape
import DotLang.Value.Style
/-!
# The schema

The schema says which attributes have a grammar, on which elements, and with
which least value.  It is one table, `Schema.rules`, and checking an attribute
of an imported graph goes through it.  A typed accessor is found by its name and
knows no element, so the accessors have a table of their own, in
`DotLang.Schema.Access`.

Attributes outside the table are free text.  An HTML string and an empty value
pass every check.
-/

namespace DotLang

open Text

/-! ## Kinds of values -/

/-- The grammars of attribute values. -/
inductive Kind
  | layout
  | rankDir
  | dirType
  | outputOrder
  | clusterRank
  | rankType
  | truth
  | fixedSize
  /-- A number that is not below `least`. -/
  | number (least : Double)
  /-- A number that is not below `least`, with the word `equally` behind it or
  without. -/
  | separation (least : Double)
  /-- A whole number that is not below `least`. -/
  | whole (least : Int32)
  | color
  | colorList
  | point
  | splineList
  | arrow
  | port
  | shape
  | style
deriving DecidableEq

namespace Kind

/-- The values of a kind. -/
abbrev Value : Kind → Type
  | layout => Layout
  | rankDir => RankDir
  | dirType => DirType
  | outputOrder => OutputOrder
  | clusterRank => ClusterRank
  | rankType => RankType
  | truth => Bool
  | fixedSize => FixedSize
  | number _ => Double
  | separation _ => Double
  | whole _ => Int32
  | color => Color
  | colorList => ColorList
  | point => Point
  | splineList => SplineList
  | arrow => Arrow
  | port => Port
  | shape => Shape
  | style => Style

/-- The value of a kind that the text denotes. -/
def read : (k : Kind) → List Char → Except ValueReason k.Value
  | layout => AttrValue.read
  | rankDir => AttrValue.read
  | dirType => AttrValue.read
  | outputOrder => AttrValue.read
  | clusterRank => AttrValue.read
  | rankType => AttrValue.read
  | truth => AttrValue.read
  | fixedSize => AttrValue.read
  | number least => readAtLeast least
  | separation least => fun cs => readAtLeast least (dropTails "equally".toList (trim cs))
  | whole least => readAtLeast least
  | color => AttrValue.read
  | colorList => AttrValue.read
  | point => AttrValue.read
  | splineList => AttrValue.read
  | arrow => AttrValue.read
  | port => AttrValue.read
  | shape => AttrValue.read
  | style => AttrValue.read

/-- The canonical text of a value of a kind. -/
def text : (k : Kind) → k.Value → List Char
  | layout => AttrValue.text
  | rankDir => AttrValue.text
  | dirType => AttrValue.text
  | outputOrder => AttrValue.text
  | clusterRank => AttrValue.text
  | rankType => AttrValue.text
  | truth => AttrValue.text
  | fixedSize => AttrValue.text
  | number _ => AttrValue.text
  | separation _ => AttrValue.text
  | whole _ => AttrValue.text
  | color => AttrValue.text
  | colorList => AttrValue.text
  | point => AttrValue.text
  | splineList => AttrValue.text
  | arrow => AttrValue.text
  | port => AttrValue.text
  | shape => AttrValue.text
  | style => AttrValue.text

/-- Whether a value is checked when it is set.  Only numbers with a least value
are, since the other kinds hold no bad values. -/
def isChecked : Kind → Bool
  | number _ => true
  | whole _ => true
  | _ => false

end Kind

/-! ## The table -/

/-- A row of the schema. -/
structure AttrRule where
  /-- The name of the attribute. -/
  key : String
  /-- The elements on which the attribute has this grammar. -/
  elements : List Element
  /-- The grammar. -/
  kind : Kind
deriving DecidableEq

namespace Schema

/-- Every kind of element. -/
def anywhere : List Element := [.graph, .node, .edge]

/-- The number `hundredths / 100`. -/
def hundredths (n : Nat) : Double := Double.ofDecimal false n (-2)

/-- The attributes with a grammar. -/
def rules : List AttrRule :=
  [⟨"layout", [.graph], .layout⟩,
    ⟨"rankdir", [.graph], .rankDir⟩,
    ⟨"dir", [.edge], .dirType⟩,
    ⟨"outputorder", [.graph], .outputOrder⟩,
    ⟨"clusterrank", [.graph], .clusterRank⟩,
    ⟨"rank", [.graph], .rankType⟩,
    ⟨"forcelabels", [.graph], .truth⟩,
    ⟨"center", [.graph], .truth⟩,
    ⟨"compound", [.graph], .truth⟩,
    ⟨"newrank", [.graph], .truth⟩,
    ⟨"regular", [.node], .truth⟩,
    ⟨"constraint", [.edge], .truth⟩,
    ⟨"decorate", [.edge], .truth⟩,
    ⟨"headclip", [.edge], .truth⟩,
    ⟨"tailclip", [.edge], .truth⟩,
    ⟨"fixedsize", [.node], .fixedSize⟩,
    ⟨"height", [.node], .number (hundredths 2)⟩,
    ⟨"width", [.node], .number (hundredths 1)⟩,
    ⟨"arrowsize", [.edge], .number (.ofInt 0)⟩,
    ⟨"fontsize", anywhere, .number (.ofInt 1)⟩,
    ⟨"labelfontsize", [.edge], .number (.ofInt 1)⟩,
    ⟨"penwidth", anywhere, .number (.ofInt 0)⟩,
    ⟨"distortion", [.node], .number (.ofInt (-100))⟩,
    ⟨"skew", [.node], .number (.ofInt (-100))⟩,
    ⟨"weight", [.edge], .number (.ofInt 0)⟩,
    ⟨"nodesep", [.graph], .number (hundredths 2)⟩,
    ⟨"ranksep", [.graph], .separation (hundredths 2)⟩,
    ⟨"sides", [.node], .whole 3⟩,
    ⟨"peripheries", [.node, .graph], .whole 0⟩,
    ⟨"color", anywhere, .colorList⟩,
    ⟨"fillcolor", [.node, .graph], .colorList⟩,
    ⟨"bgcolor", [.graph], .colorList⟩,
    ⟨"fontcolor", anywhere, .color⟩,
    ⟨"labelfontcolor", [.edge], .color⟩,
    ⟨"pencolor", [.graph], .color⟩,
    ⟨"pos", [.node], .point⟩,
    ⟨"pos", [.edge], .splineList⟩,
    ⟨"lp", [.graph, .edge], .point⟩,
    ⟨"xlp", [.node, .edge], .point⟩,
    ⟨"head_lp", [.edge], .point⟩,
    ⟨"tail_lp", [.edge], .point⟩,
    ⟨"arrowhead", [.edge], .arrow⟩,
    ⟨"arrowtail", [.edge], .arrow⟩,
    ⟨"headport", [.edge], .port⟩,
    ⟨"tailport", [.edge], .port⟩,
    ⟨"shape", [.node], .shape⟩,
    ⟨"style", anywhere, .style⟩]

/-- The grammar of an attribute on an element, if it has one there. -/
def kind? (element : Element) (name : String) : Option Kind :=
  (rules.find? fun r => r.key == name && r.elements.contains element).map AttrRule.kind

/-- Whether the attribute has a grammar on the element. -/
def isKnown (element : Element) (name : String) : Bool := (kind? element name).isSome

end Schema

/-! ## Checking -/

/-- An attribute whose value does not follow its grammar. -/
structure AttributeError where
  /-- The name of the attribute. -/
  name : String
  /-- The text of its value. -/
  value : String
  /-- Why it is no value. -/
  reason : ValueReason
deriving DecidableEq, Repr

/-- The error in one line. -/
def AttributeError.message (e : AttributeError) : String :=
  "invalid value " ++ inQuotes e.value ++ " for attribute '" ++ e.name ++ "': " ++ e.reason.message

/-- The result of reading the value of an attribute, with its error named. -/
def ofReading {α : Type} (name value : String) :
    Except ValueReason α → Except AttributeError α :=
  Except.mapError fun reason => ⟨name, value, reason⟩

/-- Checks the value of an attribute on an element. -/
def Schema.validate (element : Element) (name : String) (value : Id) :
    Except AttributeError Unit :=
  if value.isHtml || value.value.isEmpty then .ok ()
  else
    match Schema.kind? element name with
    | none => .ok ()
    | some k => (ofReading name value.value (k.read value.value.toList)).map fun _ => ()

/-- Checks the attributes of a list in turn. -/
def Schema.validateList (element : Element) (l : AttrList) : Except AttributeError Unit :=
  l.forM fun (name, value) => Schema.validate element name value

end DotLang
