import DotLang.Schema
/-!
# Typed access to attributes

A typed accessor reads an attribute by a grammar, and sets it to the canonical
text of a value.  It has the name of its attribute, but for the one that reads
the position of an edge.  An attribute that is not set, or set to the empty
text, has no typed value.
-/

namespace DotLang

/-! ## The accessors -/

/-- A typed accessor. -/
structure AttrSpec where
  /-- The name of the accessor. -/
  accessor : String
  /-- The name of the attribute. -/
  key : String
  /-- The grammar that it follows. -/
  kind : Kind
deriving DecidableEq

namespace Schema

/-- The accessor of an attribute with the same name. -/
def access (key : String) (kind : Kind) : AttrSpec := ⟨key, key, kind⟩

/-- The typed accessors. -/
def accessors : List AttrSpec :=
  [access "layout" .layout,
    access "rankdir" .rankDir,
    access "dir" .dirType,
    access "outputorder" .outputOrder,
    access "clusterrank" .clusterRank,
    access "rank" .rankType,
    access "forcelabels" .truth,
    access "compound" .truth,
    access "newrank" .truth,
    access "center" .truth,
    access "regular" .truth,
    access "fixedsize" .fixedSize,
    access "constraint" .truth,
    access "decorate" .truth,
    access "headclip" .truth,
    access "tailclip" .truth,
    access "height" (.number (hundredths 2)),
    access "width" (.number (hundredths 1)),
    access "arrowsize" (.number (.ofInt 0)),
    access "fontsize" (.number (.ofInt 1)),
    access "labelfontsize" (.number (.ofInt 1)),
    access "penwidth" (.number (.ofInt 0)),
    access "distortion" (.number (.ofInt (-100))),
    access "skew" (.number (.ofInt (-100))),
    access "weight" (.number (.ofInt 0)),
    access "nodesep" (.number (hundredths 2)),
    access "sides" (.whole 3),
    access "peripheries" (.whole 0),
    access "color" .colorList,
    access "fillcolor" .colorList,
    access "bgcolor" .colorList,
    access "fontcolor" .color,
    access "labelfontcolor" .color,
    access "pencolor" .color,
    access "pos" .point,
    ⟨"edge_pos", "pos", .splineList⟩,
    access "lp" .point,
    access "xlp" .point,
    access "head_lp" .point,
    access "tail_lp" .point,
    access "arrowhead" .arrow,
    access "arrowtail" .arrow,
    access "headport" .port,
    access "tailport" .port,
    access "shape" .shape,
    access "style" .style,
    access "ranksep" (.separation (hundredths 2))]

/-- The typed accessor of that name. -/
def accessor? (name : String) : Option AttrSpec := accessors.find? fun s => s.accessor == name

end Schema

/-! ## Reading and setting -/

namespace Attributes

/-- The value of a name by a reader of its text. -/
def readWith {α : Type} (a : Attributes) (read : List Char → Except ValueReason α)
    (name : String) : Except AttributeError (Option α) :=
  match a.text? name with
  | none => .ok none
  | some text =>
      if text.isEmpty then .ok none
      else (ofReading name text (read text.toList)).map some

/-- The value of a name as a value of the type `α`. -/
def getAs (α : Type) [AttrValue α] (a : Attributes) (name : String) :
    Except AttributeError (Option α) :=
  a.readWith AttrValue.read name

/-- Sets a name to the canonical text of a value. -/
def setAs {α : Type} [AttrValue α] (a : Attributes) (name : String) (value : α) : Attributes :=
  a.setText name (AttrValue.show value)

/-- The value that a typed accessor reads. -/
def getTyped (a : Attributes) (s : AttrSpec) : Except AttributeError (Option s.kind.Value) :=
  a.readWith s.kind.read s.key

/-- A value that an accessor refuses to set. -/
structure Refused where
  /-- The text of the value. -/
  value : String
  /-- The name of the attribute. -/
  name : String
deriving DecidableEq, Repr

/-- The refusal in one line. -/
def Refused.message (r : Refused) : String :=
  "invalid value " ++ r.value ++ " for attribute '" ++ r.name ++ "'"

/-- Sets the attribute of a typed accessor.  A checked value that its own
accessor would not read back is refused. -/
def setTyped (a : Attributes) (s : AttrSpec) (value : s.kind.Value) :
    Except Refused Attributes :=
  let text := String.ofList (s.kind.text value)
  if s.kind.isChecked && (s.kind.read text.toList).toOption.isNone then .error ⟨text, s.key⟩
  else .ok (a.setText s.key text)

/-! ## Labels -/

/-- The text of the label, without the brackets of an HTML string. -/
def label (a : Attributes) : Option String := a.text? "label"

/-- Sets the label. -/
def setLabel (a : Attributes) (text : String) : Attributes := a.setText "label" text

/-- Sets the label to an HTML string. -/
def setHtmlLabel (a : Attributes) (text : String) : Attributes := a.insert "label" (.html text)

/-- The text of the label outside a node or beside an edge. -/
def xlabel (a : Attributes) : Option String := a.text? "xlabel"

/-- Sets the label outside a node or beside an edge. -/
def setXlabel (a : Attributes) (text : String) : Attributes := a.setText "xlabel" text

/-- The name of the element in the output of a renderer. -/
def id (a : Attributes) : Option String := a.text? "id"

/-- Sets the name of the element in the output of a renderer. -/
def setId (a : Attributes) (text : String) : Attributes := a.setText "id" text

end Attributes

end DotLang
