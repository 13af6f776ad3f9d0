import DotLang.Id
/-!
# Attributes

Graphs, nodes and edges have a dictionary of attributes.  It keeps the order in
which names were first set, so what is written from it does not depend on
anything else.  Values are IDs, as they stand in a text.
-/

namespace DotLang

/-- Names with values, in the order in which the names were first set. -/
structure Attributes where
  /-- The entries in order. -/
  entries : List (String × Id)
deriving DecidableEq, Repr

namespace Attributes

/-- The dictionary without entries. -/
def empty : Attributes := ⟨[]⟩

instance : EmptyCollection Attributes := ⟨empty⟩
instance : Inhabited Attributes := ⟨empty⟩

/-- The number of entries. -/
def size (a : Attributes) : Nat := a.entries.length

/-- The names in order. -/
def keys (a : Attributes) : List String := a.entries.map Prod.fst

/-- The value of a name. -/
def get? (a : Attributes) (name : String) : Option Id := a.entries.lookup name

/-- The text of the value of a name. -/
def text? (a : Attributes) (name : String) : Option String := (a.get? name).map Id.value

/-- Whether the name has a value. -/
def contains (a : Attributes) (name : String) : Bool := (a.get? name).isSome

/-- The entries with a value for a name.  A name that is there keeps its place,
and a new one goes last. -/
def insertEntry (name : String) (value : Id) : List (String × Id) → List (String × Id)
  | [] => [(name, value)]
  | (k, v) :: rest =>
      if k = name then (k, value) :: rest else (k, v) :: insertEntry name value rest

/-- Sets a name to a value. -/
def insert (a : Attributes) (name : String) (value : Id) : Attributes :=
  ⟨insertEntry name value a.entries⟩

/-- Sets a name to a text, in the simplest form that can hold it. -/
def setText (a : Attributes) (name text : String) : Attributes := a.insert name (Id.ofText text)

/-- Drops a name. -/
def erase (a : Attributes) (name : String) : Attributes :=
  ⟨a.entries.eraseP fun e => e.1 == name⟩

/-- Sets every name of a list in turn. -/
def insertList (a : Attributes) (l : List (String × Id)) : Attributes :=
  l.foldl (fun a e => a.insert e.1 e.2) a

/-- The dictionary that a list of entries sets. -/
def ofList (l : List (String × Id)) : Attributes := empty.insertList l

/-- Sets every name of another dictionary. -/
def merge (a b : Attributes) : Attributes := a.insertList b.entries

example : (((empty.setText "shape" "box").setText "color" "red").setText "shape" "oval").entries =
    [("shape", .plain "oval"), ("color", .plain "red")] := by decide

end Attributes

end DotLang
