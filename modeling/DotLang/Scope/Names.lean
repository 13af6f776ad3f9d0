/-!
# Scoped names

A table of names is a stack of scopes.  A name is looked up from the innermost
scope outwards.  A scope can be closed in two ways: dropped with its names, or
hoisted, which moves its names into the scope around it.  There the names of the
outer scope win.
-/

namespace DotLang

/-- A stack of scopes, the innermost first.  In a scope the newest binding of a
name is the first. -/
structure Names (α : Type) where
  /-- The scopes. -/
  scopes : List (List (String × α))
deriving Repr

namespace Names

variable {α : Type}

/-- The table without scopes. -/
def empty : Names α := ⟨[]⟩

/-- The number of scopes. -/
def depth (t : Names α) : Nat := t.scopes.length

/-- Opens a scope. -/
def enter (t : Names α) : Names α := ⟨[] :: t.scopes⟩

/-- Drops the innermost scope with its names. -/
def drop (t : Names α) : Names α := ⟨t.scopes.tail⟩

/-- Closes the innermost scope and moves its names into the scope around it.
Without such a scope the names are dropped. -/
def hoist (t : Names α) : Names α :=
  match t.scopes with
  | inner :: outer :: rest => ⟨(outer ++ inner) :: rest⟩
  | _ => ⟨[]⟩

/-- The value of a name in the innermost scope that has it. -/
def find? (t : Names α) (name : String) : Option α :=
  t.scopes.findSome? (·.lookup name)

/-- Whether some scope has the name. -/
def has (t : Names α) (name : String) : Bool := (t.find? name).isSome

/-- The value of a name in the innermost scope. -/
def findLocal? (t : Names α) (name : String) : Option α := (t.scopes.headD []).lookup name

/-- Whether the innermost scope has the name. -/
def hasLocal (t : Names α) (name : String) : Bool := (t.findLocal? name).isSome

/-- Binds a name in the innermost scope, which is opened if there is none. -/
def insert (t : Names α) (name : String) (value : α) : Names α :=
  ⟨((name, value) :: t.scopes.headD []) :: t.scopes.tail⟩

example : ((((empty.enter.insert "a" 1).enter.insert "a" 3).insert "b" 2).hoist).find? "a" =
    some 1 := by decide
example : ((empty.enter.enter.insert "b" 2).hoist.enter).find? "b" = some 2 := by decide
example : ((empty.insert "b" 2).enter.drop).hasLocal "b" = true := by decide

end Names

end DotLang
