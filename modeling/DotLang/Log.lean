import DotLang.Text.Quoted
/-!
# Log records

Importing and the command line report what they do.  A record has a level, the
part of the program it comes from, and a message.
-/

namespace DotLang

/-- How important a record is. -/
inductive LogLevel
  | info
  | debug
deriving DecidableEq, Repr

/-- The level as records name it. -/
def LogLevel.label : LogLevel → String
  | .info => "INFO"
  | .debug => "DEBUG"

/-- What records report. -/
inductive LogEvent
  /-- A file was read. -/
  | read (bytes : Nat) (path : String)
  /-- A subgraph was opened for the first time, held by a node of that name. -/
  | created (holder : String)
  /-- A subgraph was opened again. -/
  | reopened (name : String)
  /-- A graph was built. -/
  | built (name : Option String) (nodes edges subgraphs : Nat)
  /-- A graph was imported. -/
  | imported (keyword : String) (name : Option String) (nodes edges clusters subgraphs : Nat)
  /-- A file was written. -/
  | wrote (path : String)
deriving DecidableEq, Repr

namespace LogEvent

/-- The level of a record. -/
def level : LogEvent → LogLevel
  | .created _ | .reopened _ | .built .. => .debug
  | _ => .info

/-- The part of the program that a record comes from. -/
def target : LogEvent → String
  | .read .. => "dotgraph::dot::import"
  | .created _ | .reopened _ | .built .. => "dotgraph::dot::builder"
  | .imported .. | .wrote _ => "dotgraph"

/-- The message of a record. -/
def message : LogEvent → String
  | .read bytes path => "Read " ++ toString bytes ++ " bytes from " ++ path
  | .created holder => "Created subgraph " ++ holder
  | .reopened name => "Reopening subgraph " ++ Text.quotedName (some name)
  | .built name nodes edges subgraphs =>
      "Built graph " ++ Text.quotedName name ++ " with " ++ toString nodes ++ " nodes, " ++
        toString edges ++ " edges and " ++ toString subgraphs ++ " subgraphs"
  | .imported keyword name nodes edges clusters subgraphs =>
      keyword ++ " " ++ name.getD "<anonymous>" ++ ": " ++ toString nodes ++ " nodes, " ++
        toString edges ++ " edges, " ++ toString clusters ++ " clusters, " ++
        toString subgraphs ++ " subgraphs"
  | .wrote path => "Wrote " ++ path

end LogEvent

end DotLang
