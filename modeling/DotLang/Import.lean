import DotLang.Builder
import DotLang.Tree.Parser
/-!
# Importing

Importing a text parses it as a whole and then builds a model for each of its
graphs, in order.  The first error ends the import.  What was reported up to
then is kept.
-/

namespace DotLang

/-- The reasons why a file cannot be read as text, or cannot be written. -/
inductive FileFault
  /-- The bytes encode no text. -/
  | notUtf8
  /-- The system refuses, with a code and what it stands for. -/
  | system (code : Nat) (meaning : String)
  /-- Any other reason. -/
  | other (reason : String)
deriving DecidableEq, Repr

namespace FileFault

/-- There is no such file. -/
def missing : FileFault := .system 2 "No such file or directory"

/-- A file stands where a directory should. -/
def notDirectory : FileFault := .system 20 "Not a directory"

/-- A directory stands where a file should. -/
def isDirectory : FileFault := .system 21 "Is a directory"

/-- The reason in words. -/
def message : FileFault → String
  | .notUtf8 => "stream did not contain valid UTF-8"
  | .system code meaning => meaning ++ " (os error " ++ toString code ++ ")"
  | .other reason => reason

example : missing.message = "No such file or directory (os error 2)" := by decide +kernel

end FileFault

/-- The reasons why an import fails. -/
inductive ImportError
  | parse (e : SyntaxError)
  | build (e : BuildError)
  | unreadable (path : String) (fault : FileFault)
deriving DecidableEq, Repr

/-- The error in one line. -/
def ImportError.message : ImportError → String
  | .parse e => "syntax error at " ++ e.message
  | .build e => e.message
  | .unreadable path fault => "can't read " ++ path ++ ": " ++ fault.message

/-- A result, and what was reported on the way. -/
structure Imported where
  /-- The models, or the error that ended the import. -/
  result : Except ImportError (List Model)
  /-- The records, the oldest first. -/
  log : List LogEvent

/-- The model of a tree, with the records of building it. -/
def Tree.build (t : Tree) : Except BuildError Model × List LogEvent :=
  match (Builder.tree t).run (Builder.new t.kind (t.name.map Id.value)) with
  | .ok _ b => (.ok b.model, b.log)
  | .error e b => (.error e, b.log)

/-- The models of trees, up to the first error. -/
def importTrees : List Tree → Imported
  | [] => ⟨.ok [], []⟩
  | t :: ts =>
      match t.build with
      | (.error e, log) => ⟨.error (.build e), log⟩
      | (.ok m, log) =>
          let rest := importTrees ts
          ⟨rest.result.map (m :: ·), log ++ rest.log⟩

/-- The models of a text. -/
def importText (text : String) : Imported :=
  match Tree.parse text with
  | .error e => ⟨.error (.parse e), []⟩
  | .ok trees => importTrees trees

/-- The text that bytes encode. -/
def decodeText (bytes : ByteArray) : Except FileFault String :=
  match String.fromUTF8? bytes with
  | some text => .ok text
  | none => .error .notUtf8

/-- The models of a file, from what reading it gave. -/
def importFile (path : String) (contents : Except FileFault String) : Imported :=
  match contents with
  | .error fault => ⟨.error (.unreadable path fault), []⟩
  | .ok text =>
      let i := importText text
      ⟨i.result, .read text.utf8ByteSize path :: i.log⟩

end DotLang
