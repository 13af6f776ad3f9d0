import DotLang.Import
import DotLang.Model.Export
import DotLang.Tree.Outline
/-!
# The command line

The tool reads one file, and on request shows the outline of its graphs and
writes the imported graphs.  What it does is a function of the options and of
what reading the file gave: a report of both output streams, and a file to be
saved.
-/

namespace DotLang

/-- The options of a run. -/
structure Options where
  /-- Whether to show debug records. -/
  debug : Bool
  /-- Whether to show the outlines of the graphs. -/
  outline : Bool
  /-- Whether to write the imported graphs. -/
  emit : Bool
  /-- The file to write to, the standard output for none. -/
  output : Option String
  /-- The file to read, none before it is given. -/
  input : Option String
deriving DecidableEq, Repr

namespace Options

/-- The options before any argument. -/
def start : Options := ⟨false, false, false, none, none⟩

/-- Takes the flags that stand in one argument behind a dash.  The file to write
to follows its flag, or is the next argument. -/
def addFlags (o : Options) : List Char → List String → Option (Options × List String)
  | [], args => some (o, args)
  | 'd' :: flags, args => addFlags { o with debug := true } flags args
  | 'a' :: flags, args => addFlags { o with outline := true } flags args
  | 'e' :: flags, args => addFlags { o with emit := true } flags args
  | ['o'], arg :: args => some ({ o with output := some arg }, args)
  | 'o' :: '=' :: path, args => some ({ o with output := some (String.ofList path) }, args)
  | 'o' :: c :: path, args => some ({ o with output := some (String.ofList (c :: path)) }, args)
  | _, _ => none

/-- Takes an argument as the file to read, of which there is one. -/
def addInput (o : Options) (path : String) : Option Options :=
  if o.input.isSome then none else some { o with input := some path }

/-- Takes one argument, and from the arguments behind it what belongs to it. -/
def addArg (o : Options) (arg : String) (args : List String) : Option (Options × List String) :=
  match arg with
  | "--debug" => some ({ o with debug := true }, args)
  | "--ast" => some ({ o with outline := true }, args)
  | "--export" => some ({ o with emit := true }, args)
  | "--output" =>
      match args with
      | [] => none
      | path :: args => some ({ o with output := some path }, args)
  | _ =>
      match arg.toList with
      | '-' :: '-' :: rest =>
          (Text.afterLead? "output=".toList rest).map fun path =>
            ({ o with output := some (String.ofList path) }, args)
      | '-' :: c :: flags => addFlags o (c :: flags) args
      | _ => (o.addInput arg).map (·, args)

/-- Takes arguments one after the other, at most `room` of them.  Behind two
dashes there are no flags. -/
def addArgs (o : Options) : (room : Nat) → List String → Option Options
  | _, [] => some o
  | 0, _ => none
  | room + 1, arg :: args =>
      if arg = "--" then args.foldlM addInput o
      else
        match o.addArg arg args with
        | none => none
        | some (o, args) => o.addArgs room args

/-- The options that arguments spell, if they are good and name a file to
read. -/
def ofArgs? (args : List String) : Option Options :=
  (start.addArgs args.length args).filter (·.input.isSome)

example : ofArgs? ["-aeo", "out.dot", "--", "-in.dot"] =
    some ⟨false, true, true, some "out.dot", some "-in.dot"⟩ := by decide +kernel
example : ofArgs? ["-e"] = none := by decide +kernel

end Options

/-! ## Reports -/

/-- What a run gives. -/
structure Report where
  /-- The text on the standard output. -/
  stdout : String
  /-- The text on the standard error. -/
  stderr : String
  /-- Whether the run failed. -/
  failed : Bool
  /-- The path and the content of a file to be saved. -/
  save : Option (String × String)
deriving DecidableEq, Repr

namespace Report

/-- The report before anything is done. -/
def start : Report := ⟨"", "", false, none⟩

/-- Adds to the standard output. -/
def print (r : Report) (text : String) : Report := { r with stdout := r.stdout ++ text }

/-- Ends the run with an error. -/
def fail (r : Report) (message : String) : Report :=
  { r with stderr := r.stderr ++ "Error: " ++ message ++ "\n", failed := true }

/-- The line of a record.  A message of several lines goes on further in. -/
def recordLine (e : LogEvent) : String :=
  let label := e.level.label.toList
  let lines := Text.splitAt '\n' e.message.toList
  "[" ++ String.ofList (label ++ List.replicate (5 - label.length) ' ') ++ " " ++ e.target ++
    "] " ++ String.ofList (Text.joinWith "\n    ".toList lines) ++ "\n"

/-- Shows records, those for debugging only on request. -/
def log (r : Report) (debug : Bool) (events : List LogEvent) : Report :=
  let shown := events.filter fun e => debug || e.level == .info
  { r with stderr := r.stderr ++ String.join (shown.map recordLine) }

/-- The report after the file was saved, or failed to be for a reason. -/
def saved (r : Report) (path : String) (failure : Option FileFault) : Report :=
  match failure with
  | none => { r.log false [.wrote path] with save := none }
  | some fault =>
      { r.fail ("Could not write the file " ++ path ++ ": " ++ fault.message) with save := none }

/-- The exit code. -/
def code (r : Report) : Nat := if r.failed then 1 else 0

end Report

/-! ## Runs -/

/-- The record of an imported graph. -/
def Model.summary (m : Model) : LogEvent :=
  .imported m.kind.keyword.word (m.nameOf Model.root) m.plainNodeCount m.edges.size
    m.subgraphCounts.1 m.subgraphCounts.2

/-- Imports a text, and writes the graphs on request. -/
def Options.runImport (o : Options) (r : Report) (text : String) : Report :=
  let i := importText text
  let r := r.log o.debug i.log
  match i.result with
  | .error e => r.fail e.message
  | .ok models =>
      let r := r.log o.debug (models.map Model.summary)
      if !o.emit then r
      else
        let content := String.join (models.map Model.toDot)
        match o.output with
        | none => r.print content
        | some path => { r with save := some (path, content) }

/-- Runs the tool on what reading the input file gave. -/
def Options.run (o : Options) (contents : Except FileFault String) : Report :=
  match contents with
  | .error fault =>
      Report.start.fail ("Can't open " ++ o.input.getD "" ++ ": " ++ fault.message)
  | .ok text =>
      if o.outline then
        match Tree.parse text with
        | .error e => Report.start.fail (e.excerpt ++ "\n" ++ e.message)
        | .ok trees => o.runImport (Report.start.print (String.join (trees.map Tree.outline))) text
      else o.runImport Report.start text

end DotLang
