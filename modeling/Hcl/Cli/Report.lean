import Hcl.Cli.Command
import Hcl.Configuration
import Hcl.FileTree
import Hcl.Json.Printer
import Hcl.SymbolTree.Walk
import Hcl.Yaml.Printer

/-!
# Reports

What a command prints. A command that fails has printed what came before, and then names the error
and its causes, one on a line.
-/

namespace Hcl.Cli

/-- The texts a command reads, or why they cannot be read. -/
structure Sources where
  stdin : Except String String
  file : String → Except String String

/-- The texts in a tree of files. Paths that are not absolute begin in the working directory. -/
def Sources.ofTree (root : FileTree) (workingDirectory stdin : String) : Sources :=
  ⟨.ok stdin, fun path => (root.read workingDirectory path).mapError FileFault.message⟩

/-- Lines that were printed, and the error that ended the printing with its causes. -/
structure Report where
  lines : List String
  failure : Option (List String)
deriving DecidableEq, Repr

namespace Report

def ofLines (lines : List String) : Report := ⟨lines, none⟩

def failed (causes : List String) : Report := ⟨[], some causes⟩

/-- Goes on with `next`, unless the printing has ended. -/
def andThen (r next : Report) : Report :=
  match r.failure with
  | some _ => r
  | none => ⟨r.lines ++ next.lines, next.failure⟩

/-- Prints what was found, or fails with `causes`. -/
def ofExcept {ε α : Type} (causes : ε → List String) (print : α → Report) :
    Except ε α → Report
  | .ok a => print a
  | .error e => failed (causes e)

end Report

/-- An error and what lies behind it. -/
def chain (e : Error) : List String := e.message :: e.cause?.toList

def recovery (input : Input) : Recovery := if input.ignoreErrors then .bestEffort else .strict

/-! ## Documents -/

/-- Reads and reduces one source. -/
def load (recovery : Recovery) (source : Except String String) : Except (List String) Object :=
  match source with
  | .error reason => .error (chain (.io reason))
  | .ok source =>
    match parseDocument recovery source with
    | .ok o => .ok o
    | .error e => .error (chain e)

def loadFile (recovery : Recovery) (sources : Sources) (path : String) :
    Except (List String) Object :=
  match load recovery (sources.file path) with
  | .ok o => .ok o
  | .error causes => .error (("Unable to load " ++ path) :: causes)

/-- The document of the standard input or of one file. Several files become one object, each at its
path. -/
def document (sources : Sources) (input : Input) : Except (List String) Object :=
  match input.files with
  | [] => load (recovery input) sources.stdin
  | [path] => loadFile (recovery input) sources path
  | paths =>
    paths.foldlM
      (fun o path =>
        (loadFile (recovery input) sources path).map fun document =>
          Object.put path (.object document) o)
      []

/-- The text of a document, with a line break at its end. -/
def formatted (format : Format) (v : Value) : String :=
  match format with
  | .json => v.toJson.pretty ++ "\n"
  | .yaml => Yaml.document v

/-! ## Sources by name -/

/-- The name and the text of each source. -/
def named (sources : Sources) (input : Input) : Except (List String) (List (String × String)) :=
  match input.files with
  | [] =>
    match sources.stdin with
    | .ok source => .ok [("<stdin>", source)]
    | .error reason => .error [reason]
  | paths =>
    paths.mapM fun path =>
      match sources.file path with
      | .ok source => .ok (path, source)
      | .error reason => .error ["Unable to read " ++ path, reason]

/-- Prints a report for each source, one after the other. -/
def forEach (sources : Sources) (input : Input) (report : String → String → Report) : Report :=
  Report.ofExcept id
    (fun sources =>
      sources.foldl (fun r (name, source) => r.andThen (report name source)) (.ofLines []))
    (named sources input)

/-! ## Listings -/

def place (p : Position) : String := s!"({p.line}:{p.column})"

def words (names : List String) : String := " ".intercalate names

def symbolLine (what : String) (s : Symbol) : String :=
  match s.kind with
  | .block names => what ++ " " ++ words names ++ " " ++ place s.position
  | _ => what ++ " " ++ s.name.getD "" ++ " " ++ place s.position

/-- Root blocks and then root attributes. -/
def blocksReport (recovery : Recovery) (name source : String) : Report :=
  Report.ofExcept (fun e => ("Unable to load " ++ name) :: chain e)
    (fun c =>
      let lines (what : String) (ids : List Nat) :=
        (ids.filterMap c.tree.get?).map fun e => symbolLine what e.symbol
      .ofLines (("# " ++ name) :: lines "block" c.blocks ++ lines "attribute" c.attributes))
    (parseConfiguration recovery source)

def tokenLine (t : Token) : String :=
  s!"{t.span.start.line}:{t.span.start.column} {t.kind.name} " ++ Text.quoted t.text

/-- The tokens up to the end of the source, or up to what cannot be read. -/
def tokensReport (source : String) : Report :=
  let s := TokenStream.ofString source
  let report := Report.ofLines (s.tokens.map tokenLine)
  match s.ending with
  | .ok p => report.andThen (.ofLines [tokenLine (.atEnd p)])
  | .error e => report.andThen (.failed [(Error.lexical e.fault e.position).message])

/-- What a listing says about a symbol besides its kind. -/
def detail (s : Symbol) : String :=
  match s.kind with
  | .block names => words names
  | .attr => s.name.getD ""
  | .literal type raw => type.describe ++ " " ++ Text.quoted raw
  | .eval e => e.kind.name ++ " " ++ e.text
  | .keyword k => k.text
  | .array | .map => ""

/-- A symbol, indented by two spaces for each symbol above it. -/
def outlineLine (depth : Nat) (s : Symbol) : String :=
  String.ofList (List.replicate (2 * depth) ' ') ++ s.kind.describe ++ " " ++ detail s ++ " " ++
    place s.position

def symbolsReport (t : SymbolTree) : Report :=
  .ofLines (t.outline.filterMap fun (id, depth) =>
    (t.get? id).map fun e => outlineLine depth e.symbol)

def evalsReport (t : SymbolTree) : Report :=
  .ofLines (t.evals.map fun e => e.kind.name ++ " " ++ e.text)

def devReport (listing : Listing) (recovery : Recovery) (name source : String) : Report :=
  (Report.ofLines ["# " ++ name]).andThen
    (match listing with
    | .tokens => tokensReport source
    | .symbols => Report.ofExcept chain symbolsReport (parseSymbols recovery source)
    | .evals => Report.ofExcept chain evalsReport (parseSymbols recovery source))

/-! ## Outcomes -/

/-- What the program leaves behind. -/
structure Outcome where
  code : Nat
  stdout : String
  stderr : String
deriving DecidableEq, Repr

def joinLines (lines : List String) : String := String.join (lines.map (· ++ "\n"))

def Outcome.ofReport (r : Report) : Outcome :=
  match r.failure with
  | none => ⟨0, joinLines r.lines, ""⟩
  | some causes => ⟨1, joinLines r.lines, joinLines causes⟩

def usage : String := "Usage: hcldoc <parse|blocks|dev> [OPTIONS]\n"

/-- Runs a command. -/
def Command.run (sources : Sources) : Command → Outcome
  | version => ⟨0, "hcldoc 0.1.0\n", ""⟩
  | parse input format =>
    match document sources input with
    | .ok o => ⟨0, formatted format (.object o), ""⟩
    | .error causes => ⟨1, "", joinLines causes⟩
  | blocks input => .ofReport (forEach sources input (blocksReport (recovery input)))
  | dev input listing => .ofReport (forEach sources input (devReport listing (recovery input)))

/-- Runs the program. Arguments that cannot be understood give code 2. -/
def run (args : List String) (sources : Sources) : Outcome :=
  match Command.ofArgs? args with
  | some command => command.run sources
  | none => ⟨2, "", usage⟩

end Hcl.Cli
