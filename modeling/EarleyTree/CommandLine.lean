import EarleyTree.Candid.Grammar
import EarleyTree.Grammar.Document
import EarleyTree.Parsing.Parser

/-!
The command line: parses one file, prints its syntax tree, and tells through the exit code if the
file has syntax errors. Files are read through a function that the caller gives.
-/
namespace EarleyTree.CommandLine

open Text

structure Options where
  file : Option String := none
  /-- The grammar document to parse with; Candid if there is none. -/
  grammar : Option String := none
  json : Bool := false
  quiet : Bool := false
  verbose : Bool := false
  deriving DecidableEq, Repr

/-- Options stand before or after the file; there are no arguments that are neither. -/
def Options.read? : Options → List String → Option Options
  | o, [] => some o
  | o, arg :: args =>
    if arg = "-j" ∨ arg = "--json" then { o with json := true }.read? args
    else if arg = "-q" ∨ arg = "--quiet" then { o with quiet := true }.read? args
    else if arg = "-v" ∨ arg = "--verbose" then { o with verbose := true }.read? args
    else if arg = "-g" ∨ arg = "--grammar" then
      match args with
      | [] => none
      | path :: args => { o with grammar := some path }.read? args
    else if arg.startsWith "-" ∨ o.file.isSome then none
    else { o with file := some arg }.read? args

inductive FileError
  | notFound
  | isDirectory
  | notText
  | other (text : String)
  deriving DecidableEq, Repr

def FileError.message : FileError → String
  | notFound => "No such file or directory (os error 2)"
  | isDirectory => "Is a directory (os error 21)"
  | notText => "stream did not contain valid UTF-8"
  | other text => text

inductive Failure
  /-- The bundled language is of no use. -/
  | bundled (e : CompileError)
  | file (path : String) (e : FileError)
  | grammar (path : String) (e : GrammarError)
  | language (path : String) (e : CompileError)
  | parse (path : String) (e : ParseError)
  deriving Repr

def Failure.message : Failure → String
  | bundled e => e.message
  | file path e => s!"{path}: {e.message}"
  | grammar path e => s!"{path}: {e.message}"
  | language path e => s!"{path}: {e.message}"
  | parse path e => s!"{path}: {e.message}"

/-- The language of a grammar document. Candid's scanner serves its external tokens, if any. -/
def languageOfDocument (path : String) (bytes : List Nat) : Except Failure Language := do
  let text ← (Utf8.decode bytes).mapError fun _ => .file path .notText
  let g ← (Grammar.read text).mapError (.grammar path)
  let scanner := if g.externalNames.isEmpty then none else some Candid.BlockComment.scanner
  (Language.compile g scanner 0).mapError (.language path)

def errorSummary (t : Subtree) : String :=
  Json.writeObject [("start_byte", s!"{t.start}"), ("end_byte", s!"{t.stop}"),
    ("row", s!"{t.span.startPoint.row}"), ("column", s!"{t.span.startPoint.column}")]

def summary (file : String) (t : Tree) : String :=
  Json.writeObject [("file", Json.quote file), ("language", Json.quote t.language.name),
    ("root", Json.quote (t.root.kindName t.language)), ("start_byte", s!"{t.root.start}"),
    ("end_byte", s!"{t.root.stop}"), ("has_error", Json.writeBool t.root.hasError),
    ("errors", Json.writeArray (t.root.outermostErrors.map errorSummary)),
    ("sexp", Json.quote t.sexp)]

/-- What a run leaves behind: the exit code and what it writes. -/
structure Outcome where
  code : Nat
  output : String
  errors : String
  deriving DecidableEq, Repr

def report (o : Options) (file : String) (t : Tree) : Outcome :=
  let output :=
    if o.quiet then "" else if o.json then summary file t ++ "\n" else t.sexp ++ "\n"
  ⟨if t.root.hasError then 1 else 0, output, ""⟩

def usage : Outcome :=
  ⟨2, "", "usage: [--grammar FILE] [--json] [--quiet] [--verbose] FILE\n"⟩

def refusal (f : Failure) : Outcome := ⟨2, "", s!"error: {f.message}\n"⟩

variable {m : Type → Type} [Monad m] (readFile : String → m (Except FileError (List Nat)))

def loadLanguage (path : Option String) : m (Except Failure Language) :=
  match path with
  | none => return Candid.language.mapError .bundled
  | some path => return ((← readFile path).mapError (.file path)).bind (languageOfDocument path)

/-- The grammar comes first: if it is of no use, the file is not read. -/
def run (args : List String) (order : KeyOrder := .entered) : m Outcome := do
  match Options.read? {} args with
  | some o =>
    match o.file with
    | none => return usage
    | some file =>
      match ← loadLanguage readFile o.grammar with
      | .error f => return refusal f
      | .ok l =>
        match ← readFile file with
        | .error e => return refusal (.file file e)
        | .ok bytes =>
          match (Parser.setLanguage {} l).parseBytes bytes none 0 order with
          | .error e => return refusal (.parse file e)
          | .ok t => return report o file t
  | none => return usage

end EarleyTree.CommandLine
