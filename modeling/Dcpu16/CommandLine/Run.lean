import Dcpu16.CommandLine.FileTree
import Dcpu16.CommandLine.Invocation
import Dcpu16.Listing
import Dcpu16.Options.File

/-! Runs of the assembler from its command line.  A run prints lines, may write one file, and ends
with an exit code. -/

namespace Dcpu16

open Text

/-- The end of a run: its exit code, and the lines that have been printed. -/
structure Outcome where
  exitCode : Nat
  lines : List String
  deriving DecidableEq, Repr

/-- A run up to its end, or up to the file that it writes. -/
inductive Progress where
  | done (outcome : Outcome)
  | writing (lines : List String) (path : String) (content : List UInt8)
    (resume : Except FileError Unit → Outcome)

/-- What can be read. -/
abbrev Reader := String → Except FileError (List UInt8)

namespace Run

/-- The exit code of a run that broke off. -/
def faultCode : Nat := 101

/-- The line that `--version` prints. -/
def versionLine : String := "dcasm 0.1.0"

/-- A heading in bold red, and what it is about. -/
def failure (heading about : String) : String :=
  (Styled.strong .red heading ++ Styled.bare about).ansi

/-- Bytes as text, if they are UTF-8. -/
def decodeText? (bytes : List UInt8) : Option String :=
  String.fromUTF8? (ByteArray.mk bytes.toArray)

/-- The options of a run, or the line that says why there are none. -/
def loadOptions (read : Reader) (i : Invocation) : Except String Options :=
  match i.config with
  | none => .ok (i.apply {})
  | some path =>
    let unreadable := failure ("Failed to parse config file: " ++ path) ""
    match read path with
    | .error .isADirectory => .error unreadable
    | .error _ => .error (failure ("Failed to open config file: " ++ path) "")
    | .ok bytes =>
      match (decodeText? bytes).bind Options.ofYaml? with
      | some options => .ok (i.apply options)
      | none => .error unreadable

/-- The text of a source file, or the line that says why there is none. -/
def loadSource (read : Reader) (path : String) : Except String (String × String) :=
  let failed (reason : String) :=
    failure "Failed to open File" (": " ++ path ++ " (" ++ reason ++ ")")
  match read path with
  | .error e => .error (failed e.message)
  | .ok bytes =>
    match decodeText? bytes with
    | some text => .ok (path, text)
    | none => .error (failed "stream did not contain valid UTF-8")

/-- Lines that only a verbose run prints. -/
def whenVerbose (options : Options) (lines : List String) : List String :=
  if options.verbose then lines else []

/-- Load source files in turn, with the lines that are printed on the way. -/
def loadSources (read : Reader) (options : Options) :
    List String → List String × Option (List (String × String))
  | [] => ([], some [])
  | path :: paths =>
    let reading := whenVerbose options ["  < " ++ path]
    match loadSource read path with
    | .error line => (reading ++ [line], none)
    | .ok source =>
      let (lines, sources) := loadSources read options paths
      (reading ++ lines, sources.map (source :: ·))

/-- The lines that show a log. -/
def shownLog (log : Log) : List String :=
  log.flatMap Diagnostic.shown

/-- The lines that show the error a run ends with. -/
def shownError (options : Options) (e : LocatedError) : List String :=
  (Diagnostic.ofError e).shown ++ whenVerbose options
    [(Styled.bare "  " ++ Styled.inStyle .dim "caused by" ++
      Styled.bare (": " ++ e.error.message)).ansi]

/-- The line about a symbol that nothing refers to. -/
def shownUnreferenced (name : String) : String :=
  (Severity.note.heading ++
    Styled.bare (": Unreferenced symbol: " ++ AsmError.quoted name)).ansi

/-- The end of a run once its image has been written, or could not be. -/
def finish (i : Invocation) (lines : List String) (log : Log) (path : String) (image : Image)
    (written : Except FileError Unit) : Outcome :=
  match written with
  | .error e =>
    ⟨1, lines ++ [failure "Failed to write File" (": " ++ path ++ " (" ++ e.message ++ ")")]⟩
  | .ok () =>
    let code := if log.hasError then 1 else 0
    if i.has .dump then
      match image.listing? with
      | some listing => ⟨code, lines ++ [Image.listingRule] ++ listing ++ [Image.listingRule]⟩
      | none => ⟨faultCode, lines ++ [Image.listingRule]⟩
    else ⟨code, lines⟩

/-- Write out an image. -/
def writeImage (i : Invocation) (options : Options) (lines : List String) (log : Log)
    (image : Image) : Progress :=
  let errors := (log.ofSeverity .error).length
  let lines := lines ++ shownLog log ++
    if log.hasError then
      [failure "Link failed" (": " ++ Numeral.decimal errors ++ " error(s)")]
    else []
  let path := i.output.getD "a.bin"
  match if options.verbose then image.unreferenced? else some [] with
  | none => .done ⟨faultCode, lines⟩
  | some names =>
    let lines := lines ++ whenVerbose options
      (names.map shownUnreferenced ++ ["3. Generate Binary", "  > " ++ path])
    match image.bytes with
    | .error e =>
      .done ⟨1, lines ++ [(Severity.error.heading ++ Styled.bare (": " ++ e.message)).ansi]⟩
    | .ok content => .writing lines path content (finish i lines log path image)

/-- Assemble what a command line names. -/
def start (read : Reader) (i : Invocation) : Progress :=
  match loadOptions read i with
  | .error line => .done ⟨1, [line]⟩
  | .ok options =>
    let (reading, sources?) := loadSources read options i.inputs
    let lines := whenVerbose options ["DCPU-16 Assembler", "1. Read Files"] ++ reading
    match sources? with
    | none => .done ⟨1, lines⟩
    | some sources =>
      let lines := lines ++ whenVerbose options ["2. Parse, Fix Addresses & Resolve Symbols"]
      let assembly := assemble sources options
      match assembly.result with
      | .error (.fault _) => .done ⟨faultCode, lines⟩
      | .error (.error e) =>
        .done ⟨1, lines ++ shownLog assembly.log ++ shownError options e⟩
      | .ok image => writeImage i options lines assembly.log image

/-- The outcome of a command line that is not run. -/
def refuse : Refusal → Outcome
  | .misuse => ⟨2, []⟩
  | .version => ⟨0, [versionLine]⟩
  | .help => ⟨0, []⟩

/-- Run a command line in a directory tree. -/
def inTree (tree : FileTree) (arguments : List String) : Outcome × FileTree :=
  match Invocation.read arguments with
  | .error r => (refuse r, tree)
  | .ok i =>
    match start tree.read i with
    | .done outcome => (outcome, tree)
    | .writing _ path content resume =>
      match tree.write path content with
      | .ok after => (resume (.ok ()), after)
      | .error e => (resume (.error e), tree)

end Run

end Dcpu16
