import Dcpu16.Options.Basic
import Dcpu16.Source.Expr.Parser

/-! The command line.  Options and inputs come in any order.  Short options can be grouped behind
one dash; the value of an option stands behind it in the same argument or is the next argument.
`--` ends the options. -/

namespace Dcpu16

open Text

/-- An option without a value. -/
inductive Flag where
  | keepGoing | strict | verbose | dump
  deriving DecidableEq, Repr

/-- An option with a value. -/
inductive Setting where
  | output | config | base | entry
  deriving DecidableEq, Repr

/-- An option. -/
inductive Switch where
  | flag (f : Flag)
  | setting (s : Setting)
  | version
  | help
  deriving DecidableEq, Repr

namespace Switch

/-- The option with a given letter. -/
def ofLetter? : Char → Option Switch
  | 'k' => some (flag .keepGoing)
  | 'v' => some (flag .verbose)
  | 'd' => some (flag .dump)
  | 'o' => some (setting .output)
  | 'c' => some (setting .config)
  | 'b' => some (setting .base)
  | 'e' => some (setting .entry)
  | 'V' => some version
  | 'h' => some help
  | _ => none

/-- The long names of the options. -/
def longNames : List (String × Switch) :=
  [("keep-going", flag .keepGoing), ("strict", flag .strict), ("verbose", flag .verbose),
    ("dump", flag .dump), ("output", setting .output), ("config", setting .config),
    ("base", setting .base), ("entry", setting .entry), ("version", version), ("help", help)]

/-- The option with a given long name. -/
def ofLongName? (name : List Char) : Option Switch :=
  longNames.lookup (String.ofList name)

end Switch

/-- What a command line asks for. -/
structure Invocation where
  /-- The source files, in the order in which they are linked. -/
  inputs : List String := []
  flags : List Flag := []
  output : Option String := none
  config : Option String := none
  base : Option Word := none
  entry : Option String := none
  deriving DecidableEq, Repr

/-- Why a command line is not run. -/
inductive Refusal where
  /-- It is not understood. -/
  | misuse
  /-- It asks for the version. -/
  | version
  /-- It asks for help. -/
  | help
  deriving DecidableEq, Repr

namespace Invocation

/-- Set a flag, unless it is set. -/
def setFlag (i : Invocation) (f : Flag) : Except Refusal Invocation :=
  if i.flags.contains f then .error .misuse else .ok { i with flags := i.flags ++ [f] }

/-- Give an option its value, unless it has one. -/
def setValue (i : Invocation) (s : Setting) (value : List Char) : Except Refusal Invocation :=
  let text := String.ofList value
  match s with
  | .output => if i.output.isSome then .error .misuse else .ok { i with output := some text }
  | .config => if i.config.isSome then .error .misuse else .ok { i with config := some text }
  | .entry => if i.entry.isSome then .error .misuse else .ok { i with entry := some text }
  | .base =>
    match i.base, readLiteral value with
    | none, .ok w => .ok { i with base := some w }
    | _, _ => .error .misuse

/-- Add a source file. -/
def addInput (i : Invocation) (file : String) : Invocation :=
  { i with inputs := i.inputs ++ [file] }

/-- Is a flag set? -/
def has (i : Invocation) (f : Flag) : Bool := i.flags.contains f

/-- The options of the run: those of an options file as the command line changes them. -/
def apply (i : Invocation) (options : Options) : Options :=
  { baseAddress := i.base.getD options.baseAddress
    keepGoing := options.keepGoing || i.has .keepGoing
    verbose := options.verbose || i.has .verbose
    redefinition := if i.has .strict then .error else options.redefinition
    entry := i.entry.or options.entry }

/-- A command line while it is read. -/
structure Reading where
  invocation : Invocation := {}
  /-- The option whose value is the next argument. -/
  waiting : Option Setting := none
  /-- Only inputs follow. -/
  ended : Bool := false
  deriving DecidableEq, Repr

/-- Read letters of options behind one dash. -/
def readLetters (i : Invocation) : List Char → Except Refusal Reading
  | [] => .ok { invocation := i }
  | c :: rest =>
    match Switch.ofLetter? c with
    | none => .error .misuse
    | some .version => .error .version
    | some .help => .error .help
    | some (.flag f) =>
      match i.setFlag f with
      | .error e => .error e
      | .ok i => readLetters i rest
    | some (.setting s) =>
      if rest.isEmpty then .ok { invocation := i, waiting := some s }
      else do return { invocation := ← i.setValue s ((dropHead? '=' rest).getD rest) }

/-- Read a long option, with a value if an equals sign follows its name. -/
def readLong (i : Invocation) (text : List Char) : Except Refusal Reading :=
  let name := text.takeWhile (· != '=')
  let value? := match text.dropWhile (· != '=') with
    | [] => none
    | _ :: value => some value
  match Switch.ofLongName? name, value? with
  | some .version, none => .error .version
  | some .help, none => .error .help
  | some (.flag f), none => do return { invocation := ← i.setFlag f }
  | some (.setting s), none => .ok { invocation := i, waiting := some s }
  | some (.setting s), some value => do return { invocation := ← i.setValue s value }
  | _, _ => .error .misuse

/-- Read the next argument.  A dash alone is no option. -/
def readArgument (r : Reading) (argument : String) : Except Refusal Reading :=
  let i := r.invocation
  if r.ended then .ok { r with invocation := i.addInput argument }
  else
    match argument.toList, r.waiting with
    | '-' :: _ :: _, some _ => .error .misuse
    | value, some s => do return { invocation := ← i.setValue s value }
    | ['-', '-'], none => .ok { invocation := i, ended := true }
    | '-' :: '-' :: name, none => readLong i name
    | '-' :: c :: rest, none => readLetters i (c :: rest)
    | _, none => .ok { invocation := i.addInput argument }

/-- Read a command line.  It has to name a source file. -/
def read (arguments : List String) : Except Refusal Invocation := do
  let r ← arguments.foldlM readArgument {}
  if r.waiting.isSome || r.invocation.inputs.isEmpty then .error .misuse else return r.invocation

end Invocation

end Dcpu16
