import Dcpu16.CommandLine.Run

/-! The command line program. -/

namespace Dcpu16

/-- Is it the number `n` of a system error?  Some calls report it with a minus sign. -/
def isSystemCode (n code : UInt32) : Bool := code = n || code = 0 - n

/-- The reason for an input or output error. -/
def FileError.ofSystem : IO.Error → FileError
  | .noFileOrDirectory _ _ _ => .missing
  | .inappropriateType _ code _ => if isSystemCode 20 code then .notADirectory else .isADirectory
  | .invalidArgument name code details =>
    if isSystemCode 36 code then .nameTooLong
    else .other (toString (IO.Error.invalidArgument name code details))
  | e => .other (toString e)

/-- Read a file. -/
def readFileBytes (path : String) : IO (Except FileError (List UInt8)) := do
  match ← (IO.FS.readBinFile path).toBaseIO with
  | .ok bytes => return .ok bytes.toList
  | .error e => return .error (.ofSystem e)

/-- Write a file. -/
def writeFileBytes (path : String) (content : List UInt8) : IO (Except FileError Unit) := do
  match ← (IO.FS.writeBinFile path (ByteArray.mk content.toArray)).toBaseIO with
  | .ok () => return .ok ()
  | .error e => return .error (.ofSystem e)

/-- Print lines. -/
def printLines (lines : List String) : IO Unit :=
  lines.forM IO.println

end Dcpu16

open Dcpu16

/-- Run the assembler: every file that the command line names is read first. -/
def main (arguments : List String) : IO UInt32 := do
  match Invocation.read arguments with
  | .error r =>
    let outcome := Run.refuse r
    printLines outcome.lines
    return outcome.exitCode.toUInt32
  | .ok i =>
    let named ← (i.config.toList ++ i.inputs).mapM fun path => do
      return (path, ← readFileBytes path)
    let read (path : String) := (named.lookup path).getD (.error .missing)
    match Run.start read i with
    | .done outcome =>
      printLines outcome.lines
      return outcome.exitCode.toUInt32
    | .writing lines path content resume =>
      let outcome := resume (← writeFileBytes path content)
      printLines lines
      printLines (outcome.lines.drop lines.length)
      return outcome.exitCode.toUInt32
