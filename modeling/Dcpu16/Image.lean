import Dcpu16.ObjectFile.Basic

/-! Images: the records of all files in one row.  `place` gives each record its address, `fill` its
words.  The symbol `_end` stands for the address behind the last word. -/

namespace Dcpu16

/-- The number of words of memory. -/
def addressSpace : Nat := 0x10000

/-- The records of a program. -/
structure Image where
  program : Program
  objects : List ObjectFile
  /-- The jump to the entry, if there is one, and then the records of all files. -/
  records : List Record
  /-- The record behind the last one, which `_end` stands for. -/
  sentinel : Record
  /-- The sentinel as it was when the words were made, if anything refers to it. -/
  closing : Option Record
  endSymbol : SymbolId
  baseAddress : Word
  keepGoing : Bool
  deriving DecidableEq, Repr

/-- The records after they have been placed.  If one does not fit, it and those after it are as they
were; otherwise the result is the address behind the last. -/
structure Placing where
  records : List Record
  symbols : SymbolStore
  result : Except (Stop LocatedError) Nat

/-- The records after their words have been made.  If that stops at one, it and those after it are
as they were. -/
structure Filling where
  records : List Record
  /-- The symbols that have been referred to. -/
  touched : List SymbolId
  log : Log
  result : Except (Stop LocatedError) Unit

namespace Record

/-- The address behind a record at `address`, if all of it is in memory.  Also a record without
words has to start in memory. -/
def endFrom (r : Record) (address : Nat) : Except (Stop LocatedError) Nat :=
  if addressSpace ≤ address then .error (.error (r.locate (.addressOverflow address)))
  else
    match r.content.measure with
    | .error f => .error (.fault f)
    | .ok size =>
      if addressSpace < address + size then
        .error (.error (r.locate (.addressOverflow (address + size - 1))))
      else .ok (address + size)

/-- Put a record at an address, and give that address to its symbols. -/
def placeAt? (r : Record) (symbols : SymbolStore) (address : Nat) :
    Option (Record × SymbolStore) := do
  let word := UInt16.ofNat address
  let symbols ← r.defined.foldlM (fun s id => s.setAddress? id word) symbols
  return ({ r with address := some word }, symbols)

/-- Place records one after the other. -/
def placeAll (symbols : SymbolStore) (address : Nat) : List Record → Placing
  | [] => ⟨[], symbols, .ok address⟩
  | r :: rs =>
    match r.endFrom address with
    | .error e => ⟨r :: rs, symbols, .error e⟩
    | .ok next =>
      match r.placeAt? symbols address with
      | none => ⟨r :: rs, symbols, .error (.fault .missingSymbol)⟩
      | some (placed, symbols) =>
        let rest := placeAll symbols next rs
        ⟨placed :: rest.records, rest.symbols, rest.result⟩

/-- A record filled with zeros, as many as it takes room. -/
def zeroed (r : Record) : Except Fault Record :=
  r.content.measure.map fun size => { r with words := some (List.replicate size 0) }

/-- Make the words of records one after the other.  If `keepGoing` is set, a record that fails is
reported and filled with zeros; a value that does not fit its place stops the image all the same. -/
def fillAll (program : Program) (keepGoing : Bool) : List Record → Filling
  | [] => ⟨[], [], [], .ok ()⟩
  | r :: rs =>
    let scope := r.scopeIn program
    let touched := r.content.touched scope
    match r.content.words scope with
    | .ok words =>
      let rest := fillAll program keepGoing rs
      ⟨{ r with words := some words } :: rest.records, touched ++ rest.touched, rest.log,
        rest.result⟩
    | .error (.fault f) => ⟨r :: rs, touched, [], .error (.fault f)⟩
    | .error (.error e) =>
      if keepGoing && e.kind ≠ .encode then
        match r.zeroed with
        | .error f => ⟨r :: rs, touched, [], .error (.fault f)⟩
        | .ok zeroed =>
          let rest := fillAll program keepGoing rs
          ⟨zeroed :: rest.records, touched ++ rest.touched,
            Diagnostic.ofError (r.locate e) :: rest.log, rest.result⟩
      else ⟨r :: rs, touched, [], .error (.error (r.locate e))⟩

end Record

namespace Image

/-- The name of the symbol behind the last word. -/
def endName : String := "_end"

/-- The file of what the linker adds. -/
def linkerFile : String := "<linker>"

/-- The jump to the entry. -/
def entryJump (entry : String) : Except LocatedError Record :=
  let text := "set pc, " ++ entry
  match Expr.parse entry.toList with
  | .error e => .error ⟨e, linkerFile, 0, text⟩
  | .ok target =>
    let pc : Expr := ⟨[⟨none, .special .pc⟩], false⟩
    .ok {
      file := linkerFile, line := 0, text, scope := none,
      content := .operation ⟨.basic .set, [pc, target]⟩ }

/-- The source line of a symbol, from the first file of its name. -/
def sourceText (objects : List ObjectFile) (place : Place) : String :=
  match objects.find? fun o => o.file = place.file with
  | some o => ((o.lines[place.line]?).map SourceLine.text).getD ""
  | none => ""

/-- The symbol behind the last word, new in the program. -/
def addEnd (program : Program) : Option (SymbolId × Program) := do
  let place : Place := ⟨linkerFile, 0⟩
  let (id, symbols) ← program.symbols.add? place endName none
  let (_, symbols) ← symbols.define? id place
  return (id, ⟨symbols, program.table.insert endName id⟩)

/-- The image of a program, without addresses and words. -/
def link (program : Program) (objects : List ObjectFile) (options : Options) :
    Except (Stop LocatedError) Image :=
  match program.table.find? endName with
  | some id => do
    let sym ← orFault .missingSymbol (program.symbols.get? id)
    .error (.error ⟨.reservedSymbol endName, sym.place.file, sym.place.line,
      sourceText objects sym.place⟩)
  | none => do
    let (endSymbol, program) ← orFault .missingSymbol (addEnd program)
    let leading ← match options.entry with
      | some entry => ((entryJump entry).mapError Stop.error).map fun r => [r]
      | none => pure []
    let sentinel : Record :=
      { file := linkerFile, line := 0, text := endName, scope := none, content := .mark,
        defined := [endSymbol] }
    return {
      program, objects
      records := leading ++ objects.flatMap ObjectFile.records
      sentinel
      closing := none
      endSymbol
      baseAddress := options.baseAddress
      keepGoing := options.keepGoing }

/-- Put the sentinel at the address behind the last record.  If memory ends there it stays where it
was. -/
def placeSentinel (image : Image) (address : Nat) : Except (Stop LocatedError) Unit × Image :=
  if addressSpace ≤ address then (.ok (), image)
  else
    match image.sentinel.placeAt? image.program.symbols address with
    | some (sentinel, symbols) =>
      (.ok (), { image with sentinel, program := { image.program with symbols } })
    | none => (.error (.fault .missingSymbol), image)

/-- Give every record its address, from the base address on. -/
def place (image : Image) : Except (Stop LocatedError) Unit × Image :=
  let placing := Record.placeAll image.program.symbols image.baseAddress.toNat image.records
  let placed : Image :=
    { image with
      records := placing.records
      program := { image.program with symbols := placing.symbols } }
  match placing.result with
  | .error e => (.error e, placed)
  | .ok address => placed.placeSentinel address

/-- Does anything refer to the end of the image? -/
def endIsReferenced (image : Image) : Bool :=
  ((image.program.symbols.get? image.endSymbol).map Symbol.referenced).getD false

/-- Give every record its words.  The log has what has been reported on the way. -/
def fill (image : Image) : Except (Stop LocatedError) Unit × Log × Image :=
  let filling := Record.fillAll image.program image.keepGoing image.records
  let filled : Image :=
    { image with
      records := filling.records
      program := image.program.markReferenced filling.touched }
  match filling.result with
  | .error e => (.error e, filling.log, filled)
  | .ok () =>
    let sentinel := { image.sentinel with words := some [] }
    let closing := if filled.endIsReferenced then some sentinel else none
    (.ok (), filling.log, { filled with sentinel, closing })

/-- The records in their order, with the sentinel if anything refers to it. -/
def allRecords (image : Image) : List Record :=
  image.records ++ image.closing.toList

/-- The words in their order. -/
def words (image : Image) : List Word :=
  image.allRecords.flatMap Record.wordList

/-- The words as bytes, the high byte of each first.  There has to be a word. -/
def bytes (image : Image) : Except AsmError (List UInt8) :=
  if image.words.isEmpty then .error .emptyImage else .ok (image.words.flatMap Word.bytes)

/-- The address behind the last word. -/
def endAddress (image : Image) : Option Word :=
  image.sentinel.address

/-- The names of symbols that nothing refers to. -/
def unreferenced? (image : Image) : Option (List String) :=
  image.program.unreferenced?.map fun names => names.filter fun name => name ≠ endName

end Image

/-- The outcome of assembling a program. -/
structure Assembly where
  log : Log
  result : Except (Stop LocatedError) Image

/-- Assemble the files of a program, each with its name and text. -/
def assembleFiles (sources : List (String × String)) (options : Options) :
    Assembler (List ObjectFile) :=
  sources.mapM fun source => ObjectFile.assemble options source.1 source.2

/-- Assemble files and link them to an image with addresses and words. -/
def assemble (sources : List (String × String)) (options : Options) : Assembly :=
  match assembleFiles sources options .empty with
  | .error e s => ⟨s.log, .error e⟩
  | .ok objects s =>
    match Image.link s.program objects options with
    | .error e => ⟨s.log, .error e⟩
    | .ok image =>
      match image.place with
      | (.error e, _) => ⟨s.log, .error e⟩
      | (.ok (), placed) =>
        let (result, log, filled) := placed.fill
        ⟨s.log ++ log, result.map fun _ => filled⟩

end Dcpu16
