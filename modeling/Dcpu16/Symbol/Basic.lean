import Dcpu16.Error
import Dcpu16.Isa.Word
import Dcpu16.NameTable
import Dcpu16.Text.Cut

/-! Symbols, and the store that numbers them in the order in which they are made.

A symbol is known by its mangled name.  A global symbol is known by its own name, a hidden one by
the name of its file in front of it, and a local one by the mangled name of its parent in front of
it.  `$$` separates the parts. -/

namespace Dcpu16

open Text

/-- The number of a symbol in its store. -/
abbrev SymbolId := Nat

/-- Who can see a symbol: every file, the scope of its parent, or its file. -/
inductive Visibility where
  | global
  | scoped
  | hidden
  deriving DecidableEq, Repr

/-- A file and a line in it, counted from zero. -/
structure Place where
  file : String
  line : Nat
  deriving DecidableEq, Repr

/-- A symbol. -/
structure Symbol where
  /-- The name as it is written, with the dot of a local label. -/
  name : String
  /-- Where the label that made the symbol stands. -/
  place : Place
  parent : Option SymbolId
  visibility : Visibility
  /-- Where the record that the symbol is bound to stands. -/
  definition : Option Place := none
  referenced : Bool := false
  /-- The symbols that have this one as their parent. -/
  locals : List SymbolId := []
  address : Option Word := none
  deriving DecidableEq, Repr

namespace Symbol

/-- What separates the parts of a mangled name. -/
def separator : String := "$$"

/-- The name of a file in mangled names: without leading dots, and with `_` for slashes. -/
def fileName (file : String) : String :=
  String.ofList ((file.toList.dropWhile (· = '.')).map fun c =>
    if c = '/' || c = '\\' then '_' else c)

/-- A name below a parent. -/
def localName (parent name : String) : String :=
  parent ++ separator ++ name

/-- A name that only one file sees. -/
def privateName (file name : String) : String :=
  fileName file ++ separator ++ name

end Symbol

/-- Mangled names and the symbols they stand for. -/
abbrev SymbolTable := NameTable SymbolId

/-- All symbols of a program.  The number of a symbol is its position. -/
structure SymbolStore where
  symbols : List Symbol
  deriving DecidableEq, Repr

namespace SymbolStore

/-- The store without symbols. -/
def empty : SymbolStore := ⟨[]⟩

/-- The number of symbols. -/
def size (s : SymbolStore) : Nat := s.symbols.length

/-- The symbol with a given number. -/
def get? (s : SymbolStore) (id : SymbolId) : Option Symbol :=
  s.symbols[id]?

/-- Change the symbol with a given number, if there is one. -/
def modify (s : SymbolStore) (id : SymbolId) (f : Symbol → Symbol) : SymbolStore :=
  ⟨s.symbols.modify id f⟩

/-- A new symbol.  With a parent, which has to be in the store, it is local to it. -/
def add? (s : SymbolStore) (place : Place) (name : String) (parent : Option SymbolId) :
    Option (SymbolId × SymbolStore) :=
  match parent with
  | none =>
    some (s.size, ⟨s.symbols ++ [{ name, place, parent := none, visibility := .global }]⟩)
  | some p =>
    if p < s.size then
      let child : Symbol := { name, place, parent := some p, visibility := .scoped }
      let below := s.modify p fun sym => { sym with locals := sym.locals ++ [s.size] }
      some (s.size, ⟨below.symbols ++ [child]⟩)
    else none

/-- The mangled name of a symbol, through at most `fuel` symbols up to its first ancestor. -/
def mangledWithin (s : SymbolStore) : Nat → SymbolId → Option String
  | 0, _ => none
  | fuel + 1, id =>
    match s.get? id with
    | none => none
    | some sym =>
      match sym.visibility, sym.parent with
      | .scoped, some p => (s.mangledWithin fuel p).map fun name => Symbol.localName name sym.name
      | .hidden, _ => some (Symbol.privateName sym.place.file sym.name)
      | _, _ => some sym.name

/-- The mangled name of a symbol.  A parent is made before its locals, so a chain of parents is no
longer than the number of the symbol allows. -/
def mangled? (s : SymbolStore) (id : SymbolId) : Option String :=
  s.mangledWithin (id + 1) id

/-- A symbol and all symbols below it, down to at most `fuel` generations. -/
def familyWithin (s : SymbolStore) : Nat → SymbolId → Option (List SymbolId)
  | 0, _ => none
  | fuel + 1, id =>
    match s.get? id with
    | none => none
    | some sym => (sym.locals.mapM (s.familyWithin fuel)).map fun below => id :: below.flatten

/-- A symbol and all symbols below it, each before its own locals. -/
def family? (s : SymbolStore) (id : SymbolId) : Option (List SymbolId) :=
  s.familyWithin s.size id

/-- Make a symbol hidden, and rename it and all symbols below it in a table. -/
def hide? (s : SymbolStore) (table : SymbolTable) (id : SymbolId) :
    Option (SymbolStore × SymbolTable) := do
  let family ← s.family? id
  let table ← family.foldlM (fun t member => return t.erase (← s.mangled? member)) table
  let s := s.modify id fun sym => { sym with visibility := .hidden }
  let table ← family.foldlM (fun t member => return t.insert (← s.mangled? member) member) table
  return (s, table)

/-- Bind a symbol to the place of its record, unless it is bound already.  Also says whether it was
bound now. -/
def define? (s : SymbolStore) (id : SymbolId) (place : Place) : Option (Bool × SymbolStore) :=
  match s.get? id with
  | none => none
  | some sym =>
    match sym.definition with
    | some _ => some (false, s)
    | none => some (true, s.modify id fun sym => { sym with definition := some place })

/-- Give a symbol an address. -/
def setAddress? (s : SymbolStore) (id : SymbolId) (address : Word) : Option SymbolStore :=
  if id < s.size then some (s.modify id fun sym => { sym with address := some address }) else none

/-- Note that a symbol is referred to. -/
def markReferenced (s : SymbolStore) (id : SymbolId) : SymbolStore :=
  s.modify id fun sym => { sym with referenced := true }

/-- The first `n` symbols. -/
def take (s : SymbolStore) (n : Nat) : SymbolStore :=
  ⟨s.symbols.take n⟩

/-- The symbol that `name` stands for in `file`, below the global symbol `scope`.

A name with a separator is looked up as it is.  Otherwise, or if it is not found so, a name with a
dot in front belongs to the scope, and any other name is first one of the file and then a global
one. -/
def resolve (s : SymbolStore) (table : SymbolTable) (file name : String)
    (scope : Option SymbolId) : Except (Stop AsmError) (Option SymbolId) :=
  let mangledAlready := if hasDoubleDollar name.toList then table.find? name else none
  match mangledAlready with
  | some id => .ok (some id)
  | none =>
    if name.toList.head? = some '.' then
      match scope with
      | none => .error (.error (.noScope name))
      | some id => do
        let parent ← orFault .missingSymbol (s.mangled? id)
        return table.find? (Symbol.localName parent name)
    else
      match table.find? (Symbol.privateName file name) with
      | some id => .ok (some id)
      | none => .ok (table.find? name)

end SymbolStore

end Dcpu16
