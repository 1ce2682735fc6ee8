import Dcpu16.Text.Cut

/-! Files: the errors of reading and writing them, and a directory tree held in memory, in which a
run can take place without touching a disk. -/

namespace Dcpu16

/-- Why a file cannot be read or written. -/
inductive FileError where
  | missing
  | notADirectory
  | isADirectory
  | nameTooLong
  /-- Any other reason, in the words of the system. -/
  | other (reason : String)
  deriving DecidableEq, Repr

/-- The text of a file error. -/
def FileError.message : FileError → String
  | missing => "No such file or directory (os error 2)"
  | notADirectory => "Not a directory (os error 20)"
  | isADirectory => "Is a directory (os error 21)"
  | nameTooLong => "File name too long (os error 36)"
  | other reason => reason

/-- Files by their paths below one directory.  The directories are those that hold a file. -/
structure FileTree where
  files : List (List String × List UInt8)
  deriving DecidableEq, Repr

/-- Where a path leads: to a place in a tree, or to one of the directories around the tree. -/
inductive Spot where
  | inside (place : List String)
  | around
  deriving DecidableEq, Repr

namespace FileTree

/-- The longest name of a file, in bytes. -/
def maxNameLength : Nat := 255

/-- The longest path, in bytes. -/
def maxPathLength : Nat := 4095

/-- The parts of a path. -/
def parts (path : String) : List String :=
  (path.toList.splitOn '/').map String.ofList

/-- A part of a path that names no file: it leads from a directory to itself or to the one above. -/
def isStep (part : String) : Bool :=
  part = "" || part = "." || part = ".."

/-- The content of the file at a place. -/
def file? (tree : FileTree) (place : List String) : Option (List UInt8) :=
  tree.files.lookup place

/-- Is there a directory at a place? -/
def isDirectory (tree : FileTree) (place : List String) : Bool :=
  place.isEmpty || tree.files.any fun f => place.isPrefixOf f.1 && place.length < f.1.length

/-- Check that there is a directory at a spot. -/
def enter (tree : FileTree) : Spot → Except FileError Unit
  | .around => .ok ()
  | .inside place =>
    if tree.isDirectory place then .ok ()
    else .error (if (tree.file? place).isSome then .notADirectory else .missing)

/-- The spot above, outside of which nothing is known. -/
def above : Spot → Spot
  | .around | .inside [] => .around
  | .inside place => .inside place.dropLast

/-- Go one part of a path further.  No file is known around the tree. -/
def go (tree : FileTree) (spot : Spot) (part : String) : Except FileError Spot := do
  tree.enter spot
  if part = ".." then return above spot
  else if isStep part then return spot
  else if maxNameLength < part.utf8ByteSize then .error .nameTooLong
  else
    match spot with
    | .around => .error .missing
    | .inside place => return .inside (place ++ [part])

/-- Where a path starts: at the root of the system or at the tree. -/
def startOf (path : String) : Except FileError Spot :=
  if path.isEmpty then .error .missing
  else if maxPathLength < path.utf8ByteSize then .error .nameTooLong
  else .ok (if path.toList.head? = some '/' then .around else .inside [])

/-- Read a file. -/
def read (tree : FileTree) (path : String) : Except FileError (List UInt8) := do
  match ← (parts path).foldlM tree.go (← startOf path) with
  | .around => .error .isADirectory
  | .inside place =>
    match tree.file? place with
    | some content => return content
    | none => .error (if tree.isDirectory place then .isADirectory else .missing)

/-- Write a file of a given name in the directory at a spot.  What is written around the tree is not
kept. -/
def writeIn (tree : FileTree) (spot : Spot) (name : String) (content : List UInt8) :
    Except FileError FileTree :=
  if maxNameLength < name.utf8ByteSize then .error .nameTooLong
  else
    match spot with
    | .around => .ok tree
    | .inside parent =>
      let place := parent ++ [name]
      if tree.isDirectory place then .error .isADirectory
      else .ok ⟨(place, content) :: tree.files.filter fun f => f.1 ≠ place⟩

/-- Write a file; its directory has to be there.  A path that ends in a slash or in dots is that of
a directory. -/
def write (tree : FileTree) (path : String) (content : List UInt8) :
    Except FileError FileTree := do
  let start ← startOf path
  let backwards := (parts path).reverse
  match backwards.dropWhile (· = "") with
  | [] => .error .isADirectory
  | name :: before =>
    let parent ← before.reverse.foldlM tree.go start
    tree.enter parent
    if isStep name || backwards.head? = some "" then .error .isADirectory
    else tree.writeIn parent name content

/-- The files at the top of the tree that another tree does not have. -/
def madeSince (tree before : FileTree) : List (String × List UInt8) :=
  tree.files.filterMap fun f =>
    match f.1 with
    | [name] => if (before.file? f.1).isNone then some (name, f.2) else none
    | _ => none

end FileTree

end Dcpu16
