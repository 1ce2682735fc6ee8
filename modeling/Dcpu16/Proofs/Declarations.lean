import Dcpu16.ObjectFile.Lines
import Dcpu16.Proofs.MangledNames
import Dcpu16.Proofs.Reading
import Dcpu16.Proofs.Runs
import Dcpu16.Proofs.Session

/-! The labels that the lines of a file declare, and what is known of lines that have been read. -/

namespace Dcpu16

/-- A label in a line of a file.  `owner` is the label that it is local to. -/
structure Declaration where
  owner : Option String
  name : String
  line : Nat
  deriving DecidableEq, Repr

namespace SourceLine

/-- The last label that is not local, after a line. -/
def nextOwner (owner : Option String) (line : SourceLine) : Option String :=
  match line.statement.label with
  | some label => if label.isLocal then owner else some label.name
  | none => owner

/-- The label that a line declares, below the last label that is not local. -/
def declaration? (owner : Option String) (line : SourceLine) : Option Declaration :=
  line.statement.label.map fun label =>
    ⟨if label.isLocal then owner else none, label.name, line.number⟩

/-- The last label that is not local, after some lines. -/
def ownerAfter (lines : List SourceLine) : Option String :=
  lines.foldl nextOwner none

/-- The labels that lines declare, below the last label that is not local. -/
def declarationsFrom : Option String → List SourceLine → List Declaration
  | _, [] => []
  | owner, line :: lines =>
    (line.declaration? owner).toList ++ declarationsFrom (line.nextOwner owner) lines

/-- The labels that the lines of a file declare. -/
def declarations (lines : List SourceLine) : List Declaration :=
  declarationsFrom none lines

@[simp] theorem declarations_nil : declarations [] = [] := rfl

theorem ownerAfter_snoc (lines : List SourceLine) (line : SourceLine) :
    ownerAfter (lines ++ [line]) = line.nextOwner (ownerAfter lines) := by
  simp [ownerAfter]

theorem declarationsFrom_append (owner : Option String) (before after : List SourceLine) :
    declarationsFrom owner (before ++ after) =
      declarationsFrom owner before ++ declarationsFrom (before.foldl nextOwner owner) after := by
  induction before generalizing owner with
  | nil => rfl
  | cons line before ih => simp [declarationsFrom, ih]

theorem declarations_snoc (lines : List SourceLine) (line : SourceLine) :
    declarations (lines ++ [line]) =
      declarations lines ++ (line.declaration? (ownerAfter lines)).toList := by
  simp [declarations, declarationsFrom_append, declarationsFrom, ownerAfter]

theorem declarations_split (before : List SourceLine) (line : SourceLine)
    (after : List SourceLine) :
    declarations (before ++ line :: after) =
      declarations before ++ ((line.declaration? (ownerAfter before)).toList ++
        declarationsFrom (line.nextOwner (ownerAfter before)) after) := by
  simp [declarations, declarationsFrom_append, declarationsFrom, ownerAfter]

end SourceLine

/-! ### Lines that have been read -/

theorem Label.simple_of_isName {cs : List Char} (h : Label.isName cs) :
    Symbol.Simple (String.ofList cs) := by
  have head {c : Char} (h : Label.isHead c) : c ≠ '$' := by
    rintro rfl
    revert h
    decide
  rw [Symbol.Simple, String.toList_ofList]
  cases cs with
  | nil => simp [Label.isName] at h
  | cons c cs =>
    simp only [Label.isName, Bool.and_eq_true, List.all_eq_true, Bool.or_eq_true] at h
    simp only [List.mem_cons, not_or]
    refine ⟨fun same => head h.1 same.symm, fun member => ?_⟩
    rcases h.2 _ member with isHead | isDigit
    · exact head isHead rfl
    · revert isDigit
      decide

theorem Label.simple_of_ofToken? {token : List Char} {label : Label}
    (h : Label.ofToken? token = some label) : Symbol.Simple label.name := by
  obtain ⟨name, hName, rfl⟩ := Option.map_eq_some_iff.mp h
  exact Label.simple_of_isName (Option.filter_eq_some_iff.mp hName).2

/-- An instruction has as many operands as it takes. -/
def Body.Complete : Body → Prop
  | .instruction op operands => operands.length = op.arity
  | _ => True

theorem Body.complete_of_readOperands {op : Opcode} {rest : List Char} {body : Body}
    (h : Body.readOperands op rest = .ok body) : body.Complete := by
  have counted {operands : List Expr} (h : (if operands.length = op.arity then
      pure (instruction op operands) else .error (.operandCount op.name op.arity operands.length) :
      Except AsmError Body) = .ok body) : body.Complete := by
    split at h
    · next arity =>
      cases h
      exact arity
    · cases h
  unfold Body.readOperands at h
  split at h
  · exact counted h
  · cases read : (rest.splitOn ',').mapM Expr.parse with
    | error e => simp [read, bind, Except.bind] at h
    | ok operands => exact counted (by simpa [read, bind, Except.bind] using h)

theorem Body.complete_of_read {token rest : List Char} {body : Body}
    (h : Body.read token rest = .ok body) : body.Complete := by
  unfold Body.read at h
  dsimp only at h
  split at h
  · exact complete_of_readOperands h
  · cases h
    trivial
  · split at h
    · cases h
      trivial
    · split at h
      · cases h
        trivial
      · cases h

/-- The label of the statement can be a part of a mangled name, and its body is complete. -/
structure Statement.WellRead (statement : Statement) : Prop where
  label : ∀ label, statement.label = some label → Symbol.Simple label.name
  body : statement.body.Complete

theorem Body.complete_of_readFrom {text : List Char} {body : Body} (h : Body.ReadFrom text body) :
    body.Complete := by
  cases h with
  | nothing => trivial
  | something _ _ _ read => exact complete_of_read read

theorem Statement.wellRead_of_parse {line : List Char} {statement : Statement}
    (h : Statement.parse line = .ok statement) : statement.WellRead := by
  rcases readFrom_of_parse h with
    ⟨unlabelled, body⟩ | ⟨token, rest, label, -, found, -, labelled, body⟩
  · exact ⟨by simp [unlabelled], Body.complete_of_readFrom body⟩
  · refine ⟨fun l same => ?_, Body.complete_of_readFrom body⟩
    cases labelled.symm.trans same
    exact Label.simple_of_ofToken? found

namespace SourceFile

/-- The lines are numbered from zero on, and each has been read. -/
structure WellRead (source : SourceFile) : Prop where
  number : ∀ ⦃i : Nat⦄ ⦃line : SourceLine⦄, source.lines[i]? = some line → line.number = i
  statement : ∀ line ∈ source.lines, line.statement.WellRead

/-- Reading a line ends as parsing its tidy form does. -/
theorem readLine_cases (file text : String) (number : Nat) (s : Session) :
    (∃ cause, Statement.parse (Text.tidy text.toList) = .error cause ∧
        readLine file text number s = .error (.error ⟨cause, file, number, text⟩) s) ∨
      ∃ statement t, Statement.parse (Text.tidy text.toList) = .ok statement ∧
        readLine file text number s = .ok ⟨number, text, statement⟩ t := by
  unfold readLine
  dsimp only
  cases parsed : Statement.parse (Text.tidy text.toList) with
  | error cause => exact .inl ⟨cause, rfl, rfl⟩
  | ok statement =>
    dsimp only
    cases warned : statement.warning? with
    | none => exact .inr ⟨statement, s, rfl, rfl⟩
    | some message => exact .inr ⟨statement, _, rfl, rfl⟩

theorem readLine_eq_ok {file text : String} {number : Nat} {line : SourceLine} {s t : Session}
    (run : readLine file text number s = .ok line t) :
    line.number = number ∧ line.statement.WellRead := by
  rcases readLine_cases file text number s with ⟨_, -, failed⟩ | ⟨statement, _, parsed, made⟩
  · cases failed.symm.trans run
  · cases made.symm.trans run
    exact ⟨rfl, Statement.wellRead_of_parse parsed⟩

theorem read_eq_ok {file text : String} {source : SourceFile} {s t : Session}
    (run : read file text s = .ok source t) : source.file = file ∧ source.WellRead := by
  obtain ⟨lines, _, made, last⟩ := Assembler.bind_eq_ok.mp run
  simp at last
  obtain ⟨rfl, -⟩ := last
  obtain ⟨-, each⟩ := Assembler.mapM_keeps (fun _ => True)
    (R := fun text line => line.number = text.2 ∧ line.statement.WellRead)
    (fun text _ line u v _ step => ⟨trivial, readLine_eq_ok step⟩) trivial made
  refine ⟨rfl, fun i line found => ?_, fun line member => ?_⟩
  · obtain ⟨inside, rfl⟩ := List.getElem?_eq_some_iff.mp found
    have here := each.get (i := i) (by simpa [each.length_eq] using inside) inside
    simpa using here.1
  · obtain ⟨_, -, here⟩ := Runs.exists_left_of_forall₂ each member
    exact here.2

end SourceFile

end Dcpu16
