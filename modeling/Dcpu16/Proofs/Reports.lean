import Dcpu16.Image
import Dcpu16.Proofs.Atomicity

/-! What is reported while files are assembled.  Apart from names that are defined again there are
only mild diagnostics: none is an error, and none tells of such a name.  So whatever depends on the
log alone, and puts up with mild diagnostics, is kept by every step. -/

namespace Dcpu16

open Assembler

namespace Diagnostic

variable {d : Diagnostic} {name : String}

/-- The diagnostic warns that `name` is defined again. -/
def Redefines (d : Diagnostic) (name : String) : Prop :=
  d.severity = .warning ∧
    d.message = "Symbol redefined: " ++ AsmError.quoted name ++ ". Keeping the first definition."

/-- The diagnostic is no error, and it does not tell of a name that is defined again. -/
structure Mild (d : Diagnostic) : Prop where
  severity : d.severity ≠ .error
  other : ∀ name, ¬ d.Redefines name

theorem Redefines.take_message (h : d.Redefines name) : d.message.toList.take 2 = ['S', 'y'] := by
  rw [h.2]
  simp

/-- A warning that begins otherwise. -/
theorem Mild.of_warning {message file text : String} {line : Nat}
    (begins : message.toList.take 2 ≠ ['S', 'y']) :
    Mild ⟨.warning, message, file, line, text⟩ :=
  ⟨by simp, fun _ redefines => begins redefines.take_message⟩

end Diagnostic

/-- `P` speaks of the log only, and a diagnostic with `A` may be added to it. -/
structure Assembler.Allows (P : Session → Prop) (A : Diagnostic → Prop) : Prop where
  program : ∀ s program, P s → P { s with program := program }
  log : ∀ s d, A d → P s → P { s with log := s.log ++ [d] }

namespace SourceFile

variable {P : Session → Prop} {source : SourceFile}

theorem keeps_parentOf (line : SourceLine) (label : Label) (owner : Option SymbolId) :
    Keeps P (source.parentOf line label owner) := by
  unfold parentOf
  split
  · split
    · exact .pure _
    · exact .fail _
  · exact .pure _

theorem keeps_enterLabel (table : SymbolTable) (line : SourceLine) (build : Build) :
    Keeps P (source.enterLabel table line build) := by
  unfold enterLabel
  split
  · exact .pure _
  · refine Keeps.bind ?_ fun _ => .pure _
    refine Keeps.get.bind fun _ => (Keeps.located _ _).bind fun found => ?_
    split
    · exact .pure _
    · exact .fail _

end SourceFile

namespace Assembler.Allows

section Steps

variable {P : Session → Prop} {A : Diagnostic → Prop} (h : Allows P A) {source : SourceFile}

include h

theorem report {d : Diagnostic} (allowed : A d) : Keeps P (report d) :=
  .modify fun s => h.log s d allowed

theorem setSymbols (symbols : SymbolStore) : Keeps P (setSymbols symbols) :=
  .modify fun s => h.program s _

theorem markReferenced (ids : List SymbolId) : Keeps P (markReferenced ids) :=
  .modify fun s => h.program s _

theorem addSymbol (place : Place) (name : String) (parent : Option SymbolId) :
    Keeps P (addSymbol place name parent) :=
  Keeps.get.bind fun _ => (Keeps.require _ _).bind fun _ => (h.setSymbols _).bind fun _ => .pure _

theorem define (place : Place) (id : SymbolId) : Keeps P (define place id) :=
  Keeps.get.bind fun _ => (Keeps.require _ _).bind fun _ => (h.setSymbols _).bind fun _ => .pure _

theorem addRecord (line : SourceLine) (content : Content) (build : SourceFile.Build) :
    Keeps P (source.addRecord line content build) := by
  have bindSymbols (place : Place) (ids : List SymbolId) :
      Keeps P (SourceFile.bindSymbols place ids) := by
    induction ids with
    | nil => exact .pure _
    | cons id ids ih => exact (h.define place id).bind fun _ => ih.bind fun _ => .pure _
  exact (bindSymbols _ _).bind fun _ => .pure _

end Steps

variable {P : Session → Prop} (h : Allows P Diagnostic.Mild) {source : SourceFile}
  {policy : Redefinition}

include h

/-! ### Lines and labels -/

theorem warn (line : SourceLine) {message : String}
    (begins : message.toList.take 2 ≠ ['S', 'y']) : Keeps P (source.warn line message) :=
  h.report (.of_warning begins)

theorem read (file text : String) : Keeps P (SourceFile.read file text) := by
  have warning {statement : Statement} {message : String}
      (asked : statement.warning? = some message) : message.toList.take 2 ≠ ['S', 'y'] := by
    unfold Statement.warning? at asked
    split at asked
    · cases asked
      simp
    · cases asked
  refine (Keeps.mapM (fun line => ?_) _).bind fun _ => .pure _
  unfold SourceFile.readLine
  dsimp only
  split
  · exact .fail _
  · split
    · next asked => exact (h.report (.of_warning (warning asked))).bind fun _ => .pure _
    · exact (Keeps.pure _).bind fun _ => .pure _

theorem addLabel
    (redefine : ∀ name line first, Keeps P (source.redefine policy name line first))
    (labels : SourceFile.Labels) (line : SourceLine) :
    Keeps P (source.addLabel policy labels line) := by
  unfold SourceFile.addLabel
  split
  · exact .pure _
  · refine (SourceFile.keeps_parentOf _ _ _).bind fun parent => ?_
    refine (SourceFile.keeps_labelKey _ parent).bind fun key => ?_
    split
    · exact (Keeps.symbol _).bind fun _ => (redefine _ _ _).bind fun _ => .pure _
    · exact (h.addSymbol _ _ _).bind fun _ => .pure _

theorem hideNames (table : SymbolTable) : Keeps P (source.hideNames table) := by
  refine .foldlM (fun table hidden => ?_) _ _
  unfold SourceFile.hideName
  split
  · exact Keeps.get.bind fun _ => (Keeps.require _ _).bind fun _ =>
      (h.setSymbols _).bind fun _ => .pure _
  · exact (h.warn _ (by simp)).bind fun _ => .pure _

theorem publish
    (redefine : ∀ name line first, Keeps P (source.redefine policy name line first))
    (table : SymbolTable) : Keeps P (source.publish policy table) := by
  have publishName (entry : String × SymbolId) : Keeps P (source.publishName policy entry) := by
    refine Keeps.get.bind fun s => ?_
    split
    · exact .modify fun s => h.program s _
    · exact (Keeps.symbol _).bind fun _ => (Keeps.symbol _).bind fun _ =>
        (SourceFile.keeps_line _).bind fun _ => redefine _ _ _
  unfold SourceFile.publish
  induction table.entries with
  | nil => exact .pure _
  | cons entry entries ih => exact (publishName entry).bind fun _ => ih

/-! ### Records -/

theorem markFunction (line : SourceLine) (build : SourceFile.Build) :
    Keeps P (source.markFunction line build) := by
  have warning {message : String}
      (asked : (build.functions.step line.number line.statement.body).2 = some message) :
      message.toList.take 2 ≠ ['S', 'y'] := by
    unfold FunctionSpans.step at asked
    split at asked
    · obtain ⟨other, -, rfl⟩ := Option.map_eq_some_iff.mp asked
      simp [AsmError.quoted]
    · unfold FunctionSpans.leave at asked
      split at asked
      · cases asked
      · cases asked
        simp
    · cases asked
  unfold SourceFile.markFunction
  dsimp only
  split
  · next asked => exact (h.warn _ (warning asked)).bind fun _ => .pure _
  · exact (Keeps.pure _).bind fun _ => .pure _

theorem build (table : SymbolTable) : Keeps P (source.build table) := by
  have buildLine (build : SourceFile.Build) (line : SourceLine) :
      Keeps P (source.buildLine table build line) := by
    refine (SourceFile.keeps_enterLabel table line build).bind fun build => ?_
    refine (h.markFunction line build).bind fun build => ?_
    refine (SourceFile.keeps_content? h.markReferenced line build.scope).bind fun content => ?_
    split
    · exact h.addRecord _ _ _
    · exact .pure _
  refine (Keeps.foldlM buildLine _ _).bind fun build => ?_
  refine Keeps.bind ?_ fun _ => ?_
  · unfold SourceFile.closeFunctions
    split
    · exact (SourceFile.keeps_line _).bind fun _ => h.warn _ (by simp [AsmError.quoted])
    · exact .pure _
  · unfold SourceFile.closeLabels
    split
    · exact (Keeps.symbol _).bind fun _ => (SourceFile.keeps_line _).bind fun _ =>
        h.addRecord _ _ _
    · exact .pure _

/-! ### Files -/

theorem assembleFiles {options : Options}
    (redefine : ∀ source name line first,
      Keeps P (SourceFile.redefine source options.redefinition name line first))
    (sources : List (String × String)) : Keeps P (assembleFiles sources options) := by
  have ofSource (source : SourceFile) : Keeps P (ObjectFile.ofSource options source) :=
    ((Keeps.foldlM (h.addLabel (redefine source)) _ _).bind fun _ => .pure _).bind fun table =>
      (h.hideNames table).bind fun table => (h.publish (redefine source) table).bind fun _ =>
        (h.build table).bind fun _ => .pure _
  refine .mapM (fun file => (h.read _ _).bind fun source s before => ?_) sources
  -- Undoing a file leaves its diagnostics.
  have made := ofSource source s before
  rw [Leads, ObjectFile.undoing_apply]
  cases run : ObjectFile.ofSource options source s with
  | ok o t => exact made.ok run
  | error e t => exact h.program _ _ (made.error run)

end Assembler.Allows

end Dcpu16
