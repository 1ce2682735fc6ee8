import Dcpu16.Proofs.Records

/-! The stages of assembling a file.  Its labels are declared first; from then on the shared table
stands still, and the records are built line by line. -/

namespace Dcpu16

open Assembler

namespace SourceFile

variable {source : SourceFile} {policy : Redefinition} {table : SymbolTable} {s t : Session}

/-- Make the symbols of a file and share their names.  The result is the table of the file. -/
def declare (source : SourceFile) (policy : Redefinition) : Assembler SymbolTable := do
  let table ← source.addLabels policy
  let table ← source.hideNames table
  source.publish policy table
  return table

/-- The program after the labels of a file have been declared. -/
structure LabelsDeclared (source : SourceFile) (table : SymbolTable) (p q : Program) : Prop where
  names : NamesHidden source p.symbols.size (source.hiddenNames.map Prod.fst) table q.symbols
  remain : p.symbols.RemainIn q.symbols
  shared : q.table = p.table.joined table.entries
  distinct : table.names.Nodup

theorem declare_eq_ok (read : source.WellRead) (run : source.declare policy s = .ok table t) :
    LabelsDeclared source table s.program t.program := by
  obtain ⟨labels, u, hLabels, run₁⟩ := bind_eq_ok.mp run
  obtain ⟨table, v, hHide, run₂⟩ := bind_eq_ok.mp run₁
  obtain ⟨_, w, hPublish, last⟩ := bind_eq_ok.mp run₂
  simp only [pure_apply, EStateM.Result.ok.injEq] at last
  obtain ⟨rfl, rfl⟩ := last
  obtain ⟨owner, labelsRead⟩ := addLabels_eq_ok read hLabels
  have names := hideNames_eq_ok labelsRead.namesHidden hHide
  rw [← publish_symbols hPublish] at names
  obtain ⟨since, own⟩ := (leads_addLabels (Session.Since.start s)).ok hLabels
  obtain ⟨since, own⟩ := (leads_hideNames since own).ok hHide
  obtain ⟨-, published⟩ := (leads_publish own.distinct since).ok hPublish
  exact ⟨names, published.remain, published.table_eq, own.distinct⟩

end SourceFile

namespace ObjectFile

variable {options : Options} {o : ObjectFile} {s t : Session}

/-- The lines of the file, as they were read. -/
def source (o : ObjectFile) : SourceFile := ⟨o.file, o.lines⟩

/-- The names that the file hides. -/
def hiddenNames (o : ObjectFile) : List String := o.source.hiddenNames.map Prod.fst

/-- The records of the file are built in `u`: its lines have been read in `s`, and its labels have
been declared. -/
def BuiltIn (o : ObjectFile) (options : Options) (text : String) (s u : Session) : Prop :=
  ∃ read, SourceFile.read o.file text s = .ok o.source read ∧
    o.source.declare options.redefinition read = .ok o.table u

/-- The file has been assembled from `s` to `t`. -/
structure Stages (o : ObjectFile) (options : Options) (text : String) (s u t : Session)
    (build : SourceFile.Build) : Prop where
  wellRead : o.source.WellRead
  builtIn : o.BuiltIn options text s u
  declared : SourceFile.LabelsDeclared o.source o.table s.program u.program
  run : o.source.build o.table u = .ok build t
  records : o.records = build.records
  functions : o.functions = build.functions.spans
  extends_ : s.program.Extends t.program

theorem ofSource_eq_ok {source : SourceFile} (run : ofSource options source s = .ok o t) :
    o.source = source ∧ ∃ u build, source.declare options.redefinition s = .ok o.table u ∧
      source.build o.table u = .ok build t ∧ o.records = build.records ∧
      o.functions = build.functions.spans := by
  obtain ⟨labels, u, hLabels, run₁⟩ := bind_eq_ok.mp run
  obtain ⟨table, v, hHide, run₂⟩ := bind_eq_ok.mp run₁
  obtain ⟨_, w, hPublish, run₃⟩ := bind_eq_ok.mp run₂
  obtain ⟨build, x, hBuild, last⟩ := bind_eq_ok.mp run₃
  simp only [pure_apply, EStateM.Result.ok.injEq] at last
  obtain ⟨rfl, rfl⟩ := last
  refine ⟨rfl, w, build, ?_, hBuild, rfl, rfl⟩
  exact bind_eq_ok.mpr ⟨labels, u, hLabels, bind_eq_ok.mpr ⟨table, v, hHide,
    bind_eq_ok.mpr ⟨_, w, hPublish, rfl⟩⟩⟩

theorem stages_of_assemble {file text : String} (run : assemble options file text s = .ok o t) :
    o.file = file ∧ ∃ u build, o.Stages options text s u t build := by
  obtain ⟨source, r, hRead, undone⟩ := bind_eq_ok.mp run
  have same := program_of_read hRead
  obtain ⟨rfl, read⟩ := SourceFile.read_eq_ok hRead
  obtain ⟨rfl, u, build, hDeclare, hBuild, records, functions⟩ :=
    ofSource_eq_ok (undoing_eq_ok.mp undone)
  have declared := SourceFile.declare_eq_ok read hDeclare
  rw [same] at declared
  exact ⟨rfl, u, build, read, ⟨r, hRead, hDeclare⟩, declared, hBuild, records, functions,
    (extended_of_ok run).1⟩

namespace Stages

variable {text : String} {u : Session} {build : SourceFile.Build}

theorem built (h : o.Stages options text s u t build) :
    SourceFile.Built o.source u.program s.program.symbols.size o.hiddenNames o.table o.lines build
      t ∧ build.pending = [] :=
  SourceFile.build_eq_ok h.declared.names h.wellRead h.run

/-- The lines above a line have been built, and then the line. -/
theorem reaches (h : o.Stages options text s u t build) {above below : List SourceLine}
    {line : SourceLine} (split : o.lines = above ++ line :: below) :
    ∃ first v second w, o.source.buildLines o.table above u = .ok first v ∧
      o.source.buildLine o.table first line v = .ok second w ∧
      SourceFile.Built o.source u.program s.program.symbols.size o.hiddenNames o.table above
        first v := by
  have run := h.run
  rw [SourceFile.build_eq_bind] at run
  obtain ⟨_, _, hLines, -⟩ := bind_eq_ok.mp run
  rw [show o.source.lines = above ++ line :: below from split] at hLines
  obtain ⟨first, v, second, w, hFirst, hLine⟩ := SourceFile.buildLines_split hLines
  exact ⟨first, v, second, w, hFirst, hLine,
    SourceFile.built_of_buildLines h.declared.names h.wellRead split hFirst⟩

/-- While the records were built every label was found by its key, so each key has its own
symbol. -/
theorem find?_keyIn (h : o.Stages options text s u t build) {x : Nat} {owner : Option String}
    {name : String} (new : s.program.symbols.size ≤ x)
    (label : u.program.symbols.IsLabel x owner name) :
    o.table.find? (Symbol.keyIn o.file o.hiddenNames owner name) = some x := by
  obtain ⟨built, -⟩ := h.built
  refine h.declared.names.find?_keyIn (fun d member => ?_) new label
  obtain ⟨y, found, -⟩ := built.labels d member
  exact ⟨y, found⟩

end Stages

end ObjectFile

end Dcpu16
