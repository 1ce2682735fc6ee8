import Dcpu16.Proofs.IndexSafety
import Dcpu16.Proofs.Veiling

/-! How making the object of a file can stop.  Each step has few reasons: a local label without an
owner, a name that is defined again, data that cannot be read, or a local label that its file has
hidden.  What else a line may hold is no reason to stop. -/

namespace Dcpu16

/-- The fault is a number without a symbol or without a line. -/
def Stop.IsMissing {ε : Type} (e : Stop ε) : Prop :=
  e = .fault .missingSymbol ∨ e = .fault .missingLine

namespace Assembler

variable {α β σ : Type} {x : Assembler α} {f : α → Assembler β} {s t u : Session}
  {e : Stop LocatedError}

theorem require_eq_error {g : Fault} {o : Option α} :
    require g o s = .error e t ↔ o = none ∧ e = .fault g ∧ s = t := by
  cases o <;> simp [require, eq_comm]

theorem located_eq_error {locate : AsmError → LocatedError} {r : Except (Stop AsmError) α} :
    located locate r s = .error e t ↔
      ∃ stop, r = .error stop ∧ e = stop.mapError locate ∧ s = t := by
  cases r <;> simp [located, eq_comm]

theorem symbol_eq_error {id : SymbolId} (run : symbol id s = .error e t) : e.IsMissing := by
  rcases bind_eq_error.mp run with got | ⟨_, _, -, required⟩
  · cases got
  · exact .inl (require_eq_error.mp required).2.1

theorem mangled_eq_error {id : SymbolId} (run : mangled id s = .error e t) : e.IsMissing := by
  rcases bind_eq_error.mp run with got | ⟨_, _, -, required⟩
  · cases got
  · exact .inl (require_eq_error.mp required).2.1

theorem addSymbol_eq_error {place : Place} {name : String} {parent : Option SymbolId}
    (run : addSymbol place name parent s = .error e t) : e.IsMissing := by
  rcases bind_eq_error.mp run with got | ⟨_, _, -, rest⟩
  · cases got
  rcases bind_eq_error.mp rest with required | ⟨_, _, -, last⟩
  · exact .inl (require_eq_error.mp required).2.1
  · cases last

theorem define_eq_error {place : Place} {id : SymbolId} (run : define place id s = .error e t) :
    e.IsMissing := by
  rcases bind_eq_error.mp run with got | ⟨_, _, -, rest⟩
  · cases got
  rcases bind_eq_error.mp rest with required | ⟨_, _, -, last⟩
  · exact .inl (require_eq_error.mp required).2.1
  · cases last

/-- A loop that stops does so at one element, behind those that went well. -/
theorem foldlM_eq_error {step : σ → β → Assembler σ} {xs : List β} {a : σ}
    (run : xs.foldlM step a s = .error e t) : ∃ before x after b u, xs = before ++ x :: after ∧
      before.foldlM step a s = .ok b u ∧ step b x u = .error e t := by
  induction xs generalizing a s with
  | nil => cases run
  | cons x xs ih =>
    rw [List.foldlM_cons] at run
    rcases bind_eq_error.mp run with stops | ⟨b, u, first, rest⟩
    · exact ⟨[], x, xs, a, s, rfl, rfl, stops⟩
    · obtain ⟨before, z, after, c, v, rfl, went, stops⟩ := ih rest
      refine ⟨x :: before, z, after, c, v, rfl, ?_, stops⟩
      rw [List.foldlM_cons]
      exact bind_eq_ok.mpr ⟨b, u, first, went⟩

theorem forM_eq_error {g : β → Assembler Unit} {xs : List β}
    (run : xs.forM g s = .error e t) : ∃ x ∈ xs, ∃ u, g x u = .error e t := by
  induction xs generalizing s with
  | nil => cases run
  | cons x xs ih =>
    rcases bind_eq_error.mp run with stops | ⟨_, u, -, rest⟩
    · exact ⟨x, by simp, s, stops⟩
    · obtain ⟨y, member, v, stops⟩ := ih rest
      exact ⟨y, List.mem_cons_of_mem _ member, v, stops⟩

end Assembler

/-- Looking a name up stops only if it needs a scope, or the scope has no mangled name. -/
theorem SymbolStore.resolve_eq_error {s : SymbolStore} {table : SymbolTable} {file name : String}
    {scope : Option SymbolId} {e : Stop AsmError}
    (run : s.resolve table file name scope = .error e) :
    e.IsMissing ∨ e = .error (.noScope name) := by
  unfold resolve at run
  dsimp only at run
  split at run
  · cases run
  split at run
  · split at run
    · cases run
      exact .inr rfl
    · next id =>
      cases named : s.mangled? id with
      | none =>
        rw [named] at run
        cases run
        exact .inl (.inl rfl)
      | some key =>
        rw [named] at run
        cases run
  · split at run
    · cases run
    · cases run

theorem Program.bindName_eq_error {p : Program} {file name : String} {scope : Option SymbolId}
    {f : Fault} (run : p.bindName file scope name = .error f) :
    (Stop.fault f : Stop LocatedError).IsMissing := by
  unfold bindName at run
  split at run
  · split at run
    · cases run
    · cases run
      exact .inl rfl
  · next f' failed =>
    cases run
    rcases SymbolStore.resolve_eq_error failed with missing | scope
    · exact missing.imp (by simp) (by simp)
    · cases scope
  · cases run

/-- Binding the names of an operand stops at one of them. -/
theorem Expr.mapReferences_eq_error {operand : Expr} {f : String → Assembler String}
    {s t : Session} {e : Stop LocatedError} (run : operand.mapReferences f s = .error e t) :
    ∃ name u, f name u = .error e t := by
  rcases Assembler.bind_eq_error.mp run with failed | ⟨_, _, -, last⟩
  · obtain ⟨_, ⟨sign, atom⟩, _, _, u, -, -, stops⟩ := Assembler.mapM_eq_error failed
    cases atom with
    | reference name =>
      rcases Assembler.bind_eq_error.mp stops with stops | ⟨_, _, -, last⟩
      · exact ⟨name, u, stops⟩
      · cases last
    | _ => cases stops
  · cases last

namespace SourceFile

open Assembler

variable {source : SourceFile} {policy : Redefinition} {line : SourceLine} {label : Label}
  {s t : Session} {e : Stop LocatedError} {n : Nat} {hidden : List String} {table : SymbolTable}

/-- The reasons why making the object of a file stops. -/
inductive Stops (source : SourceFile) (policy : Redefinition) : Stop LocatedError → Prop
  | missing {e : Stop LocatedError} (missing : e.IsMissing) : Stops source policy e
  | orphan {before after : List SourceLine} {line : SourceLine} {label : Label}
      (split : source.lines = before ++ line :: after)
      (hLabel : line.statement.label = some label) (isLocal : label.isLocal = true)
      (alone : SourceLine.ownerAfter before = none) :
      Stops source policy (.error (source.locate line (.orphanLocal label.name)))
  | redefined {line : SourceLine} (name : String) (member : line ∈ source.lines)
      (strict : policy = .error) :
      Stops source policy (.error (source.locate line (.redefined name)))
  | data {line : SourceLine} {d : Directive} {rest : String} {stop : Stop AsmError}
      (member : line ∈ source.lines) (body : line.statement.body = .directive d rest)
      (isData : d.isData = true) (bad : Data.parse d rest = .error stop) :
      Stops source policy (stop.mapError (source.locate line))
  | veiled {before after : List SourceLine} {line : SourceLine} {label : Label} {owner : String}
      (split : source.lines = before ++ line :: after)
      (hLabel : line.statement.label = some label) (isLocal : label.isLocal = true)
      (above : SourceLine.ownerAfter before = some owner)
      (veiled : Symbol.Veiled source.file (source.hiddenNames.map Prod.fst) owner label.name) :
      Stops source policy (.error (source.locate line (.undefinedSymbol label.name)))

/-! ### Labels -/

theorem line_eq_error {number : Nat} (run : source.line number s = .error e t) : e.IsMissing :=
  .inr (require_eq_error.mp run).2.1

theorem redefine_eq_error {name : String} {first : Place}
    (run : source.redefine policy name line first s = .error e t) :
    e.IsMissing ∨ (policy = .error ∧ e = .error (source.locate line (.redefined name))) := by
  cases policy with
  | error =>
    cases run
    exact .inr ⟨rfl, rfl⟩
  | warn =>
    rcases bind_eq_error.mp run with warned | ⟨_, _, -, rest⟩
    · cases warned
    dsimp only at rest
    split at rest
    · rcases bind_eq_error.mp rest with text | ⟨_, _, -, shown⟩
      · rw [← bind_pure_comp] at text
        rcases bind_eq_error.mp text with line | ⟨_, _, -, last⟩
        · exact .inl (line_eq_error line)
        · cases last
      · cases shown
    · cases rest

theorem parentOf_eq_error {owner : Option SymbolId}
    (run : source.parentOf line label owner s = .error e t) :
    label.isLocal = true ∧ owner = none ∧
      e = .error (source.locate line (.orphanLocal label.name)) := by
  unfold parentOf at run
  split at run
  · next isLocal =>
    cases owner with
    | some id => cases run
    | none =>
      cases run
      exact ⟨isLocal, rfl, rfl⟩
  · cases run

theorem labelKey_eq_error {parent : Option SymbolId}
    (run : labelKey label parent s = .error e t) : e.IsMissing := by
  cases parent with
  | none => cases run
  | some p =>
    rcases bind_eq_error.mp run with named | ⟨_, _, -, last⟩
    · exact mangled_eq_error named
    · cases last

/-- Making a symbol for the label of a line. -/
theorem LabelsRead.stops {labels : Labels} {before after : List SourceLine}
    (h : LabelsRead source n before labels s.program.symbols)
    (split : source.lines = before ++ line :: after)
    (run : source.addLabel policy labels line s = .error e t) : source.Stops policy e := by
  unfold addLabel at run
  cases hLabel : line.statement.label with
  | none =>
    simp only [hLabel] at run
    cases run
  | some label =>
    simp only [hLabel] at run
    rcases bind_eq_error.mp run with parent | ⟨parent, _, -, rest⟩
    · obtain ⟨isLocal, none, rfl⟩ := parentOf_eq_error parent
      rcases h.owner with ⟨-, alone⟩ | ⟨id, g, some, -⟩
      · exact .orphan split hLabel isLocal alone
      · rw [none] at some
        cases some
    rcases bind_eq_error.mp rest with key | ⟨key, _, -, rest⟩
    · exact .missing (labelKey_eq_error key)
    cases found : labels.table.find? key with
    | some first =>
      simp only [found] at rest
      rcases bind_eq_error.mp rest with missing | ⟨sym, _, -, rest⟩
      · exact .missing (symbol_eq_error missing)
      rcases bind_eq_error.mp rest with again | ⟨_, _, -, last⟩
      · rcases redefine_eq_error again with missing | ⟨strict, rfl⟩
        · exact .missing missing
        · exact .redefined key (by simp [split]) strict
      · cases last
    | none =>
      simp only [found] at rest
      rcases bind_eq_error.mp rest with added | ⟨_, _, -, last⟩
      · exact .missing (addSymbol_eq_error added)
      · cases last

theorem stops_of_addLabels (read : source.WellRead)
    (run : source.addLabels policy s = .error e t) : source.Stops policy e := by
  rcases bind_eq_error.mp run with loop | ⟨_, _, -, last⟩
  · obtain ⟨before, line, after, labels, u, split, went, stops⟩ := foldlM_eq_error loop
    have labelsRead : LabelsRead source s.program.symbols.size before labels u.program.symbols := by
      refine foldlM_keeps (LabelsRead source s.program.symbols.size · · ·.program.symbols)
        (fun done line' rest part _ _ _ _ h step => ?_) (LabelsRead.start _) went
      exact h.step (read.statement line' (by simp [split, part])) step
    exact labelsRead.stops split stops
  · cases last

/-! ### Names -/

theorem hideName_eq_error {name : String × SourceLine}
    (run : source.hideName table name s = .error e t) : e.IsMissing := by
  unfold hideName at run
  cases found : table.find? name.1 with
  | none =>
    simp only [found] at run
    cases run
  | some id =>
    simp only [found] at run
    rcases bind_eq_error.mp run with got | ⟨_, _, -, rest⟩
    · cases got
    rcases bind_eq_error.mp rest with required | ⟨_, _, -, last⟩
    · exact .inl (require_eq_error.mp required).2.1
    · cases last

theorem stops_of_publishName {entry : String × SymbolId}
    (run : source.publishName policy entry s = .error e t) : source.Stops policy e := by
  rcases bind_eq_error.mp run with got | ⟨_, _, got, rest⟩
  · cases got
  cases got
  cases found : s.program.table.find? entry.1 with
  | none =>
    simp only [found] at rest
    cases rest
  | some first =>
    simp only [found] at rest
    rcases bind_eq_error.mp rest with missing | ⟨_, _, -, rest⟩
    · exact .missing (symbol_eq_error missing)
    rcases bind_eq_error.mp rest with missing | ⟨_, _, -, rest⟩
    · exact .missing (symbol_eq_error missing)
    rcases bind_eq_error.mp rest with missing | ⟨line, _, hLine, again⟩
    · exact .missing (line_eq_error missing)
    rcases redefine_eq_error again with missing | ⟨strict, rfl⟩
    · exact .missing missing
    · exact .redefined _ (List.mem_of_getElem? (require_eq_ok.mp hLine).1) strict

theorem stops_of_declare (read : source.WellRead) (run : source.declare policy s = .error e t) :
    source.Stops policy e := by
  rcases bind_eq_error.mp run with labels | ⟨_, _, -, rest⟩
  · exact stops_of_addLabels read labels
  rcases bind_eq_error.mp rest with hides | ⟨_, _, -, rest⟩
  · obtain ⟨_, name, _, _, _, -, -, stops⟩ := foldlM_eq_error hides
    exact .missing (hideName_eq_error stops)
  rcases bind_eq_error.mp rest with publishes | ⟨_, _, -, last⟩
  · obtain ⟨entry, -, _, stops⟩ := forM_eq_error publishes
    exact stops_of_publishName stops
  · cases last

/-- The names of a file after its labels have been declared. -/
theorem namesTracked_of_declare (read : source.WellRead)
    (run : source.declare policy s = .ok table t) :
    NamesTracked source s.program.symbols.size (source.hiddenNames.map Prod.fst) table
      t.program.symbols := by
  obtain ⟨labels, u, hLabels, rest⟩ := bind_eq_ok.mp run
  obtain ⟨table, v, hHide, rest⟩ := bind_eq_ok.mp rest
  obtain ⟨_, w, hPublish, last⟩ := bind_eq_ok.mp rest
  cases last
  obtain ⟨owner, labelsRead⟩ := addLabels_eq_ok read hLabels
  rw [publish_symbols hPublish]
  exact namesTracked_of_hideNames labelsRead.namesTracked hHide

/-! ### Records -/

/-- The label of a line stands for the symbol that its key has in the table, if it has one. -/
theorem NamesHidden.resolve_label {symbols : SymbolStore}
    (h : NamesHidden source n hidden table symbols) {scope : Option SymbolId}
    {owner : Option String} {x : Nat} (hScope : symbols.OwnerIs n scope owner) (hx : n ≤ x)
    (isLabel : symbols.IsLabel x (if label.isLocal then owner else none) label.name) :
    symbols.resolve table source.file label.name scope =
      .ok (table.find? (Symbol.keyIn source.file hidden (if label.isLocal then owner else none)
        label.name)) := by
  have labelName := h.linked.labelName hx isLabel
  have whole := Symbol.hasDoubleDollar_simple labelName.simple
  cases isLocal : label.isLocal with
  | true =>
    have dot : label.name.toList.head? = some '.' := by simpa [Label.isLocal] using isLocal
    simp only [isLocal, if_true] at labelName ⊢
    rcases hScope with ⟨-, rfl⟩ | ⟨id, g, rfl, rfl, new, hLabel⟩
    · cases labelName.dot.mp dot
    · obtain ⟨sym, found, rfl, top⟩ := (h.linked.isLabel_none_iff new).mp hLabel
      have front := SymbolStore.mangled?_own found (.inl top)
      rw [SymbolStore.ownName_eq_keyIn h.ofFile h.hides new found top] at front
      simp [SymbolStore.resolve, whole, dot, front, orFault, Symbol.keyIn_some]
  | false =>
    have noDot : label.name.toList.head? ≠ some '.' := by simpa [Label.isLocal] using isLocal
    simp only [isLocal, Bool.false_eq_true, if_false] at isLabel ⊢
    obtain ⟨sym, found, hName, top⟩ := (h.linked.isLabel_none_iff hx).mp isLabel
    have own := h.lists.top hx found top
    rw [SymbolStore.ownName_eq_keyIn h.ofFile h.hides hx found top, hName] at own
    rw [own]
    refine (SymbolStore.resolve_eq_some whole).mpr (.inr ⟨noDot, ?_⟩)
    by_cases inside : label.name ∈ hidden
    · rw [Symbol.keyIn_none, if_pos inside] at own
      exact .inl own
    · -- Only a hidden label has a name of the file.
      rw [Symbol.keyIn_none, if_neg inside] at own
      refine .inr ⟨?_, own⟩
      cases other : table.find? (Symbol.privateName source.file label.name) with
      | none => rfl
      | some y =>
        obtain ⟨new, named⟩ := h.lists.sound other
        have key := (h.isLabel_of_mangled? new named labelName.simple noDot (.inr ⟨_, rfl⟩)).2
        rw [Symbol.keyIn_none, if_neg inside] at key
        exact absurd key (Symbol.localName_ne labelName.simple)

theorem ownLabel_eq_error {scope : Option SymbolId}
    (run : source.ownLabel table line label scope s = .error e t) :
    (∃ stop, s.program.symbols.resolve table source.file label.name scope = .error stop ∧
        e = stop.mapError (source.locate line)) ∨
      (s.program.symbols.resolve table source.file label.name scope = .ok none ∧
        e = .error (source.locate line (.undefinedSymbol label.name))) := by
  rcases bind_eq_error.mp run with got | ⟨_, _, got, rest⟩
  · cases got
  cases got
  rcases bind_eq_error.mp rest with failed | ⟨found, _, resolved, last⟩
  · obtain ⟨stop, stopped, rfl, -⟩ := located_eq_error.mp failed
    exact .inl ⟨stop, stopped, rfl⟩
  · obtain ⟨answer, rfl⟩ := located_eq_ok.mp resolved
    cases found with
    | some id => cases last
    | none =>
      cases last
      exact .inr ⟨answer, rfl⟩

/-- The label of a line is found, unless it is local and veiled. -/
theorem Built.stops_enterLabel {p : Program} {before after : List SourceLine} {build : Build}
    (h : Built source p n (source.hiddenNames.map Prod.fst) table before build s)
    (tracked : NamesTracked source n (source.hiddenNames.map Prod.fst) table p.symbols)
    (split : source.lines = before ++ line :: after)
    (run : source.enterLabel table line build s = .error e t) : source.Stops policy e := by
  unfold SourceFile.enterLabel at run
  cases hLabel : line.statement.label with
  | none =>
    simp only [hLabel] at run
    cases run
  | some label =>
    simp only [hLabel] at run
    rcases bind_eq_error.mp run with failed | ⟨_, _, -, last⟩
    swap
    · cases last
    have declaration : (⟨if label.isLocal then SourceLine.ownerAfter before else none, label.name,
        line.number⟩ : Declaration) ∈ SourceLine.declarations source.lines := by
      rw [split, SourceLine.declarations_split]
      simp [SourceLine.declaration?, hLabel]
    obtain ⟨x, hx, isLabel⟩ := tracked.names.declared.label _ declaration
    have resolved := tracked.names.resolve_label h.scope hx isLabel
    rw [← SymbolStore.resolve_of_unmarked h.session.program.symbols] at resolved
    rcases ownLabel_eq_error failed with ⟨stop, stopped, -⟩ | ⟨none, rfl⟩
    · rw [resolved] at stopped
      cases stopped
    rw [resolved, Except.ok.injEq] at none
    cases isLocal : label.isLocal with
    | true =>
      simp only [isLocal, if_true] at isLabel none
      cases above : SourceLine.ownerAfter before with
      | none =>
        have labelName := tracked.names.linked.labelName hx isLabel
        rw [above] at labelName
        cases labelName.dot.mp (by simpa [Label.isLocal] using isLocal)
      | some owner =>
        rw [above] at isLabel none
        exact .veiled split hLabel isLocal above (tracked.veiled_of_find? hx isLabel none)
    | false =>
      simp only [isLocal, Bool.false_eq_true, if_false] at isLabel none
      obtain ⟨sym, found, hName, top⟩ := (tracked.names.linked.isLabel_none_iff hx).mp isLabel
      have own := tracked.names.lists.top hx found top
      rw [SymbolStore.ownName_eq_keyIn tracked.names.ofFile tracked.names.hides hx found top, hName,
        none] at own
      cases own

theorem bindName_eq_error {scope : Option SymbolId} {name : String}
    (run : source.bindName scope name s = .error e t) : e.IsMissing := by
  rcases bind_eq_error.mp run with got | ⟨_, _, got, rest⟩
  · cases got
  cases got
  cases bound : s.program.bindName source.file scope name with
  | ok result =>
    simp only [bound] at rest
    cases rest
  | error f =>
    simp only [bound] at rest
    cases rest
    exact Program.bindName_eq_error bound

theorem stops_of_content? {scope : Option SymbolId} (member : line ∈ source.lines)
    (run : source.content? line scope s = .error e t) : source.Stops policy e := by
  unfold SourceFile.content? at run
  cases body : line.statement.body with
  | empty =>
    simp only [body] at run
    cases run
  | unknown token =>
    simp only [body] at run
    cases run
  | instruction op operands =>
    simp only [body] at run
    rcases bind_eq_error.mp run with failed | ⟨_, _, -, last⟩
    · obtain ⟨_, operand, _, _, _, -, -, stops⟩ := mapM_eq_error failed
      obtain ⟨name, _, stops⟩ := Expr.mapReferences_eq_error stops
      exact .missing (bindName_eq_error stops)
    · cases last
  | directive d rest =>
    simp only [body] at run
    split at run
    · next isData =>
      rcases bind_eq_error.mp run with failed | ⟨_, _, -, last⟩
      · obtain ⟨stop, bad, rfl, -⟩ := located_eq_error.mp failed
        exact .data member body isData bad
      · cases last
    · cases run

theorem bindSymbols_eq_error {place : Place} {ids : List SymbolId}
    (run : bindSymbols place ids s = .error e t) : e.IsMissing := by
  induction ids generalizing s with
  | nil => cases run
  | cons id ids ih =>
    rcases bind_eq_error.mp run with failed | ⟨_, _, -, rest⟩
    · exact define_eq_error failed
    rcases bind_eq_error.mp rest with failed | ⟨_, _, -, last⟩
    · exact ih failed
    · cases last

theorem addRecord_eq_error {content : Content} {build : Build}
    (run : source.addRecord line content build s = .error e t) : e.IsMissing := by
  rcases bind_eq_error.mp run with failed | ⟨_, _, -, last⟩
  · exact bindSymbols_eq_error failed
  · cases last

theorem not_markFunction_eq_error {build : Build} :
    source.markFunction line build s ≠ .error e t := by
  intro run
  unfold markFunction at run
  dsimp only at run
  cases warning : (build.functions.step line.number line.statement.body).2 with
  | none =>
    simp only [warning] at run
    cases run
  | some message =>
    simp only [warning] at run
    cases run

/-- Building the records of a line. -/
theorem Built.stops {p : Program} {before after : List SourceLine} {build : Build}
    (h : Built source p n (source.hiddenNames.map Prod.fst) table before build s)
    (tracked : NamesTracked source n (source.hiddenNames.map Prod.fst) table p.symbols)
    (split : source.lines = before ++ line :: after)
    (run : source.buildLine table build line s = .error e t) : source.Stops policy e := by
  rcases bind_eq_error.mp run with failed | ⟨_, _, -, rest⟩
  · exact h.stops_enterLabel tracked split failed
  rcases bind_eq_error.mp rest with failed | ⟨_, _, -, rest⟩
  · exact absurd failed not_markFunction_eq_error
  rcases bind_eq_error.mp rest with failed | ⟨content?, _, -, rest⟩
  · exact stops_of_content? (by simp [split]) failed
  cases content? with
  | none => cases rest
  | some content => exact .missing (addRecord_eq_error rest)

theorem closeFunctions_eq_error {build : Build}
    (run : source.closeFunctions build s = .error e t) : e.IsMissing := by
  unfold closeFunctions at run
  cases opened : build.functions.opened with
  | none =>
    simp only [opened] at run
    cases run
  | some name =>
    simp only [opened] at run
    rcases bind_eq_error.mp run with failed | ⟨_, _, -, last⟩
    · exact line_eq_error failed
    · cases last

theorem closeLabels_eq_error {build : Build}
    (run : source.closeLabels build s = .error e t) : e.IsMissing := by
  unfold closeLabels at run
  cases pending : build.pending with
  | nil =>
    simp only [pending] at run
    cases run
  | cons first others =>
    simp only [pending] at run
    rcases bind_eq_error.mp run with failed | ⟨_, _, -, rest⟩
    · exact symbol_eq_error failed
    rcases bind_eq_error.mp rest with failed | ⟨_, _, -, added⟩
    · exact line_eq_error failed
    · exact addRecord_eq_error added

theorem stops_of_build (read : source.WellRead)
    (tracked : NamesTracked source n (source.hiddenNames.map Prod.fst) table s.program.symbols)
    (run : source.build table s = .error e t) : source.Stops policy e := by
  rw [build_eq_bind] at run
  rcases bind_eq_error.mp run with failed | ⟨_, _, -, rest⟩
  · obtain ⟨before, line, after, build, u, split, went, stops⟩ := foldlM_eq_error failed
    have built := built_of_buildLines tracked.names read split went
    exact built.stops tracked split stops
  rcases bind_eq_error.mp rest with failed | ⟨_, _, -, closed⟩
  · exact .missing (closeFunctions_eq_error failed)
  · exact .missing (closeLabels_eq_error closed)

end SourceFile

/-- Making the object of a file stops for one of these reasons. -/
theorem ObjectFile.stops_of_ofSource {options : Options} {source : SourceFile} {s t : Session}
    {e : Stop LocatedError} (read : source.WellRead)
    (run : ofSource options source s = .error e t) : source.Stops options.redefinition e := by
  rw [ofSource_eq_bind] at run
  rcases Assembler.bind_eq_error.mp run with failed | ⟨table, u, declared, rest⟩
  · exact SourceFile.stops_of_declare read failed
  rcases Assembler.bind_eq_error.mp rest with failed | ⟨_, _, -, last⟩
  · exact SourceFile.stops_of_build read (SourceFile.namesTracked_of_declare read declared) failed
  · cases last

/-- A file that cannot be assembled has a line that cannot be read, or it stops while its object is
made. -/
theorem ObjectFile.stops_of_assemble {options : Options} {file text : String} {s t : Session}
    {e : Stop LocatedError} (run : assemble options file text s = .error e t) :
    SourceFile.read file text s = .error e t ∨
      ∃ source r, SourceFile.read file text s = .ok source r ∧
        source.Stops options.redefinition e := by
  rcases Assembler.bind_eq_error.mp run with failed | ⟨source, r, read, undone⟩
  · exact .inl failed
  · obtain ⟨u, made, -⟩ := undoing_eq_error.mp undone
    exact .inr ⟨source, r, read, stops_of_ofSource (SourceFile.read_eq_ok read).2 made⟩

end Dcpu16
