import Dcpu16.ObjectFile.Records
import Dcpu16.Proofs.Binding
import Dcpu16.Proofs.Hiding
import Dcpu16.Proofs.Operands

/-! The records of a file.  Every label of the file is bound to exactly one record, and an
instruction has the operands of its line with their names bound. -/

namespace Dcpu16

open Assembler

/-- The session while records are made: from `p` on only notes have been taken, and of the symbols
from `n` on those of `bound` have been bound to a record. -/
structure Session.Building (p : Program) (n : Nat) (bound : List SymbolId) (s : Session) :
    Prop where
  program : p.UpToNotes s.program
  defined : ∀ ⦃x : Nat⦄ ⦃sym : Symbol⦄, n ≤ x → s.program.symbols.get? x = some sym →
    (sym.definition.isSome ↔ x ∈ bound)

namespace Session.Building

variable {p : Program} {n id : Nat} {bound : List SymbolId} {s t : Session} {place : Place}

theorem ignoresLog : IgnoresLog (Session.Building p n bound) :=
  fun _ _ h => ⟨h.program, h.defined⟩

theorem markReferenced (h : s.Building p n bound) (ids : List SymbolId) :
    Session.Building p n bound { s with program := s.program.markReferenced ids } := by
  refine ⟨h.program.markReferenced ids, fun x sym hx found => ?_⟩
  obtain ⟨old, hOld, remains⟩ := SymbolStore.remains_of_markReferenced found
  rw [remains.definition]
  exact h.defined hx hOld

/-- Binding a symbol to a record, unless it is bound already. -/
theorem define {isNew : Bool} (h : s.Building p n bound) (new : n ≤ id)
    (run : Assembler.define place id s = .ok isNew t) :
    t.Building p n (bound ++ if isNew then [id] else []) ∧ (isNew = true ↔ id ∉ bound) := by
  obtain ⟨symbols, defined, rfl⟩ := define_eq_ok.mp run
  rcases SymbolStore.define?_eq_some.mp defined with
    ⟨rfl, rfl, sym, found, before⟩ | ⟨rfl, rfl, sym, found, before⟩
  · have member := (h.defined new found).mp before
    exact ⟨⟨h.program, by simpa using h.defined⟩, by simp [member]⟩
  · have fresh : id ∉ bound := fun member => by
      simpa [before] using (h.defined new found).mpr member
    refine ⟨⟨⟨h.program.table, ?_⟩, fun x sym' hx found' => ?_⟩, by simp [fresh]⟩
    · refine (SymbolStore.unmarked_modify _ id ?_).trans h.program.symbols
      intro sym
      rfl
    · simp only [SymbolStore.get?_modify] at found'
      by_cases same : x = id
      · subst same
        rw [if_pos rfl, found] at found'
        obtain rfl := Option.some.inj found'
        simp
      · rw [if_neg same] at found'
        simpa [same] using h.defined hx found'

/-- Binding symbols to a record.  Those are listed that were not bound before, each once. -/
theorem bindSymbols {ids defined : List SymbolId} (h : s.Building p n bound)
    (new : ∀ x ∈ ids, n ≤ x) (run : SourceFile.bindSymbols place ids s = .ok defined t) :
    t.Building p n (bound ++ defined) ∧ defined.Nodup ∧
      (∀ x, x ∈ defined ↔ x ∈ ids ∧ x ∉ bound) := by
  induction ids generalizing s t bound defined with
  | nil =>
    simp only [SourceFile.bindSymbols, pure_apply, EStateM.Result.ok.injEq] at run
    obtain ⟨rfl, rfl⟩ := run
    exact ⟨by simpa using h, by simp, by simp⟩
  | cons id ids ih =>
    obtain ⟨isNew, u, first, rest⟩ := bind_eq_ok.mp run
    obtain ⟨later, v, others, last⟩ := bind_eq_ok.mp rest
    simp only [pure_apply, EStateM.Result.ok.injEq] at last
    obtain ⟨rfl, rfl⟩ := last
    obtain ⟨mid, isNew_iff⟩ := h.define (new id (by simp)) first
    obtain ⟨final, distinct, member⟩ :=
      ih mid (fun x hx => new x (List.mem_cons_of_mem _ hx)) others
    cases isNew with
    | true =>
      have fresh := isNew_iff.mp rfl
      simp only [↓reduceIte, List.append_assoc, List.singleton_append] at final
      refine ⟨final, List.nodup_cons.mpr ⟨fun inside => ?_, distinct⟩, fun x => ?_⟩
      · simpa using ((member id).mp inside).2
      · by_cases same : x = id
        · simp [same, fresh]
        · simp [same, member x]
    | false =>
      have old : id ∈ bound := by simpa using isNew_iff
      simp only [Bool.false_eq_true, ↓reduceIte, List.append_nil] at final member
      refine ⟨final, distinct, fun x => ?_⟩
      by_cases same : x = id
      · simp [same, old, member id]
      · simp [same, member x]

end Session.Building

namespace SourceFile

variable {source : SourceFile} {p : Program} {n : Nat} {bound : List SymbolId}
  {scope : Option SymbolId} {line : SourceLine} {s t : Session}

/-- What a line stands for: an instruction with its names bound, or data. -/
def ContentOf (source : SourceFile) (p : Program) (scope : Option SymbolId) (line : SourceLine) :
    Content → Prop
  | .operation o => ∃ written, line.statement.body = .instruction o.op written ∧
      List.Forall₂ (Expr.Bound fun name bound =>
        ∃ id, p.bindName source.file scope name = .ok (bound, id)) written o.operands
  | .data words => ∃ d rest, line.statement.body = .directive d rest ∧ Data.parse d rest = .ok words
  | .mark => False

theorem ContentOf.complete {content : Content} (h : ContentOf source p scope line content)
    (read : line.statement.WellRead) : content.Complete := by
  cases content with
  | operation o =>
    obtain ⟨written, body, bound⟩ := h
    have arity := read.body
    rw [body] at arity
    exact bound.length_eq.symm.trans arity
  | data words => trivial
  | mark => trivial

theorem ContentOf.of_notes {q : Program} (notes : p.UpToNotes q) {content : Content}
    (h : ContentOf source p scope line content) : ContentOf source q scope line content := by
  cases content with
  | operation o => simpa only [ContentOf, notes.bindName] using h
  | data words => exact h
  | mark => exact h

theorem bindName_eq_ok {name named : String} (h : s.Building p n bound)
    (run : source.bindName scope name s = .ok named t) :
    t.Building p n bound ∧ ∃ id, p.bindName source.file scope name = .ok (named, id) := by
  obtain ⟨_, u, got, rest⟩ := bind_eq_ok.mp run
  cases got
  cases made : s.program.bindName source.file scope name with
  | error f =>
    simp only [made] at rest
    cases rest
  | ok result =>
    obtain ⟨text, id⟩ := result
    simp only [made] at rest
    obtain ⟨_, v, marked, last⟩ := bind_eq_ok.mp rest
    cases marked
    cases last
    exact ⟨h.markReferenced _, id, by rw [← made, h.program.bindName]⟩

theorem ownLabel_eq_ok {table : SymbolTable} {label : Label} {id : SymbolId}
    (run : source.ownLabel table line label scope s = .ok id t) :
    s.program.symbols.resolve table source.file label.name scope = .ok (some id) ∧ s = t := by
  obtain ⟨_, u, got, rest⟩ := bind_eq_ok.mp run
  cases got
  obtain ⟨found, v, resolved, last⟩ := bind_eq_ok.mp rest
  obtain ⟨hFound, rfl⟩ := located_eq_ok.mp resolved
  cases found with
  | none => cases last
  | some id =>
    cases last
    exact ⟨hFound, rfl⟩

theorem content?_eq_ok {content? : Option Content} (h : s.Building p n bound)
    (run : source.content? line scope s = .ok content? t) :
    t.Building p n bound ∧
      ∀ content, content? = some content → ContentOf source p scope line content := by
  unfold SourceFile.content? at run
  cases body : line.statement.body with
  | empty =>
    simp only [body, pure_apply, EStateM.Result.ok.injEq] at run
    obtain ⟨rfl, rfl⟩ := run
    exact ⟨h, by simp⟩
  | unknown token =>
    simp only [body, pure_apply, EStateM.Result.ok.injEq] at run
    obtain ⟨rfl, rfl⟩ := run
    exact ⟨h, by simp⟩
  | instruction op written =>
    simp only [body] at run
    obtain ⟨operands, u, made, last⟩ := bind_eq_ok.mp run
    simp only [pure_apply, EStateM.Result.ok.injEq] at last
    obtain ⟨rfl, rfl⟩ := last
    have each (e : Expr) {e' : Expr} {s t : Session} (hs : s.Building p n bound)
        (step : e.mapReferences (source.bindName scope) s = .ok e' t) :
        t.Building p n bound ∧ e.Bound (fun name bound =>
          ∃ id, p.bindName source.file scope name = .ok (bound, id)) e' :=
      Expr.mapReferences_eq_ok (Session.Building p n bound) bindName_eq_ok hs step
    obtain ⟨after, bound⟩ :=
      mapM_keeps (Session.Building p n bound) (fun e _ _ _ _ => each e) h made
    refine ⟨after, fun content same => ?_⟩
    obtain rfl := Option.some.inj same
    exact ⟨written, body, bound⟩
  | directive d rest =>
    simp only [body] at run
    split at run
    · obtain ⟨words, u, made, last⟩ := bind_eq_ok.mp run
      obtain ⟨parsed, rfl⟩ := located_eq_ok.mp made
      simp only [pure_apply, EStateM.Result.ok.injEq] at last
      obtain ⟨rfl, rfl⟩ := last
      refine ⟨h, fun content same => ?_⟩
      obtain rfl := Option.some.inj same
      exact ⟨d, rest, body, parsed⟩
    · simp only [pure_apply, EStateM.Result.ok.injEq] at run
      obtain ⟨rfl, rfl⟩ := run
      exact ⟨h, by simp⟩

/-- A label waits for the next record, and one that is not local is the scope of what follows. -/
theorem enterLabel_eq_ok {table : SymbolTable} {build build' : Build}
    (run : source.enterLabel table line build s = .ok build' t) :
    (line.statement.label = none ∧ build' = build ∧ s = t) ∨
      ∃ label id, line.statement.label = some label ∧
        source.ownLabel table line label build.scope s = .ok id t ∧
        build' = { build with
          pending := build.pending ++ [id]
          scope := if label.isLocal then build.scope else some id } := by
  unfold SourceFile.enterLabel at run
  cases hLabel : line.statement.label with
  | none =>
    simp only [hLabel, pure_apply, EStateM.Result.ok.injEq] at run
    exact .inl ⟨rfl, run.1.symm, run.2⟩
  | some label =>
    simp only [hLabel] at run
    obtain ⟨id, u, found, last⟩ := bind_eq_ok.mp run
    simp only [pure_apply, EStateM.Result.ok.injEq] at last
    obtain ⟨rfl, rfl⟩ := last
    exact .inr ⟨label, id, rfl, found, rfl⟩

theorem markFunction_eq_ok {build build' : Build}
    (run : source.markFunction line build s = .ok build' t) :
    ∃ functions log, (build.functions.step line.number line.statement.body).1 = functions ∧
      build' = { build with functions } ∧ t = { s with log } := by
  unfold SourceFile.markFunction at run
  dsimp only at run
  cases warned : (build.functions.step line.number line.statement.body).2 with
  | none =>
    simp only [warned] at run
    cases run
    exact ⟨_, s.log, rfl, rfl, rfl⟩
  | some message =>
    simp only [warned] at run
    obtain ⟨_, u, shown, last⟩ := bind_eq_ok.mp run
    cases shown
    cases last
    exact ⟨_, _, rfl, rfl, rfl⟩

/-! ### All lines -/

/-- A record of the file: a mark, or what a line stands for, below the last label that is not local
at or above the line. -/
structure RecordOf (source : SourceFile) (p : Program) (n : Nat) (r : Record) : Prop where
  file : r.file = source.file
  address : r.address = none
  words : r.words = none
  content : r.content = .mark ∨ ∃ before line after, source.lines = before ++ line :: after ∧
    r.line = line.number ∧ r.text = line.text ∧
    p.symbols.OwnerIs n r.scope (SourceLine.ownerAfter (before ++ [line])) ∧
    ContentOf source p r.scope line r.content

theorem RecordOf.of_notes {q : Program} (notes : p.UpToNotes q) {r : Record}
    (h : RecordOf source p n r) : RecordOf source q n r := by
  refine ⟨h.file, h.address, h.words, h.content.imp_right ?_⟩
  rintro ⟨before, line, after, split, number, text, owner, content⟩
  exact ⟨before, line, after, split, number, text,
    owner.of_sameOrigins (.of_unmarked notes.symbols), content.of_notes notes⟩

/-- The records of the lines that have been read.  Every label of these lines has been found in the
table, and is bound to one of the records or waits for the next. -/
structure Built (source : SourceFile) (p : Program) (n : Nat) (hidden : List String)
    (table : SymbolTable) (done : List SourceLine) (build : Build) (s : Session) : Prop where
  session : s.Building p n (build.records.flatMap Record.defined)
  distinct : (build.records.flatMap Record.defined).Nodup
  own : ∀ x ∈ build.records.flatMap Record.defined ++ build.pending, n ≤ x ∧ x < p.symbols.size
  scope : p.symbols.OwnerIs n build.scope (SourceLine.ownerAfter done)
  labels : ∀ d ∈ SourceLine.declarations done, ∃ x,
    table.find? (Symbol.keyIn source.file hidden d.owner d.name) = some x ∧
      x ∈ build.records.flatMap Record.defined ++ build.pending
  records : ∀ r ∈ build.records, RecordOf source p n r

namespace Built

variable {hidden : List String} {table : SymbolTable} {done : List SourceLine}
  {build build' : Build}

theorem start (names : NamesHidden source n hidden table s.program.symbols) :
    Built source s.program n hidden table [] ⟨[], [], none, .empty⟩ s := by
  refine ⟨⟨.refl _, fun x sym hx found => ?_⟩, by simp, by simp, .inl ⟨rfl, rfl⟩, by simp, by simp⟩
  simp [names.undefined hx found]

/-- The label of the next line is the symbol that its key has in the table. -/
theorem ownLabel (h : Built source p n hidden table done build s)
    (names : NamesHidden source n hidden table p.symbols) {label : Label} {id : SymbolId}
    (simple : Symbol.Simple label.name)
    (run : source.ownLabel table line label build.scope s = .ok id t) :
    s = t ∧ table.find? (Symbol.keyIn source.file hidden
        (if label.isLocal then SourceLine.ownerAfter done else none) label.name) = some id ∧
      (label.isLocal = false → n ≤ id ∧ p.symbols.IsLabel id none label.name) := by
  obtain ⟨resolved, rfl⟩ := ownLabel_eq_ok run
  rw [SymbolStore.resolve_of_unmarked h.session.program.symbols] at resolved
  exact ⟨rfl, names.find?_of_resolve simple h.scope resolved⟩

theorem enterLabel (h : Built source p n hidden table done build s)
    (names : NamesHidden source n hidden table p.symbols) (read : line.statement.WellRead)
    (run : source.enterLabel table line build s = .ok build' t) :
    Built source p n hidden table (done ++ [line]) build' t := by
  rcases enterLabel_eq_ok run with ⟨hLabel, rfl, rfl⟩ | ⟨label, id, hLabel, found, rfl⟩
  · refine ⟨h.session, h.distinct, h.own, ?_, ?_, h.records⟩
    · simpa [SourceLine.ownerAfter_snoc, SourceLine.nextOwner, hLabel] using h.scope
    · simpa [SourceLine.declarations_snoc, SourceLine.declaration?, hLabel] using h.labels
  · obtain ⟨rfl, key, top⟩ := h.ownLabel names (read.label label hLabel) found
    obtain ⟨new, named⟩ := names.lists.sound key
    obtain ⟨sym, hSym⟩ := SymbolStore.exists_get?_of_mangled? named
    refine ⟨h.session, h.distinct, ?_, ?_, ?_, h.records⟩
    · simp only [← List.append_assoc]
      intro x member
      rcases List.mem_append.mp member with before | last
      · exact h.own x before
      · exact List.mem_singleton.mp last ▸ ⟨new, SymbolStore.lt_size_of_get? hSym⟩
    · rw [SourceLine.ownerAfter_snoc]
      simp only [SourceLine.nextOwner, hLabel]
      cases isLocal : label.isLocal with
      | true => exact h.scope
      | false => exact .inr ⟨id, label.name, rfl, rfl, top isLocal⟩
    · rw [SourceLine.declarations_snoc]
      simp only [SourceLine.declaration?, hLabel, Option.map_some, Option.toList_some,
        ← List.append_assoc]
      intro d member
      rcases List.mem_append.mp member with before | last
      · obtain ⟨x, hx, inside⟩ := h.labels d before
        exact ⟨x, hx, List.mem_append_left _ inside⟩
      · rw [List.mem_singleton.mp last]
        exact ⟨id, key, by simp⟩

theorem markFunction (h : Built source p n hidden table done build s)
    (run : source.markFunction line build s = .ok build' t) :
    Built source p n hidden table done build' t := by
  obtain ⟨functions, log, -, rfl, rfl⟩ := markFunction_eq_ok run
  have session := Session.Building.ignoresLog s log h.session
  exact ⟨session, h.distinct, h.own, h.scope, h.labels, h.records⟩

/-- A record binds the labels that wait for it, unless an earlier one has bound them. -/
theorem addRecord_eq (h : Built source p n hidden table done build s) {content : Content}
    (run : source.addRecord line content build s = .ok build' t) :
    ∃ defined, build' = { build with
        records := build.records ++ [⟨source.file, line.number, line.text, build.scope, content,
          defined, none, none⟩]
        pending := [] } ∧
      t.Building p n (build.records.flatMap Record.defined ++ defined) ∧ defined.Nodup ∧
      ∀ x, x ∈ defined ↔ x ∈ build.pending ∧ x ∉ build.records.flatMap Record.defined := by
  obtain ⟨defined, u, bound, last⟩ := bind_eq_ok.mp run
  simp only [pure_apply, EStateM.Result.ok.injEq] at last
  obtain ⟨rfl, rfl⟩ := last
  exact ⟨defined, rfl, h.session.bindSymbols
    (fun x inside => (h.own x (List.mem_append_right _ inside)).1) bound⟩

theorem addRecord (h : Built source p n hidden table done build s) {content : Content}
    (record : ∀ defined, RecordOf source p n
      ⟨source.file, line.number, line.text, build.scope, content, defined, none, none⟩)
    (run : source.addRecord line content build s = .ok build' t) :
    Built source p n hidden table done build' t ∧ build'.pending = [] := by
  obtain ⟨defined, rfl, session, distinct, member⟩ := h.addRecord_eq run
  -- A waiting symbol is left out of `defined` only if an earlier record has bound it.
  have all : ∀ x, x ∈ build.records.flatMap Record.defined ++ defined ↔
      x ∈ build.records.flatMap Record.defined ++ build.pending := by
    intro x
    by_cases before : x ∈ build.records.flatMap Record.defined
    · simp [before]
    · simp [before, member x]
  refine ⟨⟨?_, ?_, ?_, h.scope, ?_, ?_⟩, rfl⟩
  · simpa using session
  · simp only [List.flatMap_append, List.flatMap_cons, List.flatMap_nil, List.append_nil]
    refine List.nodup_append.mpr ⟨h.distinct, distinct, fun x before y inside same => ?_⟩
    exact ((member y).mp inside).2 (same ▸ before)
  · simp only [List.flatMap_append, List.flatMap_cons, List.flatMap_nil, List.append_nil]
    exact fun x inside => h.own x ((all x).mp inside)
  · intro d inside
    obtain ⟨x, key, waits⟩ := h.labels d inside
    refine ⟨x, key, ?_⟩
    simpa using (all x).mpr waits
  · intro r inside
    rcases List.mem_append.mp inside with before | last
    · exact h.records r before
    · rw [List.mem_singleton.mp last]
      exact record defined

theorem step {rest : List SourceLine} (split : source.lines = done ++ line :: rest)
    (h : Built source p n hidden table done build s)
    (names : NamesHidden source n hidden table p.symbols) (read : line.statement.WellRead)
    (run : source.buildLine table build line s = .ok build' t) :
    Built source p n hidden table (done ++ [line]) build' t := by
  obtain ⟨entered, u, hEnter, run₁⟩ := bind_eq_ok.mp run
  obtain ⟨marked, v, hMark, run₂⟩ := bind_eq_ok.mp run₁
  have built := (h.enterLabel names read hEnter).markFunction hMark
  obtain ⟨content?, w, hContent, run₃⟩ := bind_eq_ok.mp run₂
  obtain ⟨session, contentOf⟩ := content?_eq_ok built.session hContent
  have built' : Built source p n hidden table (done ++ [line]) marked w :=
    ⟨session, built.distinct, built.own, built.scope, built.labels, built.records⟩
  cases content? with
  | none =>
    cases run₃
    exact built'
  | some content =>
    refine (built'.addRecord (fun defined => ⟨rfl, rfl, rfl, .inr ?_⟩) run₃).1
    exact ⟨done, line, rest, split, rfl, rfl, built'.scope, contentOf content rfl⟩

theorem closeFunctions {u : Unit} (h : Built source p n hidden table done build s)
    (run : source.closeFunctions build s = .ok u t) :
    Built source p n hidden table done build t := by
  have keeps : Keeps (Session.Building p n (build.records.flatMap Record.defined))
      (source.closeFunctions build) := by
    unfold SourceFile.closeFunctions
    split
    · exact (keeps_line _).bind fun _ => keeps_warn Session.Building.ignoresLog _ _
    · exact .pure _
  have session := ((keeps s h.session).ok run).1
  exact ⟨session, h.distinct, h.own, h.scope, h.labels, h.records⟩

end Built

/-- Labels behind the last record get a record of their own, a mark. -/
theorem closeLabels_eq_ok {build build' : Build}
    (run : source.closeLabels build s = .ok build' t) :
    (build.pending = [] ∧ build' = build ∧ s = t) ∨
      ∃ line, source.addRecord line .mark build s = .ok build' t := by
  unfold closeLabels at run
  cases pending : build.pending with
  | nil =>
    simp only [pending] at run
    cases run
    exact .inl ⟨rfl, rfl, rfl⟩
  | cons first others =>
    simp only [pending] at run
    obtain ⟨sym, u, hSym, last⟩ := bind_eq_ok.mp run
    obtain ⟨-, rfl⟩ := symbol_eq_ok.mp hSym
    obtain ⟨line, u, hLine, added⟩ := bind_eq_ok.mp last
    obtain ⟨-, rfl⟩ := require_eq_ok.mp hLine
    exact .inr ⟨line, added⟩

/-- Build the records of some lines. -/
def buildLines (source : SourceFile) (table : SymbolTable) (lines : List SourceLine) :
    Assembler Build :=
  lines.foldlM (source.buildLine table) ⟨[], [], none, .empty⟩

section BuildLines

variable {hidden : List String} {table : SymbolTable} {before after : List SourceLine}
  {build : Build}

theorem build_eq_bind : source.build table =
    (source.buildLines table source.lines >>= fun build => do
      source.closeFunctions build
      source.closeLabels build) := rfl

/-- If lines can be built, those before any of them can. -/
theorem buildLines_split
    (run : source.buildLines table (before ++ line :: after) s = .ok build t) :
    ∃ first u second v, source.buildLines table before s = .ok first u ∧
      source.buildLine table first line u = .ok second v := by
  unfold buildLines at run ⊢
  rw [List.foldlM_append] at run
  obtain ⟨first, u, hFirst, rest⟩ := bind_eq_ok.mp run
  rw [List.foldlM_cons] at rest
  obtain ⟨second, v, hSecond, -⟩ := bind_eq_ok.mp rest
  exact ⟨first, u, second, v, hFirst, hSecond⟩

theorem built_of_buildLines (names : NamesHidden source n hidden table s.program.symbols)
    (read : source.WellRead) (split : source.lines = before ++ after)
    (run : source.buildLines table before s = .ok build t) :
    Built source s.program n hidden table before build t := by
  refine foldlM_keeps (Built source s.program n hidden table)
    (fun done line rest part a b u v h step => ?_) (Built.start names) run
  have here : source.lines = done ++ line :: (rest ++ after) := by
    rw [split, part, List.append_assoc, List.cons_append]
  exact h.step here names (read.statement line (by simp [here])) step

/-- The records of a file: every label is bound. -/
theorem build_eq_ok (names : NamesHidden source n hidden table s.program.symbols)
    (read : source.WellRead) (run : source.build table s = .ok build t) :
    Built source s.program n hidden table source.lines build t ∧ build.pending = [] := by
  rw [build_eq_bind] at run
  obtain ⟨lines, u, hLines, rest⟩ := bind_eq_ok.mp run
  have built := built_of_buildLines names read (List.append_nil _).symm hLines
  obtain ⟨_, v, functions, closed⟩ := bind_eq_ok.mp rest
  have built' := built.closeFunctions functions
  rcases closeLabels_eq_ok closed with ⟨pending, rfl, rfl⟩ | ⟨line, added⟩
  · exact ⟨built', pending⟩
  · exact built'.addRecord (fun defined => ⟨rfl, rfl, rfl, .inl rfl⟩) added

end BuildLines

end SourceFile

end Dcpu16
