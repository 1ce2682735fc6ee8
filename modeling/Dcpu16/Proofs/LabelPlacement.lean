import Dcpu16.Proofs.Invariant
import Dcpu16.Proofs.Scoping
import Mathlib.Data.List.Find

/-! No label is lost, doubled or misplaced.  A label of a line is found again as the symbol that its
first occurrence has made, and this symbol is bound to one record: the first instruction or data at
or below that occurrence, or the mark behind the last. -/

namespace Dcpu16

open Assembler

/-- Does the line stand for a record? -/
def SourceLine.isCode (line : SourceLine) : Bool :=
  match line.statement.body with
  | .instruction _ _ => true
  | .directive d _ => d.isData
  | .empty | .unknown _ => false

/-- Is the record an instruction or data? -/
def Record.isCode (r : Record) : Bool :=
  match r.content with
  | .operation _ | .data _ => true
  | .mark => false

namespace SourceFile

variable {source : SourceFile} {p : Program} {n : Nat} {hidden : List String} {table : SymbolTable}
  {done rest : List SourceLine} {line : SourceLine} {label : Label} {build build' : Build}
  {s t : Session} {x : SymbolId}

theorem isSome_content? {scope : Option SymbolId} {content? : Option Content}
    (run : source.content? line scope s = .ok content? t) :
    content?.isSome = line.isCode ∧ content? ≠ some .mark := by
  unfold SourceFile.content? at run
  unfold SourceLine.isCode
  cases body : line.statement.body with
  | empty =>
    simp only [body] at run
    cases run
    exact ⟨rfl, by simp⟩
  | unknown token =>
    simp only [body] at run
    cases run
    exact ⟨rfl, by simp⟩
  | instruction op written =>
    simp only [body] at run
    obtain ⟨operands, u, -, last⟩ := bind_eq_ok.mp run
    cases last
    exact ⟨rfl, by simp⟩
  | directive d rest =>
    simp only [body] at run
    cases isData : d.isData with
    | true =>
      rw [if_pos isData] at run
      obtain ⟨words, u, -, last⟩ := bind_eq_ok.mp run
      cases last
      exact ⟨isData.symm, by simp⟩
    | false =>
      rw [if_neg (by simp [isData])] at run
      cases run
      exact ⟨isData.symm, by simp⟩

theorem WellRead.number_eq (read : source.WellRead) (split : source.lines = done ++ line :: rest) :
    line.number = done.length :=
  read.number (by simp [split])

theorem WellRead.number_lt (read : source.WellRead) (split : source.lines = done ++ rest)
    (member : line ∈ done) : line.number < done.length := by
  obtain ⟨i, inside, rfl⟩ := List.getElem_of_mem member
  have here : source.lines[i]? = some done[i] := by
    rw [split, List.getElem?_append_left inside, List.getElem?_eq_getElem inside]
  rw [read.number here]
  exact inside

/-! ### The symbol of a label -/

/-- Every key of a label has the symbol of the label. -/
def Keyed (source : SourceFile) (n : Nat) (hidden : List String) (table : SymbolTable)
    (symbols : SymbolStore) : Prop :=
  ∀ ⦃x : Nat⦄ ⦃owner : Option String⦄ ⦃name : String⦄, n ≤ x → symbols.IsLabel x owner name →
    table.find? (Symbol.keyIn source.file hidden owner name) = some x

section Label

variable (names : NamesHidden source n hidden table p.symbols)
  (keyed : Keyed source n hidden table p.symbols)
  (built : Built source p n hidden table done build s)
  (split : source.lines = done ++ line :: rest) (hLabel : line.statement.label = some label)
include names keyed built split hLabel

theorem isLabel_of_ownLabel (simple : Symbol.Simple label.name)
    (run : source.ownLabel table line label build.scope s = .ok x t) :
    s = t ∧ n ≤ x ∧
      p.symbols.IsLabel x (if label.isLocal then SourceLine.ownerAfter done else none)
        label.name := by
  obtain ⟨same, key, -⟩ := built.ownLabel names simple run
  have declared := SourceLine.declarations_split done line rest
  rw [← split] at declared
  simp only [SourceLine.declaration?, hLabel, Option.map_some, Option.toList_some] at declared
  obtain ⟨y, new, isLabel⟩ := names.declared.label
    ⟨if label.isLocal then SourceLine.ownerAfter done else none, label.name, line.number⟩
    (by simp [declared])
  obtain rfl : y = x := Option.some.inj ((keyed new isLabel).symm.trans key)
  exact ⟨same, new, isLabel⟩

/-- A label that no record has bound and that does not wait yet has its first occurrence here. -/
theorem place_of_ownLabel (simple : Symbol.Simple label.name)
    (run : source.ownLabel table line label build.scope s = .ok x t)
    (first : x ∉ build.records.flatMap Record.defined ++ build.pending) :
    ∃ sym, p.symbols.get? x = some sym ∧ sym.place.line = line.number := by
  obtain ⟨-, new, isLabel⟩ := isLabel_of_ownLabel names keyed built split hLabel simple run
  obtain ⟨-, key, -⟩ := built.ownLabel names simple run
  obtain ⟨sym, found, hName, hOwner⟩ := isLabel
  obtain ⟨d, hFirst, place⟩ := names.declared.place new found
  have earlier : (SourceLine.declarations done).find? (fun d =>
      d.owner = p.symbols.ownerName sym ∧ d.name = sym.name) = none := by
    rw [List.find?_eq_none]
    intro d member same
    simp only [decide_eq_true_eq] at same
    obtain ⟨y, hy, known⟩ := built.labels d member
    rw [same.1, same.2, hName, hOwner, key] at hy
    exact first (Option.some.inj hy ▸ known)
  rw [split, SourceLine.declarations_split, List.find?_append, earlier] at hFirst
  simp only [SourceLine.declaration?, hLabel, Option.map_some, Option.toList_some, Option.none_or,
    List.cons_append, List.nil_append, List.find?_cons, hOwner, hName, and_self, decide_true,
    Option.some.injEq] at hFirst
  exact ⟨sym, found, by rw [place, ← hFirst]⟩

end Label

/-! ### Records and waiting labels -/

/-- A symbol that waits comes from one of the first `count` lines and is below all records. -/
def Waiting (p : Program) (count : Nat) (build : Build) : Prop :=
  ∀ x ∈ build.pending, x ∉ build.records.flatMap Record.defined →
    ∃ sym, p.symbols.get? x = some sym ∧ sym.place.line < count ∧
      ∀ r ∈ build.records, r.line < sym.place.line

/-- The records are those of the lines so far, and a symbol is bound to the first record that is not
above the line of the symbol. -/
structure InPlace (p : Program) (done : List SourceLine) (build : Build) : Prop where
  lines : build.records.map Record.line = (done.filter SourceLine.isCode).map SourceLine.number
  code : ∀ r ∈ build.records, r.isCode
  holder : ∀ r ∈ build.records, ∀ x ∈ r.defined, ∃ sym, p.symbols.get? x = some sym ∧
    build.records.find? (fun r => sym.place.line ≤ r.line) = some r
  waiting : Waiting p done.length build

namespace InPlace

theorem start (p : Program) : InPlace p [] ⟨[], [], none, .empty⟩ :=
  ⟨rfl, by simp, by simp, by simp [Waiting]⟩

theorem line_lt (h : InPlace p done build) (read : source.WellRead)
    (split : source.lines = done ++ rest) : ∀ r ∈ build.records, r.line < done.length := by
  intro r member
  have listed : r.line ∈ build.records.map Record.line := List.mem_map_of_mem member
  rw [h.lines] at listed
  obtain ⟨line, inside, same⟩ := List.mem_map.mp listed
  rw [← same]
  exact read.number_lt split (List.mem_filter.mp inside).1

theorem enterLabel (h : InPlace p done build) (read : source.WellRead)
    (names : NamesHidden source n hidden table p.symbols)
    (keyed : Keyed source n hidden table p.symbols)
    (built : Built source p n hidden table done build s)
    (split : source.lines = done ++ line :: rest)
    (run : source.enterLabel table line build s = .ok build' t) :
    build'.records = build.records ∧ Waiting p (done.length + 1) build' := by
  have before : Waiting p (done.length + 1) build := by
    intro x waits free
    obtain ⟨sym, found, above, below⟩ := h.waiting x waits free
    exact ⟨sym, found, Nat.lt_succ_of_lt above, below⟩
  rcases enterLabel_eq_ok run with ⟨-, rfl, -⟩ | ⟨label, id, hLabel, own, rfl⟩
  · exact ⟨rfl, before⟩
  · refine ⟨rfl, fun x waits free => ?_⟩
    by_cases already : x ∈ build.pending
    · exact before x already free
    · -- Nothing holds the symbol yet, so this line has made it, and all records are above.
      obtain rfl : x = id := by
        rcases List.mem_append.mp waits with old | new
        · exact absurd old already
        · exact List.mem_singleton.mp new
      have simple := (read.statement line (by simp [split])).label label hLabel
      obtain ⟨sym, found, place⟩ := place_of_ownLabel names keyed built split hLabel simple own
        (by simp only [List.mem_append, not_or]; exact ⟨free, already⟩)
      rw [read.number_eq split] at place
      refine ⟨sym, found, by omega, fun r member => ?_⟩
      rw [place]
      exact h.line_lt read split r member

theorem find?_addRecord {records : List Record} {place : Nat} {r : Record}
    (below : ∀ r ∈ records, r.line < place) (above : place ≤ r.line) :
    (records ++ [r]).find? (fun r => place ≤ r.line) = some r := by
  have none : records.find? (fun r => place ≤ r.line) = none := by
    rw [List.find?_eq_none]
    intro r member
    simpa using below r member
  simp [List.find?_append, none, above]

theorem skip (h : InPlace p done build) (same : build'.records = build.records)
    (waiting : Waiting p (done.length + 1) build') (notCode : line.isCode = false) :
    InPlace p (done ++ [line]) build' := by
  refine ⟨?_, ?_, ?_, ?_⟩
  · simpa [same, List.filter_append, notCode] using h.lines
  · simpa [same] using h.code
  · simpa [same] using h.holder
  · simpa using waiting

/-- A record for the line takes symbols that wait. -/
theorem addRecord (h : InPlace p done build) (same : build'.records = build.records)
    (waiting : Waiting p (done.length + 1) build') (number : line.number = done.length)
    (isCode : line.isCode = true) {after : Build} {r : Record}
    (records : after.records = build'.records ++ [r]) (pending : after.pending = [])
    (here : r.line = line.number) (code : r.isCode = true)
    (takes : ∀ x ∈ r.defined, x ∈ build'.pending ∧ x ∉ build'.records.flatMap Record.defined) :
    InPlace p (done ++ [line]) after := by
  refine ⟨?_, ?_, ?_, by simp [Waiting, pending]⟩
  all_goals rw [records]
  · simp [same, List.filter_append, isCode, h.lines, here]
  · intro r' inside
    rcases List.mem_append.mp inside with old | new
    · exact h.code r' (same ▸ old)
    · rw [List.mem_singleton.mp new, code]
  · intro r' inside x bound
    rcases List.mem_append.mp inside with old | new
    · obtain ⟨sym, found, first⟩ := h.holder r' (same ▸ old) x bound
      exact ⟨sym, found, by rw [List.find?_append, same, first]; rfl⟩
    · obtain rfl := List.mem_singleton.mp new
      obtain ⟨waits, free⟩ := takes x bound
      obtain ⟨sym, found, above, below⟩ := waiting x waits free
      exact ⟨sym, found, find?_addRecord below (by omega)⟩

theorem step (h : InPlace p done build) (read : source.WellRead)
    (names : NamesHidden source n hidden table p.symbols)
    (keyed : Keyed source n hidden table p.symbols)
    (built : Built source p n hidden table done build s)
    (split : source.lines = done ++ line :: rest)
    (run : source.buildLine table build line s = .ok build' t) :
    InPlace p (done ++ [line]) build' := by
  obtain ⟨entered, u, hEnter, run₁⟩ := bind_eq_ok.mp run
  obtain ⟨records, waiting⟩ := h.enterLabel read names keyed built split hEnter
  have built₁ := built.enterLabel names (read.statement line (by simp [split])) hEnter
  obtain ⟨marked, v, hMark, run₂⟩ := bind_eq_ok.mp run₁
  have built₂ := built₁.markFunction hMark
  obtain ⟨functions, log, -, rfl, -⟩ := markFunction_eq_ok hMark
  obtain ⟨content?, w, hContent, run₃⟩ := bind_eq_ok.mp run₂
  obtain ⟨session, -⟩ := content?_eq_ok built₂.session hContent
  have built₃ : Built source p n hidden table (done ++ [line]) { entered with functions } w :=
    ⟨session, built₂.distinct, built₂.own, built₂.scope, built₂.labels, built₂.records⟩
  obtain ⟨isCode, notMark⟩ := isSome_content? hContent
  cases content? with
  | none =>
    cases run₃
    exact h.skip records waiting isCode.symm
  | some content =>
    obtain ⟨defined, rfl, -, -, member⟩ := built₃.addRecord_eq run₃
    refine h.addRecord records waiting (read.number_eq split) isCode.symm rfl rfl rfl ?_
      fun x => (member x).mp
    cases content with
    | mark => exact absurd rfl notMark
    | _ => rfl

end InPlace

theorem inPlace_of_buildLines {after : List SourceLine} (read : source.WellRead)
    (names : NamesHidden source n hidden table s.program.symbols)
    (keyed : Keyed source n hidden table s.program.symbols) (split : source.lines = done ++ after)
    (run : source.buildLines table done s = .ok build t) :
    Built source s.program n hidden table done build t ∧ InPlace s.program done build := by
  refine foldlM_keeps (fun done build t => Built source s.program n hidden table done build t ∧
      InPlace s.program done build) (fun done line rest part a b u v h step => ?_)
    ⟨Built.start names, .start _⟩ run
  have here : source.lines = done ++ line :: (rest ++ after) := by
    rw [split, part, List.append_assoc, List.cons_append]
  have statement := read.statement line (by simp [here])
  exact ⟨h.1.step here names statement step, h.2.step read names keyed h.1 here step⟩

end SourceFile

namespace ObjectFile

variable {options : Options} {file text : String} {o : ObjectFile} {s t u : Session}
  {build : SourceFile.Build}

/-- The record for labels of a line: the first instruction or data that is not above the line, or
the mark behind the last. -/
def Holds (o : ObjectFile) (line : Nat) (r : Record) : Prop :=
  match o.records.find? fun r => r.isCode && line ≤ r.line with
  | some first => r = first
  | none => r.content = .mark ∧ o.records.getLast? = some r

/-- The file has taken the program from `p` to `q`, and every symbol that it has made is bound to
the record for its first label. -/
structure LabelsPlaced (o : ObjectFile) (p q : Program) : Prop where
  once : ∀ x : Nat, (o.records.flatMap Record.defined).count x =
    if p.symbols.size ≤ x ∧ x < q.symbols.size then 1 else 0
  code : (o.records.filter Record.isCode).map Record.line =
    (o.lines.filter SourceLine.isCode).map SourceLine.number
  holder : ∀ r ∈ o.records, ∀ x ∈ r.defined, ∃ sym d, q.symbols.get? x = some sym ∧
    (SourceLine.declarations o.lines).find? (fun d =>
      d.owner = q.symbols.ownerName sym ∧ d.name = sym.name) = some d ∧ o.Holds d.line r

/-- The records of the file are built in `u`, and the label of a line is found there as the symbol
that its first occurrence in the file has made. -/
def LabelsFound (o : ObjectFile) (s u t : Session) : Prop :=
  ∀ before line after label, o.lines = before ++ line :: after →
    line.statement.label = some label → ∃ build v x,
      o.source.buildLines o.table before u = .ok build v ∧
      o.source.ownLabel o.table line label build.scope v = .ok x v ∧
      s.program.symbols.size ≤ x ∧
      o.LabelIs t.program.symbols
        (if label.isLocal then SourceLine.ownerAfter before else none) label.name x

namespace Stages

theorem keyed (h : o.Stages options text s u t build) :
    SourceFile.Keyed o.source s.program.symbols.size o.hiddenNames o.table u.program.symbols :=
  fun _ _ _ => h.find?_keyIn

/-- The records of the lines, and then perhaps a mark for the labels behind them. -/
theorem records_cases (h : o.Stages options text s u t build) :
    ∃ lines, SourceFile.InPlace u.program o.lines lines ∧
      (o.records = lines.records ∨ ∃ mark, o.records = lines.records ++ [mark] ∧
        mark.content = .mark ∧
        ∀ x ∈ mark.defined, x ∈ lines.pending ∧ x ∉ lines.records.flatMap Record.defined) := by
  have run := h.run
  rw [SourceFile.build_eq_bind] at run
  obtain ⟨lines, v, hLines, rest⟩ := bind_eq_ok.mp run
  have whole : o.source.lines = o.lines ++ [] := (List.append_nil _).symm
  obtain ⟨built, inPlace⟩ := SourceFile.inPlace_of_buildLines h.wellRead h.declared.names h.keyed
    whole hLines
  refine ⟨lines, inPlace, ?_⟩
  obtain ⟨_, w, functions, closed⟩ := bind_eq_ok.mp rest
  rcases SourceFile.closeLabels_eq_ok closed with ⟨-, rfl, -⟩ | ⟨line, added⟩
  · exact .inl h.records
  · obtain ⟨defined, rfl, -, -, member⟩ := (built.closeFunctions functions).addRecord_eq added
    exact .inr ⟨_, h.records, rfl, fun x => (member x).mp⟩

theorem code_eq (h : o.Stages options text s u t build) :
    (o.records.filter Record.isCode).map Record.line =
      (o.lines.filter SourceLine.isCode).map SourceLine.number := by
  obtain ⟨lines, inPlace, records⟩ := h.records_cases
  have code : lines.records.filter Record.isCode = lines.records :=
    List.filter_eq_self.mpr inPlace.code
  rw [← inPlace.lines]
  rcases records with same | ⟨mark, same, isMark, -⟩
  · rw [same, code]
  · have notCode : mark.isCode = false := by rw [Record.isCode, isMark]
    rw [same, List.filter_append, code]
    simp [notCode]

/-- A symbol is bound to the record for the line where it was made. -/
theorem holds (h : o.Stages options text s u t build) {r : Record} (member : r ∈ o.records)
    {x : SymbolId} (bound : x ∈ r.defined) :
    ∃ sym, u.program.symbols.get? x = some sym ∧ o.Holds sym.place.line r := by
  obtain ⟨lines, inPlace, records⟩ := h.records_cases
  -- Among the records of the lines, being code says nothing.
  have code (line : Nat) : lines.records.find? (fun r => r.isCode && decide (line ≤ r.line)) =
      lines.records.find? fun r => line ≤ r.line := by
    refine List.find?_congr fun r member => ?_
    rw [inPlace.code r member, Bool.true_and]
  have early {sym : Symbol} (inside : r ∈ lines.records)
      (first : lines.records.find? (fun r => sym.place.line ≤ r.line) = some r)
      (more : List Record) (same : o.records = lines.records ++ more) :
      o.Holds sym.place.line r := by
    unfold Holds
    rw [same, List.find?_append, code, first]
    rfl
  rcases records with same | ⟨mark, same, isMark, waits⟩
  · rw [same] at member
    obtain ⟨sym, found, first⟩ := inPlace.holder r member x bound
    exact ⟨sym, found, early member first [] (by simpa using same)⟩
  · rw [same, List.mem_append, List.mem_singleton] at member
    rcases member with inside | rfl
    · obtain ⟨sym, found, first⟩ := inPlace.holder r inside x bound
      exact ⟨sym, found, early inside first [mark] same⟩
    · obtain ⟨pending, free⟩ := waits x bound
      obtain ⟨sym, found, -, below⟩ := inPlace.waiting x pending free
      refine ⟨sym, found, ?_⟩
      have none : lines.records.find? (fun r => decide (sym.place.line ≤ r.line)) = none := by
        rw [List.find?_eq_none]
        intro r inside
        simpa using below r inside
      have notCode : r.isCode = false := by rw [Record.isCode, isMark]
      unfold Holds
      rw [same, List.find?_append, code, none]
      simp [notCode, isMark]

end Stages

theorem Made.count_bound {p q : Program} (made : o.Made p q) (x : Nat) :
    (o.records.flatMap Record.defined).count x =
      if p.symbols.size ≤ x ∧ x < q.symbols.size then 1 else 0 := by
  rw [made.bound.count]
  simp only [made.mem_bound x]

theorem Stages.labelsFound (h : o.Stages options text s u t build)
    (made : o.Made s.program t.program) : o.LabelsFound s u t := by
  intro before line after label split hLabel
  have names := h.declared.names
  obtain ⟨first, w, second, _, hFirst, hLine, built⟩ := h.reaches split
  obtain ⟨entered, _, hEnter, -⟩ := bind_eq_ok.mp hLine
  rcases SourceFile.enterLabel_eq_ok hEnter with ⟨none, -⟩ | ⟨label', x, hLabel', own, -⟩
  · cases hLabel.symm.trans none
  obtain rfl : label' = label := Option.some.inj (hLabel'.symm.trans hLabel)
  have simple := (h.wellRead.statement line (by simp [source, split])).label label' hLabel
  obtain ⟨rfl, new, isLabel⟩ :=
    SourceFile.isLabel_of_ownLabel names h.keyed built split hLabel simple own
  have labelName := names.linked.labelName new isLabel
  exact ⟨first, w, x, hFirst, own, new, made.labelIs labelName
    (fun x sym found => ⟨sym, found, rfl⟩) (h.find?_keyIn new isLabel)⟩

theorem Stages.labelsPlaced (h : o.Stages options text s u t build)
    (made : o.Made s.program t.program) : o.LabelsPlaced s.program t.program := by
  obtain ⟨built, -⟩ := h.built
  have same : u.program.symbols.SameOrigins t.program.symbols :=
    .of_unmarked built.session.program.symbols
  refine ⟨made.count_bound, h.code_eq, fun r member x bound => ?_⟩
  obtain ⟨sym, found, holds⟩ := h.holds member bound
  obtain ⟨later, hLater, -, place, -⟩ := same.symm.get? found
  obtain ⟨new, -⟩ := (made.mem_bound x).mp (List.mem_flatMap.mpr ⟨r, member, bound⟩)
  obtain ⟨d, first, hPlace⟩ := made.declared.place new hLater
  rw [place, hPlace] at holds
  exact ⟨later, d, hLater, first, holds⟩

/-- No label of a file that has been assembled is lost, doubled or misplaced, whatever program the
file has been added to. -/
theorem labels_of_assemble (run : assemble options file text s = .ok o t) :
    o.file = file ∧ o.LabelsPlaced s.program t.program ∧
      ∃ u, o.BuiltIn options text s u ∧ o.LabelsFound s u t := by
  obtain ⟨hFile, made⟩ := made_of_assemble run
  obtain ⟨-, u, build, stages⟩ := stages_of_assemble run
  exact ⟨hFile, stages.labelsPlaced made, u, stages.builtIn, stages.labelsFound made⟩

/-- Two labels for one record, a hidden label that is declared three times, a local one that is
declared twice, and labels behind the last instruction. -/
theorem labels_second_file :
    let s := Session.empty.after [⟨{}, "a.s", ":main set a, 1\n:.loop set a, 2"⟩]
    let job : Job := ⟨{}, "b.s", ".hidden work\n:main\n:work set x, 1\n:.loop\n.text\n" ++
      ":work set x, 2\n:.loop set pc, .loop\n:tail .func tail\n:work\n:last"⟩
    ∃ o, assemble job.options job.file job.text s = .ok o (s.next job) ∧
      o.records.map (fun r => (r.line, r.defined)) =
        [(2, [2, 3]), (5, [4]), (6, []), (7, [5, 6])] ∧
      o.file = job.file ∧ o.LabelsPlaced s.program (s.next job).program ∧
      ∃ u, o.BuiltIn job.options job.text s u ∧ o.LabelsFound s u (s.next job) := by
  intro s job
  have evaluated : (job.object? s).map (fun o => o.records.map fun r => (r.line, r.defined)) =
      some [(2, [2, 3]), (5, [4]), (6, []), (7, [5, 6])] := by
    decide +kernel
  obtain ⟨o, present, records⟩ := Option.map_eq_some_iff.mp evaluated
  have run := Job.assemble_of_object? present
  exact ⟨o, run, records, labels_of_assemble run⟩

end ObjectFile

end Dcpu16
