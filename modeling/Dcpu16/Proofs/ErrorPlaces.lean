import Dcpu16.Proofs.KeepGoing
import Dcpu16.Proofs.Stopping

/-! Where errors point.  An error that a file, the link or a record ends with has the place of a
source line and shows the line as it stands there; only the jump to the entry, which the linker
adds, is nowhere in the sources. -/

namespace Dcpu16

open Assembler

/-- The error is about a line of a file with this text, and shows that line. -/
structure LocatedError.PointsInto (e : LocatedError) (file text : String) : Prop where
  file : e.file = file
  line : e.line < (Text.lines text.toList).length
  text : (Text.lines text.toList)[e.line]? = some e.text.toList

/-- The error is about the jump to the entry, which is all that the linker adds with a text, and
shows this jump. -/
structure LocatedError.PointsAtJump (e : LocatedError) (entry : String) : Prop where
  file : e.file = Image.linkerFile
  line : e.line = 0
  text : e.text = "set pc, " ++ entry

/-- The error is about the jump to the entry, or about a line of a source. -/
def LocatedError.PointsAt (e : LocatedError) (entry : Option String)
    (sources : List (String × String)) : Prop :=
  (∃ name ∈ entry, e.PointsAtJump name) ∨ ∃ source ∈ sources, e.PointsInto source.1 source.2

/-! ### Lines -/

namespace SourceFile

variable {source : SourceFile} {policy : Redefinition} {file text : String} {s t : Session}
  {e : LocatedError}

theorem readLine_ok {number : Nat} {line : SourceLine}
    (run : readLine file text number s = .ok line t) :
    line.text = text ∧ Statement.parse (Text.tidy text.toList) = .ok line.statement := by
  rcases readLine_cases file text number s with ⟨_, -, failed⟩ | ⟨statement, _, parsed, made⟩
  · cases failed.symm.trans run
  · cases made.symm.trans run
    exact ⟨rfl, parsed⟩

theorem readLine_eq_error {number : Nat} {stop : Stop LocatedError}
    (run : readLine file text number s = .error stop t) :
    ∃ cause, Statement.parse (Text.tidy text.toList) = .error cause ∧
      stop = .error ⟨cause, file, number, text⟩ := by
  rcases readLine_cases file text number s with ⟨cause, parsed, failed⟩ | ⟨_, _, -, made⟩
  · cases failed.symm.trans run
    exact ⟨cause, parsed, rfl⟩
  · cases made.symm.trans run

/-- The lines of a file are those of its text, each with the statement that it holds. -/
theorem lines_of_read (run : read file text s = .ok source t) :
    source.file = file ∧ source.lines.map (fun line => line.text.toList) = Text.lines text.toList ∧
      List.Forall₂ (fun raw (line : SourceLine) =>
        Statement.parse (Text.tidy raw) = .ok line.statement) (Text.lines text.toList)
        source.lines := by
  obtain ⟨lines, _, made, last⟩ := bind_eq_ok.mp run
  cases last
  obtain ⟨-, each⟩ := mapM_keeps (fun _ => True)
    (R := fun text line => line.text = text.1 ∧
      Statement.parse (Text.tidy text.1.toList) = .ok line.statement)
    (fun text _ line u v _ step => ⟨trivial, readLine_ok step⟩) trivial made
  have texts : List.Forall₂ (fun (text : String) (line : SourceLine) => line.text = text ∧
      Statement.parse (Text.tidy text.toList) = .ok line.statement)
      (((Text.lines text.toList).map String.ofList).zipIdx.map Prod.fst) lines :=
    List.forall₂_map_left_iff.mpr each
  rw [List.zipIdx_map_fst, List.forall₂_map_left_iff] at texts
  refine ⟨rfl, ?_, texts.imp fun raw line here => ?_⟩
  · have same := Runs.map_eq_of_forall₂ (f := id) (g := fun line => line.text.toList) texts
      fun raw line here => by simp [here.1]
    simpa using same.symm
  · simpa using here.2

/-- An error in a line of a file points into its text. -/
theorem pointsInto_locate (run : read file text s = .ok source t) {line : SourceLine}
    (member : line ∈ source.lines) (cause : AsmError) :
    (source.locate line cause).PointsInto file text := by
  obtain ⟨rfl, texts, -⟩ := lines_of_read run
  obtain ⟨i, inside, rfl⟩ := List.getElem_of_mem member
  have number : source.lines[i].number = i :=
    (read_eq_ok run).2.number (List.getElem?_eq_getElem inside)
  have shown : (Text.lines text.toList)[i]? = some source.lines[i].text.toList := by
    rw [← texts, List.getElem?_map, List.getElem?_eq_getElem inside, Option.map_some]
  have here : (source.locate source.lines[i] cause).line = i := number
  refine ⟨rfl, ?_, ?_⟩
  · rw [here]
    exact (List.getElem?_eq_some_iff.mp shown).1
  · rw [here]
    exact shown

/-- A file that cannot be read has a line that cannot. -/
theorem exists_line_of_read {stop : Stop LocatedError} (run : read file text s = .error stop t) :
    ∃ raw number cause, (Text.lines text.toList)[number]? = some raw ∧
      Statement.parse (Text.tidy raw) = .error cause ∧
      stop = .error ⟨cause, file, number, String.ofList raw⟩ := by
  rcases bind_eq_error.mp run with failed | ⟨_, _, -, last⟩
  swap
  · cases last
  obtain ⟨before, ⟨shown, number⟩, after, _, u, split, -, stops⟩ := mapM_eq_error failed
  have member : (shown, number) ∈ ((Text.lines text.toList).map String.ofList).zipIdx := by
    rw [split]
    simp
  rw [List.mk_mem_zipIdx_iff_getElem?, List.getElem?_map, Option.map_eq_some_iff] at member
  obtain ⟨raw, found, rfl⟩ := member
  obtain ⟨cause, parsed, rfl⟩ := readLine_eq_error stops
  exact ⟨raw, number, cause, found, by simpa using parsed, rfl⟩

theorem pointsInto_of_read (run : read file text s = .error (.error e) t) :
    e.PointsInto file text := by
  obtain ⟨raw, number, cause, found, -, same⟩ := exists_line_of_read run
  cases same
  exact ⟨rfl, (List.getElem?_eq_some_iff.mp found).1, by simpa using found⟩

theorem Stops.exists_line (h : source.Stops policy (.error e)) :
    ∃ line ∈ source.lines, ∃ cause, e = source.locate line cause := by
  generalize stopped : Stop.error e = stop at h
  cases h with
  | missing missing => rcases missing with rfl | rfl <;> cases stopped
  | orphan split =>
    cases stopped
    exact ⟨_, by simp [split], _, rfl⟩
  | redefined name member =>
    cases stopped
    exact ⟨_, member, _, rfl⟩
  | @data line d rest stop member =>
    cases stop with
    | error cause =>
      cases stopped
      exact ⟨line, member, cause, rfl⟩
    | fault f => cases stopped
  | veiled split =>
    cases stopped
    exact ⟨_, by simp [split], _, rfl⟩

end SourceFile

/-- A file that cannot be assembled fails at one of its lines. -/
theorem ObjectFile.pointsInto_of_assemble {options : Options} {file text : String} {s t : Session}
    {e : LocatedError} (run : assemble options file text s = .error (.error e) t) :
    e.PointsInto file text := by
  rcases stops_of_assemble run with failed | ⟨source, r, read, stops⟩
  · exact SourceFile.pointsInto_of_read failed
  · obtain ⟨line, member, cause, rfl⟩ := stops.exists_line
    exact SourceFile.pointsInto_locate read member cause

/-! ### Records -/

/-- The record stands for a line of the file. -/
def Record.IsAt (r : Record) (source : SourceFile) : Prop :=
  ∃ line ∈ source.lines, ∀ cause, r.locate cause = source.locate line cause

namespace SourceFile

variable {source : SourceFile} {build build' : Build} {line : SourceLine} {table : SymbolTable}
  {s t : Session}

theorem isAt_of_addRecord {content : Content} (each : ∀ r ∈ build.records, r.IsAt source)
    (member : line ∈ source.lines) (run : source.addRecord line content build s = .ok build' t) :
    ∀ r ∈ build'.records, r.IsAt source := by
  obtain ⟨defined, u, -, last⟩ := bind_eq_ok.mp run
  cases last
  intro r inside
  rcases List.mem_append.mp inside with before | here
  · exact each r before
  · rw [List.mem_singleton.mp here]
    exact ⟨line, member, fun _ => rfl⟩

theorem isAt_of_buildLine (each : ∀ r ∈ build.records, r.IsAt source)
    (member : line ∈ source.lines) (run : source.buildLine table build line s = .ok build' t) :
    ∀ r ∈ build'.records, r.IsAt source := by
  obtain ⟨entered, u, hEnter, rest⟩ := bind_eq_ok.mp run
  obtain ⟨marked, v, hMark, rest⟩ := bind_eq_ok.mp rest
  obtain ⟨content?, w, -, rest⟩ := bind_eq_ok.mp rest
  have same : marked.records = build.records := by
    obtain ⟨_, _, -, rfl, -⟩ := markFunction_eq_ok hMark
    rcases enterLabel_eq_ok hEnter with ⟨-, rfl, -⟩ | ⟨_, _, -, -, rfl⟩
    · rfl
    · rfl
  rw [← same] at each
  cases content? with
  | none =>
    cases rest
    exact each
  | some content => exact isAt_of_addRecord each member rest

/-- Every record of a file stands for one of its lines, also the mark for the labels at its end. -/
theorem isAt_of_build (run : source.build table s = .ok build t) :
    ∀ r ∈ build.records, r.IsAt source := by
  rw [build_eq_bind] at run
  obtain ⟨lines, u, hLines, rest⟩ := bind_eq_ok.mp run
  have each : ∀ r ∈ lines.records, r.IsAt source := by
    refine foldlM_keeps (fun _ build _ => ∀ r ∈ build.records, r.IsAt source)
      (fun done line rest split _ _ _ _ before step => ?_) (by simp) hLines
    exact isAt_of_buildLine before (by simp [split]) step
  obtain ⟨_, v, -, closed⟩ := bind_eq_ok.mp rest
  unfold closeLabels at closed
  cases pending : lines.pending with
  | nil =>
    simp only [pending] at closed
    cases closed
    exact each
  | cons first others =>
    simp only [pending] at closed
    obtain ⟨sym, w, -, rest⟩ := bind_eq_ok.mp closed
    obtain ⟨line, x, hLine, added⟩ := bind_eq_ok.mp rest
    exact isAt_of_addRecord each (List.mem_of_getElem? (require_eq_ok.mp hLine).1) added

end SourceFile

/-- A record of a file points into its text. -/
theorem ObjectFile.pointsInto_of_mem {options : Options} {file text : String} {s t : Session}
    {o : ObjectFile} (run : assemble options file text s = .ok o t) {r : Record}
    (member : r ∈ o.records) (cause : AsmError) : (r.locate cause).PointsInto file text := by
  obtain ⟨rfl, u, build, stages⟩ := stages_of_assemble run
  obtain ⟨read, hRead, -⟩ := stages.builtIn
  rw [stages.records] at member
  obtain ⟨line, inside, same⟩ := SourceFile.isAt_of_build stages.run r member
  rw [same]
  exact SourceFile.pointsInto_locate hRead inside cause

namespace Record

variable {P : LocatedError → Prop} {rs : List Record} {program : Program} {keepGoing : Bool}

theorem endFrom_eq_error {r : Record} {address : Nat} {e : LocatedError}
    (h : r.endFrom address = .error (.error e)) : ∃ cause, e = r.locate cause := by
  unfold endFrom at h
  split at h
  · cases h
    exact ⟨_, rfl⟩
  · split at h
    · cases h
    · split at h
      · cases h
        exact ⟨_, rfl⟩
      · cases h

/-- Placing records leaves them at their lines, and it fails at one of them. -/
theorem placeAll_points (symbols : SymbolStore) (address : Nat)
    (each : ∀ r ∈ rs, ∀ cause, P (r.locate cause)) :
    (∀ e, (placeAll symbols address rs).result = .error (.error e) → P e) ∧
      ∀ r ∈ (placeAll symbols address rs).records, ∀ cause, P (r.locate cause) := by
  induction rs generalizing symbols address with
  | nil => simp [placeAll]
  | cons r rs ih =>
    obtain ⟨here, later⟩ := List.forall_mem_cons.mp each
    unfold placeAll
    split
    · next stop failed =>
      refine ⟨fun e stopped => ?_, each⟩
      cases stopped
      obtain ⟨cause, rfl⟩ := endFrom_eq_error failed
      exact here cause
    · split
      · exact ⟨by simp, each⟩
      · next placed _ done =>
        obtain ⟨rfl, -⟩ := placeAt?_eq_some done
        obtain ⟨fails, left⟩ := ih _ _ later
        exact ⟨fails, List.forall_mem_cons.mpr ⟨here, left⟩⟩

/-- Making the words of records fails at one of them, and what is reported is about them. -/
theorem fillAll_points (each : ∀ r ∈ rs, ∀ cause, P (r.locate cause)) :
    (∀ e, (fillAll program keepGoing rs).result = .error (.error e) → P e) ∧
      ∀ d ∈ (fillAll program keepGoing rs).log, ∃ e, d = .ofError e ∧ P e := by
  induction rs with
  | nil => simp [fillAll]
  | cons r rs ih =>
    obtain ⟨here, later⟩ := List.forall_mem_cons.mp each
    obtain ⟨fails, reports⟩ := ih later
    unfold fillAll
    dsimp only
    split
    · exact ⟨fails, reports⟩
    · simp
    · split
      · split
        · simp
        · exact ⟨fails, List.forall_mem_cons.mpr ⟨⟨_, rfl, here _⟩, reports⟩⟩
      · refine ⟨fun e stopped => ?_, by simp⟩
        cases stopped
        exact here _

end Record

/-! ### Programs -/

namespace Image

variable {P : LocatedError → Prop} {image : Image}

theorem place_points (each : ∀ r ∈ image.records, ∀ cause, P (r.locate cause)) :
    (∀ e, image.place.1 = .error (.error e) → P e) ∧
      ∀ r ∈ image.place.2.records, ∀ cause, P (r.locate cause) := by
  obtain ⟨fails, left⟩ := Record.placeAll_points image.program.symbols image.baseAddress.toNat each
  unfold place
  dsimp only
  split
  · next stop failed =>
    refine ⟨fun e stopped => ?_, left⟩
    cases stopped
    exact fails e failed
  · unfold placeSentinel
    split
    · exact ⟨by simp, left⟩
    · split
      · exact ⟨by simp, left⟩
      · exact ⟨by simp, left⟩

theorem fill_points (each : ∀ r ∈ image.records, ∀ cause, P (r.locate cause)) :
    (∀ e, image.fill.1 = .error (.error e) → P e) ∧
      ∀ d ∈ image.fill.2.1, ∃ e, d = .ofError e ∧ P e := by
  rw [result_fill, log_fill]
  exact Record.fillAll_points each

end Image

theorem Image.link_eq_error {p : Program} {objects : List ObjectFile} {options : Options}
    {e : LocatedError} (h : link p objects options = .error (.error e)) :
    (∃ id sym, p.table.find? endName = some id ∧ p.symbols.get? id = some sym ∧
        e = ⟨.reservedSymbol endName, sym.place.file, sym.place.line,
          sourceText objects sym.place⟩) ∨
      ∃ name ∈ options.entry, e.PointsAtJump name := by
  unfold link at h
  cases free : p.table.find? endName with
  | some id =>
    rw [free] at h
    cases found : p.symbols.get? id with
    | none => simp [found, orFault, bind, Except.bind] at h
    | some sym =>
      simp only [found, orFault, bind, Except.bind, Except.error.injEq, Stop.error.injEq] at h
      exact .inl ⟨id, sym, rfl, found, h.symm⟩
  | none =>
    rw [free] at h
    cases hEnd : addEnd p with
    | none => simp [hEnd, orFault, bind, Except.bind] at h
    | some result =>
      cases entry : options.entry with
      | none =>
        simp only [hEnd, entry] at h
        cases h
      | some name =>
        unfold entryJump at h
        cases parsed : Expr.parse name.toList with
        | ok target =>
          simp only [hEnd, entry, parsed] at h
          cases h
        | error cause =>
          simp only [hEnd, entry, parsed] at h
          cases h
          exact .inr ⟨name, rfl, rfl, rfl, rfl⟩

theorem exists_pointsInto_of_assembleFiles {sources : List (String × String)} {options : Options}
    {s t : Session} {e : LocatedError}
    (run : assembleFiles sources options s = .error (.error e) t) :
    ∃ source ∈ sources, e.PointsInto source.1 source.2 := by
  obtain ⟨before, source, after, _, u, rfl, -, stops⟩ := mapM_eq_error run
  exact ⟨source, by simp, ObjectFile.pointsInto_of_assemble stops⟩

/-- The files report no errors on the way. -/
theorem severity_of_assembleFiles (sources : List (String × String)) (options : Options) :
    Leads (assembleFiles sources options) .empty
      (fun s => ∀ d ∈ s.log, d.severity ≠ .error) fun _ _ => True :=
  Leads.weaken (quiet_assembleFiles sources options .empty rfl) (fun s quiet d member severe => by
    rw [Session.Quiet, Log.hasError, List.any_eq_false] at quiet
    exact quiet d member (decide_eq_true severe)) fun _ _ _ _ => trivial

section Files

variable {sources : List (String × String)} {options : Options} {objects : List ObjectFile}
  {s : Session} (run : assembleFiles sources options .empty = .ok objects s)
include run

/-- Each file has been assembled from its source. -/
theorem forall₂_of_assembleFiles : List.Forall₂ (fun source o =>
    ∃ r t, ObjectFile.assemble options source.1 source.2 r = .ok o t) sources objects :=
  (mapM_keeps (fun _ => True) (fun _ _ _ u v _ step => ⟨trivial, u, v, step⟩) trivial run).2

/-- The text of a line, from the only file of its name. -/
theorem Image.sourceText_eq (distinct : (sources.map Prod.fst).Nodup) {file text : String}
    {number : Nat} (member : (file, text) ∈ sources)
    (inside : number < (Text.lines text.toList).length) :
    (Text.lines text.toList)[number]? = some (sourceText objects ⟨file, number⟩).toList := by
  have each := forall₂_of_assembleFiles run
  have present : (objects.find? fun o => o.file = file).isSome := by
    obtain ⟨o, listed, _, _, made⟩ := Runs.exists_right_of_forall₂ each member
    rw [List.find?_isSome]
    exact ⟨o, listed, by simpa using (ObjectFile.stages_of_assemble made).1⟩
  obtain ⟨o, found⟩ := Option.isSome_iff_exists.mp present
  obtain ⟨source, listed, _, _, made⟩ :=
    Runs.exists_left_of_forall₂ each (List.mem_of_find?_eq_some found)
  have hFile : o.file = file := by simpa using List.find?_some found
  obtain ⟨hName, _, _, stages⟩ := ObjectFile.stages_of_assemble made
  obtain rfl : source = (file, text) :=
    List.inj_on_of_nodup_map distinct listed member (hName.symm.trans hFile)
  obtain ⟨_, hRead, -⟩ := stages.builtIn
  have texts : o.lines.map (fun line => line.text.toList) = Text.lines text.toList :=
    (SourceFile.lines_of_read hRead).2.1
  rw [← texts] at inside ⊢
  rw [List.length_map] at inside
  simp [sourceText, found, List.getElem?_eq_getElem inside]

/-- The link fails at a symbol that has the name of the end, or at the entry. -/
theorem Image.pointsAt_of_link (distinct : (sources.map Prod.fst).Nodup) {e : LocatedError}
    (h : link s.program objects options = .error (.error e)) :
    e.PointsAt options.entry sources := by
  rcases link_eq_error h with ⟨id, sym, found, hSym, rfl⟩ | jump
  · obtain ⟨text, source, _, _, member, hRead, d, declared, number, -⟩ :=
      Program.declares_of_find? run found hSym
    obtain ⟨line, inside, same⟩ := SourceLine.exists_of_mem_declarations declared
    have points := (SourceFile.pointsInto_locate hRead inside (.reservedSymbol endName)).line
    have below : sym.place.line < (Text.lines text.toList).length := by
      rw [← number, ← same]
      exact points
    exact .inr ⟨_, member, rfl, below, sourceText_eq run distinct member below⟩
  · exact .inl jump

theorem Image.pointsAt_of_mem {image : Image} (h : link s.program objects options = .ok image)
    {r : Record} (member : r ∈ image.records) (cause : AsmError) :
    (r.locate cause).PointsAt options.entry sources := by
  obtain ⟨-, id, q, first, -, hFirst, rfl⟩ := link_eq_ok h
  rcases mem_unplaced hFirst member with ⟨entry, named, jump⟩ | ⟨o, inside, inFile⟩
  · obtain ⟨target, -, rfl⟩ := entryJump_eq_ok jump
    exact .inl ⟨entry, named, rfl, rfl, rfl⟩
  · obtain ⟨source, listed, r, t, made⟩ :=
      Runs.exists_left_of_forall₂ (forall₂_of_assembleFiles run) inside
    exact .inr ⟨source, listed, ObjectFile.pointsInto_of_mem made inFile cause⟩

end Files

/-- Errors point at the line they are about.  An error that ends a run, or that is reported on the
way, has the file, the number and the text of a line of a source, or it is about the jump to the
entry.  The error that ends a file is about a line of this file. -/
theorem assemble_error_places (sources : List (String × String)) (options : Options)
    (distinct : (sources.map Prod.fst).Nodup) :
    (∀ e, (assemble sources options).result = .error (.error e) →
        e.PointsAt options.entry sources) ∧
      (∀ d ∈ (assemble sources options).log, d.severity = .error →
        ∃ e : LocatedError, d = .ofError e ∧ e.PointsAt options.entry sources) ∧
      ∀ (file text : String) (s t : Session) (e : LocatedError),
        ObjectFile.assemble options file text s = .error (.error e) t →
          e.PointsInto file text := by
  suffices all : (∀ e, (assemble sources options).result = .error (.error e) →
      e.PointsAt options.entry sources) ∧
      ∀ d ∈ (assemble sources options).log, d.severity = .error →
        ∃ e : LocatedError, d = .ofError e ∧ e.PointsAt options.entry sources from
    ⟨all.1, all.2, fun _ _ _ _ _ => ObjectFile.pointsInto_of_assemble⟩
  -- An error in the log is from the words of a record: no step before that reports one.
  have quiet := severity_of_assembleFiles sources options
  unfold Leads at quiet
  unfold assemble
  cases files : assembleFiles sources options .empty with
  | error stop s =>
    rw [files] at quiet
    refine ⟨fun e stopped => ?_, fun d member severe => absurd severe (quiet d member)⟩
    cases stopped
    exact .inr (exists_pointsInto_of_assembleFiles files)
  | ok objects s =>
    simp only [files, and_true] at quiet
    cases hLink : Image.link s.program objects options with
    | error stop =>
      simp only [hLink]
      refine ⟨fun e stopped => ?_, fun d member severe => absurd severe (quiet d member)⟩
      cases stopped
      exact Image.pointsAt_of_link files distinct hLink
    | ok linked =>
      obtain ⟨placing, left⟩ :=
        Image.place_points (P := fun e => e.PointsAt options.entry sources) fun r member =>
          Image.pointsAt_of_mem files hLink member
      simp only [hLink]
      cases hPlace : linked.place with
      | mk result placed =>
        simp only [hPlace] at placing left
        cases result with
        | error stop =>
          refine ⟨fun e stopped => ?_, fun d member severe => absurd severe (quiet d member)⟩
          cases stopped
          exact placing e rfl
        | ok _ =>
          obtain ⟨filling, reported⟩ :=
            Image.fill_points (P := fun e => e.PointsAt options.entry sources) left
          cases hFill : placed.fill with
          | mk result rest =>
            obtain ⟨log, filled⟩ := rest
            simp only [hFill] at filling reported ⊢
            refine ⟨fun e stopped => ?_, fun d member severe => ?_⟩
            · cases result with
              | ok _ => cases stopped
              | error stop =>
                cases stopped
                exact filling e rfl
            · rcases List.mem_append.mp member with before | here
              · exact absurd severe (quiet d before)
              · exact reported d here

/-- Two files, the second with a name that nothing declares. -/
def strayName : List (String × String) :=
  [("a.s", "set a, 1"), ("b.s", "set b, 2\n  set c, stray")]

theorem assemble_error_places_strayName : (strayName.map Prod.fst).Nodup ∧
    ∃ e, (assemble strayName {}).result = .error (.error e) ∧ e.PointsAt none strayName := by
  have distinct : (strayName.map Prod.fst).Nodup := by decide
  have stopped : (assemble strayName {}).result =
      .error (.error ⟨.undefinedSymbol "stray", "b.s", 1, "  set c, stray"⟩) := by decide +kernel
  exact ⟨distinct, _, stopped, (assemble_error_places strayName {} distinct).1 _ stopped⟩

end Dcpu16
