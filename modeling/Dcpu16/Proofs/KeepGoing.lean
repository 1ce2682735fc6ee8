import Dcpu16.Proofs.Layout
import Dcpu16.Proofs.Reports

/-! Going on after failures.  While files are assembled nothing is reported as an error, so the
errors in the log of a program are those of its records.  A run that goes on differs from a plain
one only in the records that fail: it reports them and fills them with zeros. -/

namespace Dcpu16

open Assembler

/-- Nothing in the log is an error. -/
def Session.Quiet (s : Session) : Prop := s.log.hasError = false

/-! ### Files report no errors -/

theorem Session.Quiet.keeps_report {d : Diagnostic} (mild : d.severity ≠ .error) :
    Keeps Quiet (report d) := by
  refine .modify fun s quiet => ?_
  simp only [Quiet, Log.hasError, List.any_append] at quiet ⊢
  simp [quiet, mild]

theorem Session.Quiet.allows : Allows Quiet Diagnostic.Mild :=
  ⟨fun _ _ quiet => quiet, fun s _ mild quiet => (keeps_report mild.severity s quiet).1⟩

theorem SourceFile.quiet_redefine {source : SourceFile} {policy : Redefinition} (name : String)
    (line : SourceLine) (first : Place) :
    Keeps Session.Quiet (source.redefine policy name line first) := by
  cases policy with
  | error => exact .fail _
  | warn =>
    refine (Session.Quiet.keeps_report (by simp)).bind fun _ => ?_
    dsimp only
    split
    · exact ((keeps_line _).map _).bind fun _ => Session.Quiet.keeps_report (by simp)
    · exact (Keeps.pure _).bind fun _ => Session.Quiet.keeps_report (by simp)

theorem quiet_assembleFiles (sources : List (String × String)) (options : Options) :
    Keeps Session.Quiet (assembleFiles sources options) :=
  Session.Quiet.allows.assembleFiles (fun _ => SourceFile.quiet_redefine) sources

/-! ### Records that fail -/

/-- A value that does not fit is told by the first letter of its text. -/
theorem AsmError.head?_message (e : AsmError) :
    ∃ c, e.message.toList.head? = some c ∧ (e.kind = .encode ↔ c = 'V' ∨ c = 'A') := by
  delta message kind
  cases e <;> simp only [quoted, String.toList_append, List.head?_append] <;>
    exact ⟨_, rfl, by decide⟩

namespace Record

variable {program : Program} {keepGoing : Bool} {r f : Record} {rs : List Record}

/-- The error for which a record cannot be made, if there is one. -/
def failure? (program : Program) (r : Record) : Option LocatedError :=
  match r.content.words (r.scopeIn program) with
  | .error (.error e) => some (r.locate e)
  | _ => none

theorem fillAll_cons_made {words : List Word}
    (made : r.content.words (r.scopeIn program) = .ok words) :
    fillAll program keepGoing (r :: rs) =
      ⟨{ r with words := some words } :: (fillAll program keepGoing rs).records,
        r.content.touched (r.scopeIn program) ++ (fillAll program keepGoing rs).touched,
        (fillAll program keepGoing rs).log, (fillAll program keepGoing rs).result⟩ := by
  rw [fillAll, made]

/-- Filling gets past a record if it can be made, or if it fails and is reported. -/
theorem fillAll_cons_ok (h : (fillAll program keepGoing (r :: rs)).result = .ok ()) :
    (fillAll program keepGoing rs).result = .ok () ∧
      ((∃ words, r.content.words (r.scopeIn program) = .ok words) ∨
        ∃ e, keepGoing = true ∧ r.content.words (r.scopeIn program) = .error (.error e) ∧
          (fillAll program keepGoing (r :: rs)).log =
            Diagnostic.ofError (r.locate e) :: (fillAll program keepGoing rs).log) := by
  cases made : r.content.words (r.scopeIn program) with
  | ok words =>
    rw [fillAll_cons_made made] at h
    exact ⟨h, .inl ⟨words, rfl⟩⟩
  | error stop =>
    rw [fillAll, made] at h ⊢
    cases stop with
    | fault f => cases h
    | error e =>
      dsimp only at h ⊢
      split at h
      · next goes =>
        rw [if_pos goes]
        simp only [Bool.and_eq_true] at goes
        cases zeros : r.zeroed with
        | error f => simp [zeros] at h
        | ok zeroed =>
          simp only [zeros] at h
          exact ⟨h, .inr ⟨e, goes.1, rfl, rfl⟩⟩
      · cases h

/-- What is reported are the failures, in the order of the records. -/
theorem log_fillAll (h : (fillAll program keepGoing rs).result = .ok ()) :
    (fillAll program keepGoing rs).log =
      (rs.filterMap (failure? program)).map Diagnostic.ofError := by
  induction rs with
  | nil => rfl
  | cons r rs ih =>
    obtain ⟨rest, ⟨words, made⟩ | ⟨e, -, failed, log⟩⟩ := fillAll_cons_ok h
    · have none : r.failure? program = none := by rw [failure?, made]
      rw [fillAll_cons_made made, List.filterMap_cons_none none]
      exact ih rest
    · have some : r.failure? program = some (r.locate e) := by rw [failure?, failed]
      rw [log, List.filterMap_cons_some some, ih rest, List.map_cons]

/-- A run that goes on shows where a plain run stops. -/
theorem fillAll_plain (h : (fillAll program true rs).result = .ok ()) :
    match rs.filterMap (failure? program) with
    | [] => fillAll program false rs = fillAll program true rs
    | e :: _ => (fillAll program false rs).result = .error (.error e) := by
  induction rs with
  | nil => rfl
  | cons r rs ih =>
    obtain ⟨rest, ⟨words, made⟩ | ⟨e, -, failed, -⟩⟩ := fillAll_cons_ok h
    · have none : r.failure? program = none := by rw [failure?, made]
      rw [List.filterMap_cons_none none, fillAll_cons_made made, fillAll_cons_made made]
      have := ih rest
      split at this
      · next same => rw [this]
      · next same => exact this
    · have some : r.failure? program = some (r.locate e) := by rw [failure?, failed]
      rw [List.filterMap_cons_some some, fillAll, failed]
      rfl

/-- Where a plain run does not stop there is nothing to go on after. -/
theorem fillAll_going (h : (fillAll program false rs).result = .ok ()) :
    fillAll program true rs = fillAll program false rs ∧ (fillAll program true rs).log = [] := by
  induction rs with
  | nil => exact ⟨rfl, rfl⟩
  | cons r rs ih =>
    obtain ⟨rest, ⟨words, made⟩ | ⟨e, going, -⟩⟩ := fillAll_cons_ok h
    · obtain ⟨same, silent⟩ := ih rest
      rw [fillAll_cons_made made, fillAll_cons_made made]
      exact ⟨by rw [same], silent⟩
    · cases going

/-- Also a run that stops has reported no value that does not fit. -/
theorem kind_of_mem_log {d : Diagnostic} (h : d ∈ (fillAll program keepGoing rs).log) :
    ∃ e : LocatedError, d = .ofError e ∧ e.error.kind ≠ .encode := by
  induction rs with
  | nil => cases h
  | cons r rs ih =>
    unfold fillAll at h
    dsimp only at h
    split at h
    · exact ih h
    · cases h
    · split at h
      · next goes =>
        simp only [Bool.and_eq_true, decide_eq_true_eq] at goes
        split at h
        · cases h
        · rcases List.mem_cons.mp h with rfl | later
          · exact ⟨_, rfl, goes.2⟩
          · exact ih later
      · cases h

theorem FilledAs.failure?_eq {log : Log} (h : FilledAs program keepGoing log r f)
    (ids : List SymbolId) : f.failure? (program.markReferenced ids) = r.failure? program := by
  have same := (r.agrees_markReferenced program ids).words r.content
  have failure : r.failure? (program.markReferenced ids) = r.failure? program := by
    rw [failure?, failure?, same]
  cases h <;> exact failure

end Record

/-! ### The two runs -/

theorem Log.ofSeverity_eq_nil {log : Log} (quiet : log.hasError = false) :
    log.ofSeverity .error = [] := by
  simpa [Log.hasError, Log.ofSeverity, List.filter_eq_nil_iff] using quiet

theorem Log.ofSeverity_map_ofError (es : List LocatedError) :
    Log.ofSeverity (es.map Diagnostic.ofError) .error = es.map Diagnostic.ofError :=
  List.filter_eq_self.mpr fun d member => by
    obtain ⟨e, -, rfl⟩ := List.mem_map.mp member
    rfl

namespace Image

variable {image : Image}

theorem log_fill (image : Image) :
    image.fill.2.1 = (Record.fillAll image.program image.keepGoing image.records).log := by
  unfold fill
  dsimp only
  split <;> rfl

theorem result_fill (image : Image) :
    image.fill.1 = (Record.fillAll image.program image.keepGoing image.records).result := by
  unfold fill
  dsimp only
  split <;> simp_all

theorem EndPlaced.content_eq {mid last : SymbolStore} {sentinel : Record}
    (h : image.EndPlaced mid sentinel last) : sentinel.content = image.sentinel.content := by
  cases h with
  | inside _ h =>
    have bare : sentinel.bare = image.sentinel.bare := List.singleton_inj.mp h.map_bare
    show sentinel.bare.content = image.sentinel.bare.content
    rw [bare]
  | outside => rfl

/-- If filling the records does not depend on whether it goes on after failures, nothing does. -/
theorem fill_of_same {k k' : Bool}
    (same : Record.fillAll image.program k image.records =
      Record.fillAll image.program k' image.records) :
    { image with keepGoing := k }.fill.2.2 =
      { { image with keepGoing := k' }.fill.2.2 with keepGoing := k } := by
  unfold fill
  dsimp only
  rw [same]
  split <;> rfl

theorem fill_of_map {filled : Image} (h : (image.fill.1.map fun _ => image.fill.2.2) = .ok filled) :
    ∃ log, image.fill = (.ok (), log, filled) := by
  cases result : image.fill.1 with
  | error e => simp [result, Except.map] at h
  | ok u =>
    rw [result] at h
    exact ⟨image.fill.2.1, Prod.ext result (Prod.ext rfl (Except.ok.inj h))⟩

theorem fill_going {filled : Image} {log : Log}
    (h : { image with keepGoing := false }.fill = (.ok (), log, filled)) :
    { image with keepGoing := true }.fill = (.ok (), [], { filled with keepGoing := true }) := by
  have plain := result_fill { image with keepGoing := false }
  rw [h] at plain
  obtain ⟨same, silent⟩ := Record.fillAll_going plain.symm
  refine Prod.ext ?_ (Prod.ext ?_ ?_)
  · rw [result_fill]
    exact (congrArg Filling.result same).trans plain.symm
  · rw [log_fill]
    exact silent
  · rw [fill_of_same same, h]

/-- The failures show how a run that goes on has ended, and how a plain one does. -/
theorem fill_failures {filled : Image} {log : Log}
    (h : { image with keepGoing := true }.fill = (.ok (), log, filled)) :
    ∃ failures : List LocatedError, log = failures.map Diagnostic.ofError ∧
      (failures = [] → { image with keepGoing := false }.fill =
        (.ok (), [], { filled with keepGoing := false })) ∧
      ∀ e es, failures = e :: es →
        { image with keepGoing := false }.fill.1 = .error (.error e) := by
  have result := result_fill { image with keepGoing := true }
  have reported := log_fill { image with keepGoing := true }
  rw [h] at result reported
  rw [Record.log_fillAll result.symm] at reported
  have plain := Record.fillAll_plain result.symm
  dsimp only at plain
  refine ⟨_, reported, fun none => ?_, fun e es some => ?_⟩
  · rw [none] at plain
    have ended := (congrArg Filling.result plain).trans result.symm
    refine Prod.ext ?_ (Prod.ext ?_ ?_)
    · rw [result_fill]
      exact ended
    · rw [log_fill, Record.log_fillAll ended]
      exact congrArg (List.map _) none
    · rw [fill_of_same plain, h]
  · rw [some] at plain
    rw [result_fill]
    exact plain

theorem link_keepGoing (p : Program) (objects : List ObjectFile) (options : Options) (k : Bool) :
    link p objects { options with keepGoing := k } =
      (link p objects options).map fun image => { image with keepGoing := k } := by
  unfold link
  split
  · next id _ =>
    cases p.symbols.get? id <;> rfl
  · cases addEnd p with
    | none => rfl
    | some added =>
      dsimp only
      cases options.entry with
      | none => rfl
      | some entry => cases jump : entryJump entry <;> simp [jump] <;> rfl

theorem place_keepGoing (image : Image) (k : Bool) :
    { image with keepGoing := k }.place =
      (image.place.1, { image.place.2 with keepGoing := k }) := by
  unfold place
  dsimp only
  split
  · rfl
  · unfold placeSentinel
    dsimp only
    split
    · rfl
    · split <;> rfl

end Image

/-- The two runs part only when the words are made.  Up to there they report the same and no
error. -/
theorem assemble_keepGoing_cases (sources : List (String × String)) (options : Options) :
    (∃ (log : Log) (stop : Stop LocatedError), log.hasError = false ∧
      ∀ k, assemble sources { options with keepGoing := k } = ⟨log, .error stop⟩) ∨
    ∃ objects s linked placed, assembleFiles sources options .empty = .ok objects s ∧
      Image.link s.program objects options = .ok linked ∧ linked.place = (.ok (), placed) ∧
      s.log.hasError = false ∧
      ∀ k, assemble sources { options with keepGoing := k } =
        ⟨s.log ++ { placed with keepGoing := k }.fill.2.1,
          { placed with keepGoing := k }.fill.1.map
            fun _ => { placed with keepGoing := k }.fill.2.2⟩ := by
  have files (k : Bool) : assembleFiles sources { options with keepGoing := k } .empty =
      assembleFiles sources options .empty := rfl
  have quiet := quiet_assembleFiles sources options .empty rfl
  cases run : assembleFiles sources options .empty with
  | error e s =>
    refine .inl ⟨s.log, e, quiet.error run, fun k => ?_⟩
    rw [assemble, files, run]
  | ok objects s =>
    have silent : s.log.hasError = false := (quiet.ok run).1
    cases hLink : Image.link s.program objects options with
    | error e =>
      refine .inl ⟨s.log, e, silent, fun k => ?_⟩
      rw [assemble, files, run]
      dsimp only
      rw [Image.link_keepGoing, hLink]
      rfl
    | ok linked =>
      cases hPlace : linked.place with
      | mk result placed =>
        have placing (k : Bool) : { linked with keepGoing := k }.place =
            (result, { placed with keepGoing := k }) := by
          rw [Image.place_keepGoing, hPlace]
        cases result with
        | error e =>
          refine .inl ⟨s.log, e, silent, fun k => ?_⟩
          rw [assemble, files, run]
          dsimp only
          rw [Image.link_keepGoing, hLink]
          dsimp only [Except.map]
          rw [placing]
        | ok u =>
          refine .inr ⟨objects, s, linked, placed, rfl, hLink, hPlace, silent, fun k => ?_⟩
          rw [assemble, files, run]
          dsimp only
          rw [Image.link_keepGoing, hLink]
          dsimp only [Except.map]
          rw [placing]

/-- A record without its words. -/
def Record.unfilled (r : Record) : Record := { r with words := none }

/-- An image of which the records that fail have been filled with zeros.  `errors` tells of these
records in their order. -/
structure Image.Patched (sources : List (String × String)) (options : Options) (errors : Log)
    (image : Image) : Prop where
  /-- The records are those that have been placed, where they have been placed. -/
  placed : ∃ objects s linked placed, assembleFiles sources options .empty = .ok objects s ∧
    link s.program objects options = .ok linked ∧ linked.place = (.ok (), placed) ∧
    image.records.map Record.unfilled = placed.records.map Record.unfilled ∧
    image.sentinel.unfilled = placed.sentinel.unfilled
  reported : errors =
    (image.allRecords.filterMap (Record.failure? image.program)).map Diagnostic.ofError
  count : (image.allRecords.filter fun r => (r.failure? image.program).isSome).length =
    errors.length
  zeros : ∀ r ∈ image.allRecords, (r.failure? image.program).isSome →
    r.words = some (List.replicate r.size 0)
  made : ∀ r ∈ image.allRecords, r.failure? image.program = none →
    ∃ words, r.content.words (r.scopeIn image.program) = .ok words ∧ r.words = some words

theorem Record.FilledAs.words_of_failure? {program : Program} {keepGoing : Bool} {log : Log}
    {r f : Record} (h : r.FilledAs program keepGoing log f) :
    ((r.failure? program).isSome → f.words = some (List.replicate r.size 0)) ∧
      (r.failure? program = none →
        ∃ words, r.content.words (r.scopeIn program) = .ok words ∧ f.words = some words) := by
  rcases h.words_cases with ⟨words, made, present⟩ | ⟨e, failed, -, zeros⟩
  · simp [failure?, made, present]
  · simp [failure?, failed, zeros]

/-- The image of a run that goes on, with what is reported on the way. -/
theorem Image.patched_of_fill {sources : List (String × String)} {options : Options}
    {objects : List ObjectFile} {s : Session} {linked placed image : Image} {log : Log} {k : Bool}
    (files : assembleFiles sources options .empty = .ok objects s)
    (hLink : link s.program objects options = .ok linked)
    (hPlace : linked.place = (.ok (), placed))
    (hFill : { placed with keepGoing := k }.fill = (.ok (), log, image)) :
    image.Patched sources options log := by
  have mark : placed.sentinel.content = .mark := by
    obtain ⟨-, id, q, first, -, -, rfl⟩ := link_eq_ok hLink
    obtain ⟨records, mid, sentinel, last, -, ending, rfl⟩ := place_eq_ok rfl hPlace
    exact ending.content_eq
  have log_eq : log = (placed.records.filterMap (Record.failure? placed.program)).map
      Diagnostic.ofError := by
    have result := result_fill { placed with keepGoing := k }
    have reported := log_fill { placed with keepGoing := k }
    rw [hFill] at result reported
    exact reported.trans (Record.log_fillAll result.symm)
  obtain ⟨records, closing, filled, hClosing, rfl⟩ := fill_eq_ok hFill
  dsimp only at filled
  -- The closing record is a mark: it does not fail, and it has no words.
  have closed : ∀ r ∈ closing.toList, r.content = .mark ∧ r.words = some [] := by
    intro r member
    rw [hClosing] at member
    split at member
    · rw [List.mem_singleton.mp member]
      exact ⟨mark, rfl⟩
    · cases member
  generalize marked : (placed.records.flatMap fun r =>
    r.content.touched (r.scopeIn placed.program)) = ids at *
  have unfailing : ∀ r ∈ closing.toList,
      r.failure? (placed.program.markReferenced ids) = none := by
    intro r member
    rw [Record.failure?, (closed r member).1]
    rfl
  have each : ∀ r ∈ records ++ closing.toList,
      ((r.failure? (placed.program.markReferenced ids)).isSome →
        r.words = some (List.replicate r.size 0)) ∧
      (r.failure? (placed.program.markReferenced ids) = none → ∃ words,
        r.content.words (r.scopeIn (placed.program.markReferenced ids)) = .ok words ∧
          r.words = some words) := by
    intro r member
    rcases List.mem_append.mp member with inside | last
    · obtain ⟨before, -, made⟩ := Runs.exists_left_of_forall₂ filled inside
      exact (made.self.markReferenced ids).words_of_failure?
    · obtain ⟨content, words⟩ := closed r last
      rw [Record.failure?, content, words]
      exact ⟨nofun, fun _ => ⟨[], rfl, rfl⟩⟩
  have same : (records ++ closing.toList).filterMap
      (Record.failure? (placed.program.markReferenced ids)) =
        placed.records.filterMap (Record.failure? placed.program) := by
    have here := Runs.map_eq_of_forall₂ filled fun r f made => (made.failure?_eq ids).symm
    rw [List.filterMap_append, List.filterMap_eq_nil_iff.mpr unfailing, List.append_nil]
    simpa [List.filterMap_map] using (congrArg (List.filterMap id) here).symm
  refine ⟨⟨objects, s, linked, placed, files, hLink, hPlace, ?_, rfl⟩, ?_, ?_, ?_, ?_⟩
  · exact (Runs.map_eq_of_forall₂ filled fun r f made => by cases made <;> rfl).symm
  · rw [log_eq]
    exact congrArg (List.map _) same.symm
  · rw [log_eq, List.length_map, ← same, List.length_filterMap_eq_countP,
      List.countP_eq_length_filter]
    rfl
  · exact fun r member => (each r member).1
  · exact fun r member => (each r member).2

/-- A value that does not fit is not what a record that fails is reported for. -/
theorem Diagnostic.ofError_ne {e e' : LocatedError} (encode : e.error.kind = .encode)
    (other : e'.error.kind ≠ .encode) : ofError e ≠ ofError e' := by
  intro same
  obtain ⟨c, first, letter⟩ := e.error.head?_message
  obtain ⟨c', first', letter'⟩ := e'.error.head?_message
  have text : e.error.message = e'.error.message := congrArg Diagnostic.message same
  rw [text, first'] at first
  obtain rfl := Option.some.inj first
  exact other (letter'.mpr (letter.mp encode))

/-- Going on after failures only adds zeros.  Where the plain run ends well, the other ends with the
same image and reports no error; where the other ends with errors, the plain run stops with the
first of them.  A value that does not fit is never reported, it stops both runs. -/
theorem assemble_keepGoing (sources : List (String × String)) (options : Options) :
    let plain := assemble sources { options with keepGoing := false }
    let going := assemble sources { options with keepGoing := true }
    (∀ image, plain.result = .ok image →
      going.result = .ok { image with keepGoing := true } ∧ going.log.hasError = false) ∧
    (∀ image, going.result = .ok image → going.log.hasError = false →
      plain.result = .ok { image with keepGoing := false }) ∧
    (∀ image first others, going.result = .ok image →
      going.log.ofSeverity .error = first :: others →
      (∃ e, plain.result = .error (.error e) ∧ Diagnostic.ofError e = first) ∧
        image.Patched sources options (first :: others)) ∧
    ∀ e : LocatedError, e.error.kind = .encode →
      Diagnostic.ofError e ∉ plain.log ∧ Diagnostic.ofError e ∉ going.log := by
  intro plain going
  have quiet {log : Log} (h : log.hasError = false) (e : LocatedError) :
      Diagnostic.ofError e ∉ log := fun member => by
    simp only [Log.hasError, List.any_eq_false] at h
    exact h _ member (by simp [Diagnostic.ofError])
  rcases assemble_keepGoing_cases sources options with
    ⟨log, stop, silent, stopped⟩ | ⟨objects, s, linked, placed, files, hLink, hPlace, silent, runs⟩
  · -- Neither run gets to the words.
    have hPlain : plain = ⟨log, .error stop⟩ := stopped false
    have hGoing : going = ⟨log, .error stop⟩ := stopped true
    clear_value plain going
    subst hPlain hGoing
    exact ⟨by simp, by simp, by simp, fun e _ => ⟨quiet silent e, quiet silent e⟩⟩
  · have hPlain : plain = _ := runs false
    have hGoing : going = _ := runs true
    clear_value plain going
    subst hPlain hGoing
    dsimp only
    -- The errors of the run that goes on are those of its records.
    have patched {image : Image} {log : Log}
        (h : { placed with keepGoing := true }.fill = (.ok (), log, image)) :
        image.Patched sources options log ∧ Log.ofSeverity (s.log ++ log) .error = log := by
      have patched := Image.patched_of_fill files hLink hPlace h
      refine ⟨patched, ?_⟩
      rw [Log.ofSeverity, List.filter_append]
      show Log.ofSeverity s.log .error ++ Log.ofSeverity log .error = log
      rw [Log.ofSeverity_eq_nil silent, patched.reported, Log.ofSeverity_map_ofError]
      rfl
    have unreported {k : Bool} {e : LocatedError} (encode : e.error.kind = .encode) :
        Diagnostic.ofError e ∉ s.log ++ { placed with keepGoing := k }.fill.2.1 := by
      rw [Image.log_fill, List.mem_append, not_or]
      refine ⟨quiet silent e, fun member => ?_⟩
      obtain ⟨e', same, other⟩ := Record.kind_of_mem_log member
      exact Diagnostic.ofError_ne encode other same
    refine ⟨fun image made => ?_, fun image made noError => ?_,
      fun image first others made errors => ?_,
      fun e encode => ⟨unreported encode, unreported encode⟩⟩
    · obtain ⟨log, filled⟩ := Image.fill_of_map made
      rw [Image.fill_going filled, List.append_nil]
      exact ⟨rfl, silent⟩
    · obtain ⟨log, filled⟩ := Image.fill_of_map made
      obtain ⟨failures, rfl, plain, -⟩ := Image.fill_failures filled
      have errors := (patched filled).2
      rw [filled] at noError
      rw [Log.ofSeverity_eq_nil noError] at errors
      rw [plain (List.map_eq_nil_iff.mp errors.symm)]
      rfl
    · obtain ⟨log, filled⟩ := Image.fill_of_map made
      obtain ⟨failures, rfl, -, plain⟩ := Image.fill_failures filled
      obtain ⟨image_patched, all⟩ := patched filled
      rw [filled] at errors
      rw [errors] at all
      obtain ⟨e, es, split, same, -⟩ := List.map_eq_cons_iff.mp all.symm
      rw [← all] at image_patched
      exact ⟨⟨e, by rw [plain e es split]; rfl, same⟩, image_patched⟩

/-- Two of three instructions refer to symbols that there are not. -/
theorem assemble_keepGoing_two_failures :
    let sources := [("a.s", "set a, nope\nset b, 1\njsr gone")]
    ∃ image first second,
      (assemble sources { keepGoing := true }).result = .ok image ∧
      image.words = [0, 0, 0x8821, 0, 0] ∧
      (assemble sources { keepGoing := true }).log.ofSeverity .error = [first, second] ∧
      first.message = "Undefined symbol: `nope`" ∧ image.Patched sources {} [first, second] ∧
      ∃ e, (assemble sources { keepGoing := false }).result = .error (.error e) ∧
        Diagnostic.ofError e = first := by
  intro sources
  have evaluated : (assemble sources { keepGoing := true }).result.toOption.map Image.words =
      some [0, 0, 0x8821, 0, 0] := by
    decide +kernel
  have reported : (assemble sources { keepGoing := true }).log.ofSeverity .error =
      [⟨.error, "Undefined symbol: `nope`", "a.s", 0, "set a, nope"⟩,
        ⟨.error, "Undefined symbol: `gone`", "a.s", 2, "jsr gone"⟩] := by
    decide +kernel
  obtain ⟨image, present, words⟩ := Option.map_eq_some_iff.mp evaluated
  have made := Runs.eq_ok_of_toOption present
  obtain ⟨-, -, failing, -⟩ := assemble_keepGoing sources {}
  obtain ⟨stopped, patched⟩ := failing image _ _ made reported
  exact ⟨image, _, _, made, words, reported, rfl, patched, stopped⟩

end Dcpu16
