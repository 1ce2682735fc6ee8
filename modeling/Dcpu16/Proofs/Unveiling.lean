import Dcpu16.Proofs.ErrorPlaces

/-! What a file loses by the directives that hide names.  Without their bodies it has the same
labels and the same data, so there is only one way in which they can make it fail: they hide a local
label by its mangled name.  The mangled name is then below the file, but the line of the label still
looks for it below the owner. -/

namespace Dcpu16

open Assembler

/-! ### Lines without the directives -/

namespace Statement

/-- Does the statement hide names? -/
def isVisibility (s : Statement) : Bool :=
  match s.body with
  | .directive d _ => d.isVisibility
  | _ => false

/-- The statement, without its body if that hides names. -/
def unveiled (s : Statement) : Statement :=
  if s.isVisibility then { s with body := .empty } else s

@[simp] theorem label_unveiled (s : Statement) : s.unveiled.label = s.label := by
  unfold unveiled
  split <;> rfl

theorem unveiled_of_isData {s : Statement} {d : Directive} {rest : String}
    (body : s.body = .directive d rest) (isData : d.isData = true) : s.unveiled = s := by
  have keeps : s.isVisibility = false := by
    rw [isVisibility, body]
    cases d <;> first | rfl | cases isData
  rw [unveiled, keeps]
  rfl

/-- The statements of the lines of a text. -/
def parseText (text : String) : List (Except AsmError Statement) :=
  (Text.lines text.toList).map fun line => parse (Text.tidy line)

/-- The lines of `bare` say what those of `text` do, without the bodies that hide names. -/
def Unveils (text bare : String) : Prop :=
  parseText bare = (parseText text).map (Except.map unveiled)

instance (text bare : String) : Decidable (Unveils text bare) :=
  inferInstanceAs (Decidable (_ = _))

end Statement

namespace SourceLine

theorem foldl_nextOwner_eq {lines lines' : List SourceLine}
    (same : lines.map (fun line => line.statement.label) =
      lines'.map fun line => line.statement.label) (owner : Option String) :
    lines.foldl nextOwner owner = lines'.foldl nextOwner owner := by
  induction lines generalizing lines' owner with
  | nil =>
    cases lines' with
    | nil => rfl
    | cons => cases same
  | cons line lines ih =>
    cases lines' with
    | nil => cases same
    | cons line' lines' =>
      obtain ⟨here, below⟩ : line.statement.label = line'.statement.label ∧ _ :=
        List.cons_eq_cons.mp same
      have next : nextOwner owner line = nextOwner owner line' := by
        simp only [nextOwner, here]
      rw [List.foldl_cons, List.foldl_cons, next]
      exact ih below _

end SourceLine

namespace SourceFile

variable {source plain : SourceFile} {file text bare : String} {s t : Session} {line : SourceLine}
  {label : Label}

/-- The lines of `plain` are those of `source`, without the bodies that hide names. -/
def Unveils (source plain : SourceFile) : Prop :=
  plain.lines.map SourceLine.statement =
    source.lines.map fun line => line.statement.unveiled

theorem parseText_of_read (run : read file text s = .ok source t) :
    Statement.parseText text = (source.lines.map SourceLine.statement).map .ok := by
  rw [List.map_map]
  exact Runs.map_eq_of_forall₂ (lines_of_read run).2.2 fun _ _ parsed => parsed

/-- If a file can be read without the directives, then also with them. -/
theorem read_of_unveils (unveils : Statement.Unveils text bare)
    (run : read file bare s = .ok plain t) :
    ∃ source r, read file text s = .ok source r ∧ source.Unveils plain := by
  rw [Statement.Unveils, parseText_of_read run] at unveils
  cases h : read file text s with
  | error stop r =>
    obtain ⟨raw, number, cause, found, parsed, -⟩ := exists_line_of_read h
    have member : .error cause ∈ Statement.parseText text :=
      List.mem_map.mpr ⟨raw, List.mem_of_getElem? found, parsed⟩
    have kept := List.mem_map_of_mem (f := Except.map Statement.unveiled) member
    rw [← unveils] at kept
    obtain ⟨statement, -, same⟩ := List.mem_map.mp kept
    cases same
  | ok source r =>
    have same : (plain.lines.map SourceLine.statement).map .ok =
        (source.lines.map fun line => line.statement.unveiled).map (Except.ok (ε := AsmError)) := by
      rw [unveils, parseText_of_read h, List.map_map, List.map_map, List.map_map]
      rfl
    exact ⟨source, r, rfl, List.map_injective_iff.mpr (fun _ _ => Except.ok.inj) same⟩

/-- A line of the file has its counterpart, below the same label. -/
theorem Unveils.exists_split (unveils : source.Unveils plain) {before after : List SourceLine}
    (split : source.lines = before ++ line :: after) :
    ∃ before' line' after', plain.lines = before' ++ line' :: after' ∧
      line'.statement = line.statement.unveiled ∧
      SourceLine.ownerAfter before' = SourceLine.ownerAfter before := by
  rw [Unveils, split, List.map_append, List.map_cons] at unveils
  obtain ⟨before', rest, hPlain, above, below⟩ := List.map_eq_append_iff.mp unveils
  obtain ⟨line', after', rfl, here, -⟩ := List.map_eq_cons_iff.mp below
  refine ⟨before', line', after', hPlain, here, SourceLine.foldl_nextOwner_eq ?_ none⟩
  have labels := congrArg (List.map Statement.label) above
  simpa only [List.map_map, Function.comp_def, Statement.label_unveiled] using labels

/-- The line has a local label that the file hides, and no other way leads to the name of the
label. -/
def VeilsLabel (source : SourceFile) (line : SourceLine) (label : Label) : Prop :=
  ∃ before after owner, source.lines = before ++ line :: after ∧
    line.statement.label = some label ∧ label.isLocal = true ∧
    SourceLine.ownerAfter before = some owner ∧
    Symbol.Veiled source.file (source.hiddenNames.map Prod.fst) owner label.name

/-- A local label is hidden by its mangled name only, never by the name of a label. -/
theorem VeilsLabel.exists_mangled (h : source.VeilsLabel line label) :
    ∃ hidden ∈ source.hiddenNames, ¬ Symbol.Simple hidden.1 := by
  obtain ⟨_, _, owner, -, -, -, -, ⟨before, after, split⟩, -⟩ := h
  have member : Symbol.keyIn source.file before (some owner) label.name ∈
      source.hiddenNames.map Prod.fst := by simp [split]
  obtain ⟨hidden, listed, same⟩ := List.mem_map.mp member
  rw [Symbol.keyIn_some] at same
  exact ⟨hidden, listed, fun simple => Symbol.localName_ne simple same.symm⟩

end SourceFile

/-! ### Files that have been assembled -/

namespace ObjectFile.Stages

variable {options : Options} {o : ObjectFile} {s t u : Session} {text : String}
  {build : SourceFile.Build} {before after : List SourceLine} {line : SourceLine} {label : Label}

/-- A local label has an owner and a symbol. -/
theorem exists_isLabel (h : o.Stages options text s u t build)
    (split : o.lines = before ++ line :: after) (hLabel : line.statement.label = some label)
    (isLocal : label.isLocal = true) :
    ∃ owner x, SourceLine.ownerAfter before = some owner ∧ s.program.symbols.size ≤ x ∧
      u.program.symbols.IsLabel x (some owner) label.name := by
  have names := h.declared.names
  have declared : ⟨SourceLine.ownerAfter before, label.name, line.number⟩ ∈
      SourceLine.declarations o.source.lines := by
    rw [show o.source.lines = before ++ line :: after from split, SourceLine.declarations_split]
    simp [SourceLine.declaration?, hLabel, isLocal]
  obtain ⟨x, new, isLabel⟩ := names.declared.label _ declared
  have dot : label.name.toList.head? = some '.' := by simpa [Label.isLocal] using isLocal
  obtain ⟨owner, above⟩ :=
    Option.isSome_iff_exists.mp ((names.linked.labelName new isLabel).dot.mp dot)
  exact ⟨owner, x, above, new, above ▸ isLabel⟩

/-- The data of a line can be read. -/
theorem exists_words (h : o.Stages options text s u t build)
    (split : o.lines = before ++ line :: after) {d : Directive} {rest : String}
    (body : line.statement.body = .directive d rest) (isData : d.isData = true) :
    ∃ words, Data.parse d rest = .ok words := by
  obtain ⟨first, v, second, w, -, run, -⟩ := h.reaches split
  obtain ⟨_, _, -, run⟩ := bind_eq_ok.mp run
  obtain ⟨marked, x, -, run⟩ := bind_eq_ok.mp run
  obtain ⟨content?, y, made, -⟩ := bind_eq_ok.mp run
  simp only [SourceFile.content?, body, isData, if_true] at made
  obtain ⟨words, _, parsed, -⟩ := bind_eq_ok.mp made
  exact ⟨words, (located_eq_ok.mp parsed).1⟩

theorem not_veilsLabel (h : o.Stages options text s u t build) :
    ¬ o.source.VeilsLabel line label := by
  rintro ⟨before, after, owner, split, hLabel, isLocal, above, veiled⟩
  obtain ⟨owner', x, above', new, isLabel⟩ := h.exists_isLabel split hLabel isLocal
  obtain rfl : owner' = owner := Option.some.inj (above'.symm.trans above)
  obtain ⟨read, hRead, declared⟩ := h.builtIn
  have same := program_of_read hRead
  have tracked := SourceFile.namesTracked_of_declare h.wellRead declared
  rw [same] at tracked
  exact tracked.not_veiled (fun _ _ _ => h.find?_keyIn) new isLabel veiled

end ObjectFile.Stages

namespace ObjectFile

variable {options : Options} {file text bare : String} {s t t' : Session} {o : ObjectFile}
  {e : Stop LocatedError}

/-- In a file of a new name nothing is missing. -/
theorem not_isMissing_of_assemble (sound : s.program.Sound)
    (new : ∀ x sym, s.program.symbols.get? x = some sym → sym.place.file ≠ file)
    (run : assemble options file text s = .error e t) : ¬ e.IsMissing := by
  have lost {f : Fault} (fault : e = .fault f) (other : f ≠ .overflow) : False := by
    subst fault
    rcases fault_of_assemble sound run with overflow | ⟨-, key, line, lost⟩
    · exact other overflow
    · obtain ⟨x, sym, -, found, place⟩ := lost.first
      exact new x sym found (by rw [place])
  rintro (missing | missing)
  · exact lost missing (by decide)
  · exact lost missing (by decide)

/-- A file that can be assembled without the directives fails with them at a label that they
veil. -/
theorem exists_veilsLabel_of_assemble (warns : options.redefinition = .warn)
    (sound : s.program.Sound)
    (new : ∀ x sym, s.program.symbols.get? x = some sym → sym.place.file ≠ file)
    {source : SourceFile} {r : Session} (unveils : source.Unveils o.source)
    (hRead : SourceFile.read file text s = .ok source r)
    (run : assemble options file bare s = .ok o t)
    (failed : assemble options file text s = .error e t') :
    ∃ line label, source.VeilsLabel line label ∧
      e = .error (source.locate line (.undefinedSymbol label.name)) := by
  obtain ⟨-, u, build, stages⟩ := stages_of_assemble run
  rcases stops_of_assemble failed with unread | ⟨source', r', hRead', stops⟩
  · cases hRead.symm.trans unread
  cases hRead.symm.trans hRead'
  cases stops with
  | missing missing => exact absurd missing (not_isMissing_of_assemble sound new failed)
  | redefined name member strict => cases warns.symm.trans strict
  | orphan split hLabel isLocal alone =>
    -- Both files have the same labels above the line, and in the plain one there is an owner.
    obtain ⟨before', line', after', split', same, owner⟩ := unveils.exists_split split
    have hLabel' := (congrArg Statement.label same).trans
      ((Statement.label_unveiled _).trans hLabel)
    obtain ⟨_, _, above, -⟩ := stages.exists_isLabel split' hLabel' isLocal
    cases above.symm.trans (owner.trans alone)
  | data member body isData bad =>
    -- A line with data hides no names, so it stands in the plain file too.
    obtain ⟨before, after, split⟩ := List.append_of_mem member
    obtain ⟨before', line', after', split', same, -⟩ := unveils.exists_split split
    rw [Statement.unveiled_of_isData body isData] at same
    obtain ⟨words, parsed⟩ := stages.exists_words split' (same ▸ body) isData
    cases bad.symm.trans parsed
  | veiled split hLabel isLocal above veiled =>
    exact ⟨_, _, ⟨_, _, _, split, hLabel, isLocal, above, veiled⟩, rfl⟩

/-- The file has been read, and hiding names can make it fail in one way only: it is assembled
exactly if no local label is veiled, and so if the hidden names are those of labels as they are
written.  If it fails, then with the name of a veiled label. -/
structure FailsOnlyVeiled (options : Options) (file text : String) (s : Session)
    (source : SourceFile) (r : Session) : Prop where
  read : SourceFile.read file text s = .ok source r
  assembled : (∃ o t, assemble options file text s = .ok o t) ↔
    ∀ line label, ¬ source.VeilsLabel line label
  simple : (∀ hidden ∈ source.hiddenNames, Symbol.Simple hidden.1) →
    ∃ o t, assemble options file text s = .ok o t
  fails : ∀ e t, assemble options file text s = .error e t →
    ∃ line label, source.VeilsLabel line label ∧
      e = .error (source.locate line (.undefinedSymbol label.name))

theorem exists_failsOnlyVeiled (warns : options.redefinition = .warn) (sound : s.program.Sound)
    (new : ∀ x sym, s.program.symbols.get? x = some sym → sym.place.file ≠ file)
    (unveils : Statement.Unveils text bare) (run : assemble options file bare s = .ok o t) :
    ∃ source r, FailsOnlyVeiled options file text s source r := by
  obtain ⟨rfl, u, build, stages⟩ := stages_of_assemble run
  obtain ⟨_, hPlain, -⟩ := stages.builtIn
  obtain ⟨source, r, hRead, unveiled⟩ := SourceFile.read_of_unveils unveils hPlain
  have fails (e : Stop LocatedError) (t' : Session)
      (failed : assemble options o.file text s = .error e t') :
      ∃ line label, source.VeilsLabel line label ∧
        e = .error (source.locate line (.undefinedSymbol label.name)) :=
    exists_veilsLabel_of_assemble warns sound new unveiled hRead run failed
  have succeeds (bright : ∀ line label, ¬ source.VeilsLabel line label) :
      ∃ o' t', assemble options o.file text s = .ok o' t' := by
    cases result : assemble options o.file text s with
    | ok o' t' => exact ⟨o', t', rfl⟩
    | error e t' =>
      obtain ⟨line, label, veils, -⟩ := fails e t' result
      exact absurd veils (bright line label)
  refine ⟨source, r, hRead, ⟨?_, succeeds⟩, fun simple => succeeds ?_, fails⟩
  · rintro ⟨o', t', made⟩ line label
    obtain ⟨hFile, v, build', stages'⟩ := stages_of_assemble made
    obtain ⟨_, hRead', -⟩ := stages'.builtIn
    rw [hFile] at hRead'
    cases hRead.symm.trans hRead'
    exact stages'.not_veilsLabel
  · intro line label veils
    obtain ⟨hidden, member, mangled⟩ := veils.exists_mangled
    exact mangled (simple hidden member)

/-- Directives that hide names can make a file fail in one way only.  Let the file be new, names
that are defined again be kept, and the file be assembled without the bodies of these directives.
Then it is assembled with them exactly if they veil no local label; this is so if they name labels
as these are written.  If not, it fails with the name of a label that they veil. -/
theorem assemble_unveiled (options : Options) (file text bare : String) (s t : Session)
    (o : ObjectFile) (warns : options.redefinition = .warn) (sound : s.program.Sound)
    (new : ∀ x sym, s.program.symbols.get? x = some sym → sym.place.file ≠ file)
    (unveils : Statement.Unveils text bare) (run : assemble options file bare s = .ok o t) :
    ∃ source r, SourceFile.read file text s = .ok source r ∧
      ((∃ o' t', assemble options file text s = .ok o' t') ↔
        ∀ line label, ¬ source.VeilsLabel line label) ∧
      ((∀ hidden ∈ source.hiddenNames, Symbol.Simple hidden.1) →
        ∃ o' t', assemble options file text s = .ok o' t') ∧
      ∀ e t', assemble options file text s = .error e t' →
        ∃ line label, source.VeilsLabel line label ∧
          e = .error (source.locate line (.undefinedSymbol label.name)) := by
  obtain ⟨source, r, h⟩ := exists_failsOnlyVeiled warns sound new unveils run
  exact ⟨source, r, h.read, h.assembled, h.simple, h.fails⟩

/-- The same in every program that files of other names have led to.  Nothing else is asked of the
program, since what is needed of it holds after any files. -/
theorem failsOnlyVeiled_after (jobs : List Job) (warns : options.redefinition = .warn)
    (new : ∀ job ∈ jobs, job.file ≠ file) (unveils : Statement.Unveils text bare)
    (run : assemble options file bare (Session.empty.after jobs) = .ok o t) :
    ∃ source r, FailsOnlyVeiled options file text (Session.empty.after jobs) source r := by
  refine exists_failsOnlyVeiled warns (Session.sound_after jobs).1 (fun x sym found => ?_) unveils
    run
  obtain ⟨job, member, same⟩ := List.mem_map.mp (Session.file_mem_after found)
  exact same ▸ new job member

/-- A file with a local label. -/
def plainLoop : Job :=
  ⟨{ redefinition := .warn }, "a.s", "main: set a, 1\n:.loop set pc, main\n\n"⟩

/-- The file with its local label hidden, by the mangled name. -/
def hiddenLoop : Job :=
  { plainLoop with text := "main: set a, 1\n:.loop set pc, main\n.hidden main$$.loop\n" }

theorem object?_loops : Statement.Unveils hiddenLoop.text plainLoop.text ∧
    (plainLoop.object? .empty).isSome ∧ hiddenLoop.object? .empty = none := by
  decide +kernel

theorem hiddenLoop_ne_ok (o : ObjectFile) (t : Session) :
    assemble hiddenLoop.options hiddenLoop.file hiddenLoop.text .empty ≠ .ok o t := by
  intro made
  have present : hiddenLoop.object? .empty = some o := by rw [Job.object?, made]
  cases object?_loops.2.2.symm.trans present

/-- The label is veiled, since the file fails. -/
theorem assemble_unveiled_loops : Statement.Unveils hiddenLoop.text plainLoop.text ∧
    ∃ source r, SourceFile.read hiddenLoop.file hiddenLoop.text .empty = .ok source r ∧
      ∃ line label, source.VeilsLabel line label := by
  obtain ⟨unveils, plain, -⟩ := object?_loops
  obtain ⟨o, made⟩ := Option.isSome_iff_exists.mp plain
  have new (x : Nat) (sym : Symbol) (found : Session.empty.program.symbols.get? x = some sym) :
      sym.place.file ≠ plainLoop.file := by
    cases (Session.get?_empty x).symm.trans found
  obtain ⟨source, r, hRead, assembled, -⟩ := assemble_unveiled plainLoop.options plainLoop.file
    hiddenLoop.text plainLoop.text .empty _ o rfl Session.sound_empty.1 new unveils
    (Job.assemble_of_object? made)
  refine ⟨unveils, source, r, hRead, ?_⟩
  by_contra none
  obtain ⟨o', t', stands⟩ := assembled.mpr fun line label veils => none ⟨line, label, veils⟩
  exact hiddenLoop_ne_ok o' t' stands

/-- The file can be assembled without the directive, but not with it. -/
theorem assemble_hiddenLoop : Statement.Unveils hiddenLoop.text plainLoop.text ∧
    (∃ o t, assemble plainLoop.options plainLoop.file plainLoop.text .empty = .ok o t) ∧
    ∀ o t, assemble hiddenLoop.options hiddenLoop.file hiddenLoop.text .empty ≠ .ok o t := by
  obtain ⟨unveils, plain, -⟩ := object?_loops
  obtain ⟨o, made⟩ := Option.isSome_iff_exists.mp plain
  exact ⟨unveils, ⟨o, _, Job.assemble_of_object? made⟩, hiddenLoop_ne_ok⟩

end ObjectFile

end Dcpu16
