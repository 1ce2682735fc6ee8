import Dcpu16.Proofs.Invariant

/-! How far a hidden symbol is private.  A name without a separator stands for a hidden symbol in
files that are called like the file of the symbol, and a local name also below a label that is named
like that file. -/

namespace Dcpu16

open Dcpu16.Symbol

namespace Program

variable {p q : Program} {file : String} {files : List String}

/-- Every hidden symbol comes from one of the files. -/
def HiddenFrom (files : List String) (p : Program) : Prop :=
  ∀ ⦃x : Nat⦄ ⦃sym : Symbol⦄, p.symbols.get? x = some sym → sym.visibility = .hidden →
    sym.place.file ∈ files

theorem HiddenFrom.of_unmarked (h : p.HiddenFrom files)
    (same : q.symbols.unmarked = p.symbols.unmarked) : q.HiddenFrom files := by
  intro x sym found hidden
  obtain ⟨old, hOld, equal⟩ := SymbolStore.get?_of_unmarked same found
  have visibility : old.unmarked.visibility = sym.unmarked.visibility := by rw [equal]
  have place : old.unmarked.place = sym.unmarked.place := by rw [equal]
  rw [show sym.place = old.place from place.symm]
  exact h hOld (visibility.trans hidden)

theorem HiddenFrom.extend (h : p.HiddenFrom files) (remain : p.symbols.RemainIn q.symbols)
    (new : ∀ ⦃x : Nat⦄ ⦃sym : Symbol⦄, p.symbols.size ≤ x → q.symbols.get? x = some sym →
      sym.visibility = .hidden → sym.place.file ∈ files) : q.HiddenFrom files :=
  remain.forall_get? (P := fun sym => sym.visibility = .hidden → sym.place.file ∈ files)
    (fun _ _ h => h) h new

/-- A name without a `$` stands for a hidden symbol in two ways. -/
theorem Sound.hidden_of_resolve (h : p.Sound) {name : String} (simple : Simple name)
    {scope : Option SymbolId} {x : SymbolId} {sym : Symbol}
    (stands : p.resolve file name scope = .ok (some x)) (found : p.symbols.get? x = some sym)
    (hidden : sym.visibility = .hidden) :
    fileName sym.place.file = fileName file ∨ name.toList.head? = some '.' ∧
      ∃ y, scope = some y ∧ p.symbols.mangled? y = some (fileName sym.place.file) := by
  have named : p.symbols.mangled? x = some (localName (fileName sym.place.file) sym.name) := by
    rw [SymbolStore.mangled?_own found (.inr hidden), ownName, if_pos hidden,
      privateName_eq_localName]
  have simple' := h.linked.simple (Nat.zero_le x) found
  have front {key : String} (held : p.table.find? (localName key name) = some x) :
      key = fileName sym.place.file := by
    have same := Option.some.inj ((h.named _ x held).symm.trans named)
    exact ((localName_inj simple simple').mp same).1
  have whole : Text.hasDoubleDollar name.toList = false := hasDoubleDollar_simple simple
  rcases (SymbolStore.resolve_eq_some whole).mp stands with
    ⟨dot, y, key, inScope, above, held⟩ | ⟨-, held | ⟨-, held⟩⟩
  · exact .inr ⟨dot, y, inScope, front held ▸ above⟩
  · exact .inl (front held).symm
  · -- The mangled name of a hidden symbol has a separator.
    have same := Option.some.inj ((h.named name x held).symm.trans named)
    exact absurd same.symm (localName_ne simple)

end Program

/-! ### Programs that a run meets -/

/-- The programs that assembling files one after the other meets: behind some of the files, while
the records of a file are built, whether that succeeds or not, and in an image. -/
inductive Program.Met (jobs : List Job) : Program → Prop
  | assembled {done rest : List Job} (split : jobs = done ++ rest) :
      Met jobs (Session.empty.after done).program
  | building {done rest : List Job} {job : Job} {source : SourceFile} {table : SymbolTable}
      {build : SourceFile.Build} {above below : List SourceLine} {s u v : Session}
      (split : jobs = done ++ job :: rest)
      (read : SourceFile.read job.file job.text (Session.empty.after done) = .ok source s)
      (declared : source.declare job.options.redefinition s = .ok table u)
      (reached : source.lines = above ++ below)
      (run : source.buildLines table above u = .ok build v) : Met jobs v.program
  | imaged {image : Image} (stage : Image.Stage (Session.empty.after jobs).program image) :
      Met jobs image.program

theorem Image.hiddenFrom_of_stage {p : Program} {image : Image} {files : List String}
    (stage : Stage p image) (before : p.HiddenFrom files) : image.program.HiddenFrom files := by
  induction stage with
  | linked h =>
    obtain ⟨free, id, q, first, hEnd, -, rfl⟩ := link_eq_ok h
    refine before.extend (extends_of_addEnd free hEnd).symbols fun x sym behind found hidden => ?_
    obtain ⟨-, rfl⟩ := new_of_addEnd hEnd behind found
    cases hidden
  | @placed image _ ih => exact ih.of_unmarked image.settled_of_place.2.unmarked
  | @filled image _ ih => exact ih.of_unmarked image.settled_of_fill.2.unmarked

theorem Program.Met.sound {jobs : List Job} {p : Program} (met : p.Met jobs) :
    p.Sound ∧ p.HiddenFrom (jobs.map Job.file) := by
  have behind {done rest : List Job} (split : jobs = done ++ rest) :
      (Session.empty.after done).program.Sound ∧
        (Session.empty.after done).program.HiddenFrom (jobs.map Job.file) := by
    refine ⟨(Session.sound_after done).1, fun x sym found _ => ?_⟩
    rw [split, List.map_append]
    exact List.mem_append_left _ (Session.file_mem_after found)
  cases met with
  | assembled split => exact behind split
  | @building done rest job source table build above below s u v split read declared reached run =>
    obtain ⟨sound, hiddenFrom⟩ := behind split
    have same := ObjectFile.program_of_read read
    obtain ⟨sameFile, wellRead⟩ := SourceFile.read_eq_ok read
    have labels := SourceFile.declare_eq_ok wellRead declared
    rw [same] at labels
    have member : source.file ∈ jobs.map Job.file := by simp [sameFile, split]
    have notes := (SourceFile.built_of_buildLines labels.names wellRead reached run).session.program
    have withLabels := hiddenFrom.extend labels.remain fun _ _ behind found _ =>
      labels.names.ofFile.file behind found ▸ member
    exact ⟨(labels.sound sound).of_notes notes, withLabels.of_unmarked notes.symbols⟩
  | imaged stage =>
    have hiddenFrom := (behind (List.append_nil jobs).symm).2
    exact ⟨(Image.sound_of_stage stage (Session.sound_after jobs)).1,
      Image.hiddenFrom_of_stage stage hiddenFrom⟩

/-- A hidden symbol that a name without a `$` stands for comes from one of the files.  Either that
file is called like the one with the name, or the name is a local one and the label above it is
named like that file. -/
theorem Program.Met.resolve_hidden {jobs : List Job} {p : Program} (met : p.Met jobs)
    {file name : String} (simple : Simple name) {scope : Option SymbolId} {x : SymbolId}
    {sym : Symbol} (stands : p.resolve file name scope = .ok (some x))
    (found : p.symbols.get? x = some sym) (hidden : sym.visibility = .hidden) :
    sym.place.file ∈ jobs.map Job.file ∧
      (fileName sym.place.file = fileName file ∨ name.toList.head? = some '.' ∧
        ∃ y, scope = some y ∧ p.symbols.mangled? y = some (fileName sym.place.file)) := by
  obtain ⟨sound, hiddenFrom⟩ := met.sound
  exact ⟨hiddenFrom found hidden, sound.hidden_of_resolve simple stands found hidden⟩

/-- The label above the local name is named like the file of the symbol, not like its own file. -/
theorem Program.Met.resolve_hidden_local :
    let a : Job := ⟨{}, "main", ".hidden main$$.loop\n:main set a, 1\n:.loop set pc, .loop"⟩
    let b : Job := ⟨{}, "b.s", ":main set a, 2\nset pc, .loop"⟩
    let p := (Session.empty.after [a, b]).program
    ∃ sym, p.resolve b.file ".loop" (some 2) = .ok (some 1) ∧ p.symbols.get? 1 = some sym ∧
      sym.visibility = .hidden ∧ fileName sym.place.file ≠ fileName b.file ∧
      sym.place.file ∈ [a, b].map Job.file ∧ (fileName sym.place.file = fileName b.file ∨
        ".loop".toList.head? = some '.' ∧
          ∃ y, some 2 = some y ∧ p.symbols.mangled? y = some (fileName sym.place.file)) := by
  intro a b p
  have met : p.Met [a, b] := .assembled (List.append_nil [a, b]).symm
  have evaluated : (p.resolve b.file ".loop" (some 2)).toOption = some (some 1) ∧
      (p.symbols.get? 1).map (fun sym => (sym.visibility, sym.place.file)) =
        some (.hidden, a.file) := by
    decide +kernel
  have stands := Runs.eq_ok_of_toOption evaluated.1
  obtain ⟨sym, found, same⟩ := Option.map_eq_some_iff.mp evaluated.2
  obtain ⟨hidden, file⟩ := Prod.mk.inj same
  have differ : fileName sym.place.file ≠ fileName b.file := by
    rw [file]
    decide
  exact ⟨sym, stands, found, hidden, differ, resolve_hidden met (by decide) stands found hidden⟩

/-- Different files can be called the same, so one reaches a hidden symbol of the other. -/
theorem Program.Met.resolve_hidden_elsewhere :
    let a : Job := ⟨{}, "a/b.s", ".hidden foo\nfoo: set a, 1\n"⟩
    let b : Job := ⟨{}, "a_b.s", "set pc, foo\n"⟩
    ∃ (p : Program) (x : SymbolId) (sym : Symbol), p.Met [a, b] ∧
      p.resolve b.file "foo" none = .ok (some x) ∧ p.symbols.get? x = some sym ∧
      sym.visibility = .hidden ∧ sym.place.file = a.file ∧ a.file ≠ b.file := by
  intro a b
  let p := (Session.empty.after [a, b]).program
  have evaluated : (p.resolve b.file "foo" none).toOption = some (some 0) ∧
      (p.symbols.get? 0).map (fun sym => (sym.visibility, sym.place.file)) =
        some (.hidden, a.file) := by
    decide +kernel
  obtain ⟨sym, found, same⟩ := Option.map_eq_some_iff.mp evaluated.2
  obtain ⟨hidden, file⟩ := Prod.mk.inj same
  exact ⟨p, 0, sym, .assembled (List.append_nil [a, b]).symm, Runs.eq_ok_of_toOption evaluated.1,
    found, hidden, file, by decide⟩

end Dcpu16
