import Dcpu16.Proofs.Invariant
import Dcpu16.Proofs.Resolution

/-! Early binding is stable.  While a file is assembled, a name in an operand that stands for a
symbol is replaced by the mangled name of the symbol.  As long as no two files are called the same,
that name stands for the same symbol in all that becomes of the program. -/

namespace Dcpu16

open Dcpu16.Symbol

namespace Program

variable {p q r : Program} {file name bound : String} {scope : Option SymbolId} {x : SymbolId}

/-- The names of `p` are in front of those of `q`, and no name that only the file sees is new. -/
structure StableFor (file : String) (p q : Program) : Prop where
  names : p.table.entries <+: q.table.entries
  own : ∀ name, Simple name → name.toList.head? ≠ some '.' →
    p.table.find? (privateName file name) = none → q.table.find? (privateName file name) = none

theorem StableFor.of_table (h : q.table = p.table) : p.StableFor file q := by
  refine ⟨?_, fun name _ _ free => ?_⟩
  · exact h ▸ List.prefix_rfl
  · rw [h]
    exact free

theorem StableFor.trans (h : p.StableFor file q) (h' : q.StableFor file r) :
    p.StableFor file r := by
  refine ⟨h.names.trans h'.names, fun name simple noDot free => ?_⟩
  exact h'.own name simple noDot (h.own name simple noDot free)

/-- A mangled name without a separator is the name of a symbol without a parent. -/
theorem Sound.simple_of_mangled? (h : p.Sound) (named : p.symbols.mangled? x = some name)
    (whole : Text.hasDoubleDollar name.toList = false) :
    Simple name ∧ name.toList.head? ≠ some '.' := by
  have noSeparator (front back : String) : name ≠ localName front back := by
    rintro rfl
    rw [hasDoubleDollar_localName] at whole
    cases whole
  obtain ⟨sym, found⟩ := SymbolStore.exists_get?_of_mangled? named
  by_cases own : sym.parent = none ∨ sym.visibility = .hidden
  · have ownName := Option.some.inj (named.symm.trans (SymbolStore.mangled?_own found own))
    have visible : sym.visibility ≠ .hidden := by
      intro hidden
      rw [Symbol.ownName, if_pos hidden, privateName_eq_localName] at ownName
      exact noSeparator _ _ ownName
    rw [Symbol.ownName, if_neg visible] at ownName
    have top := own.resolve_right visible
    refine ⟨ownName ▸ h.linked.simple (Nat.zero_le x) found, ?_⟩
    rw [ownName, Ne, h.linked.dot (Nat.zero_le x) found, top]
    simp
  · rw [not_or] at own
    obtain ⟨y, parent⟩ := Option.ne_none_iff_exists'.mp own.1
    obtain ⟨-, above, hAbove, -⟩ := h.linked.parent (Nat.zero_le x) found parent
    have localKey := h.linked.mangled?_local (Nat.zero_le x) found parent own.2 hAbove
    exact absurd (Option.some.inj (named.symm.trans localKey)) (noSeparator _ _)

/-- What a name has been bound to still stands for the same symbol. -/
theorem Sound.resolve_of_stable (h : p.Sound) (stable : p.StableFor file q)
    (early : p.resolve file name scope = .ok (some x))
    (named : p.symbols.mangled? x = some bound) : q.resolve file bound scope = .ok (some x) := by
  obtain ⟨key, found, kind⟩ := SymbolStore.exists_key_of_resolve early
  obtain rfl : key = bound := Option.some.inj ((h.named key x found).symm.trans named)
  have later := NameTable.find?_of_prefix stable.names found
  cases whole : Text.hasDoubleDollar key.toList with
  | true => exact resolve_mangled whole later
  | false =>
    -- Only a name that all files share is bound to a name without a separator.
    obtain ⟨rfl, notOwn⟩ : key = name ∧ p.table.find? (privateName file name) = none := by
      rcases kind with ⟨rfl, dollars⟩ | ⟨front, rfl⟩ | shared
      · cases whole.symm.trans dollars
      · cases whole.symm.trans (hasDoubleDollar_localName _ _)
      · exact shared
    obtain ⟨simple, noDot⟩ := h.simple_of_mangled? named whole
    have free := stable.own key simple noDot notOwn
    exact (SymbolStore.resolve_eq_some whole).mpr (.inr ⟨noDot, .inr ⟨free, later⟩⟩)

end Program

/-! ### What becomes of a program -/

/-- A new name that only one file sees comes from a file of that name. -/
theorem ObjectFile.Made.stableFor {o : ObjectFile} {p q : Program} (made : o.Made p q)
    {file : String} (differ : fileName file ≠ fileName o.file) : p.StableFor file q := by
  refine ⟨made.extends_.names, fun name simple noDot free => ?_⟩
  have names : LabelName none name := ⟨simple, by simp [noDot], by simp⟩
  have other := made.find?_keyIn names file [name]
  rw [if_neg fun here => differ (here.2 (by simp))] at other
  have key : privateName file name = keyIn file [name] none name := by simp [keyIn]
  have absent : o.table.entries.lookup (privateName file name) = none := key ▸ other
  rw [made.table, NameTable.find?_joined, free, absent]
  rfl

theorem Session.stableFor_next (s : Session) {job : Job} {file : String}
    (differ : fileName file ≠ fileName job.file) :
    s.program.StableFor file (s.next job).program := by
  rcases s.next_cases job with ⟨o, same, made⟩ | ⟨table, -⟩
  · exact made.stableFor (same ▸ differ)
  · exact .of_table table

theorem Session.stableFor_after (s : Session) {jobs : List Job} {file : String}
    (differ : ∀ job ∈ jobs, fileName file ≠ fileName job.file) :
    s.program.StableFor file (s.after jobs).program :=
  after_keeps (fun t job member before => before.trans (t.stableFor_next (differ job member)))
    (.of_table rfl)

theorem Image.stableFor_of_stage {p : Program} {image : Image} (stage : Stage p image)
    (file : String) : p.StableFor file image.program := by
  induction stage with
  | linked h =>
    obtain ⟨free, id, q, first, hEnd, -, rfl⟩ := link_eq_ok h
    obtain ⟨-, table, -⟩ := addEnd_eq_some hEnd
    refine ⟨(extends_of_addEnd free hEnd).names, fun name simple noDot free => ?_⟩
    have notEnd : privateName file name ≠ endName := localName_ne (by decide)
    rw [table, NameTable.find?_insert, if_neg notEnd, free]
  | @placed image _ ih => exact ih.trans (.of_table image.settled_of_place.1)
  | @filled image _ ih => exact ih.trans (.of_table image.settled_of_fill.1)

/-- Of all files, only those called like this one could bring it new names of its own. -/
theorem Session.stableFor_end {before later : List Job} {job : Job} {final : Program}
    (distinct : ((before ++ job :: later).map fun job => fileName job.file).Nodup)
    (ends : final = (empty.after (before ++ job :: later)).program ∨
      ∃ image, Image.Stage (empty.after (before ++ job :: later)).program image ∧
        final = image.program) :
    ((empty.after before).next job).program.StableFor job.file final := by
  have differ : ∀ other ∈ later, fileName job.file ≠ fileName other.file := by
    rw [List.map_append, List.map_cons, List.nodup_append, List.nodup_cons] at distinct
    intro other member same
    exact distinct.2.1.1 (List.mem_map.mpr ⟨other, member, same.symm⟩)
  have whole : empty.after (before ++ job :: later) =
      ((empty.after before).next job).after later := by
    simp [after]
  rw [whole] at ends
  have stable := stableFor_after ((empty.after before).next job) differ
  rcases ends with rfl | ⟨image, stage, rfl⟩
  · exact stable
  · exact stable.trans (Image.stableFor_of_stage stage job.file)

/-! ### Names in operands -/

/-- A name of the record has been bound in `p`.  If it stands for a symbol there, then what it has
been bound to stands for this symbol in `q`. -/
def Record.StaysBound (r : Record) (p q : Program) (name bound : String) : Prop :=
  match p.resolve r.file name r.scope with
  | .ok (some id) =>
    p.symbols.mangled? id = some bound ∧ q.resolve r.file bound r.scope = .ok (some id)
  | _ => bound = name

theorem Record.staysBound_of_bindName {r : Record} {p q : Program} {name bound : String}
    {id : Option SymbolId} (sound : p.Sound) (stable : p.StableFor r.file q)
    (h : p.bindName r.file r.scope name = .ok (bound, id)) : r.StaysBound p q name bound := by
  unfold StaysBound
  rcases Program.bindName_eq_ok h with ⟨-, same, none⟩ | ⟨x, -, early, named⟩
  · split
    · next found => exact absurd found (none _)
    · exact same
  · rw [early]
    exact ⟨named, sound.resolve_of_stable stable early named⟩

/-- The operands of the records are those of the lines with their names bound, each in the program
as it was when its line was reached, and what they have been bound to stays so in `final`. -/
def ObjectFile.StaysBound (o : ObjectFile) (u : Session) (final : Program) : Prop :=
  ∀ r ∈ o.records, ∀ op, r.content = .operation op → ∃ above line below build v written,
    o.lines = above ++ line :: below ∧ r.line = line.number ∧
    o.source.buildLines o.table above u = .ok build v ∧
    line.statement.body = .instruction op.op written ∧
    List.Forall₂ (Expr.Bound (r.StaysBound v.program final)) written op.operands

theorem ObjectFile.Stages.staysBound {options : Options} {text : String} {o : ObjectFile}
    {s t u : Session} {build : SourceFile.Build} {final : Program}
    (h : o.Stages options text s u t build) (sound : u.program.Sound)
    (stable : u.program.StableFor o.file final) : o.StaysBound u final := by
  intro r member op isOperation
  rw [h.records] at member
  have record := h.built.1.records r member
  rcases record.content with isMark | ⟨above, line, below, split, number, -, -, stands⟩
  · cases isOperation.symm.trans isMark
  rw [isOperation] at stands
  obtain ⟨written, body, bound⟩ := stands
  obtain ⟨first, v, _, _, hFirst, -, reading⟩ := h.reaches split
  have notes := reading.session.program
  have stays : v.program.StableFor r.file final := by
    rw [record.file]
    exact (Program.StableFor.of_table notes.table.symm).trans stable
  refine ⟨above, line, below, first, v, written, split, number, hFirst, body, bound.imp ?_⟩
  intro e e' related
  refine related.imp_of_mem fun name bound _ ⟨id, binds⟩ => ?_
  have bindsHere : v.program.bindName r.file r.scope name = .ok (bound, id) := by
    rw [notes.bindName, record.file, binds]
  exact Record.staysBound_of_bindName (sound.of_notes notes) stays bindsHere

/-- What a name in a file has been bound to stands for the same symbol in all that becomes of the
program, if no two files are called the same. -/
theorem ObjectFile.staysBound_of_after {before later : List Job} {job : Job} {o : ObjectFile}
    {final : Program} (distinct : ((before ++ job :: later).map fun job => fileName job.file).Nodup)
    (assembled : job.object? (Session.empty.after before) = some o)
    (ends : final = (Session.empty.after (before ++ job :: later)).program ∨
      ∃ image, Image.Stage (Session.empty.after (before ++ job :: later)).program image ∧
        final = image.program) :
    ∃ u, o.BuiltIn job.options job.text (Session.empty.after before) u ∧ o.StaysBound u final := by
  have run := Job.assemble_of_object? assembled
  obtain ⟨file, u, build, stages⟩ := stages_of_assemble run
  have sound := stages.declared.sound (Session.sound_after before).1
  have stable : u.program.StableFor o.file final := by
    -- While the lines are read the table stands still.
    have read := stages.built.1.session.program.table
    rw [file]
    exact (Program.StableFor.of_table read).trans (Session.stableFor_end distinct ends)
  exact ⟨u, stages.builtIn, stages.staysBound sound stable⟩

/-- Hidden, local, shared and mangled names, and a name that stands for nothing yet.  Of the files
behind, one fails below a label of a name that is used, and one has such a label. -/
theorem ObjectFile.staysBound_four_files :
    let a : Job := ⟨{}, "a.s", ".hidden work\n:work set a, 1\n:main jsr work"⟩
    let b : Job := ⟨{}, "b.s", ".hidden low\n:low set a, 2\n:.loop set pc, .loop\n" ++
      ":run set [low], main\nset [a.s$$work], work"⟩
    let c : Job := ⟨{}, "c.s", ":low jsr work\n.word zzz"⟩
    let d : Job := ⟨{}, "d.s", ".hidden main\n:main set a, 4\n:work jsr run\n:low jsr main"⟩
    ∃ o image, b.object? (Session.empty.after [a]) = some o ∧
      o.records.map (fun r => r.content.render) = ["set a, 0x2", "set pc, b.s$$low$$.loop",
        "set [b.s$$low], main", "set [a.s$$work], work"] ∧
      Image.Stage (Session.empty.after [a, b, c, d]).program image ∧
      ∃ u, o.BuiltIn b.options b.text (Session.empty.after [a]) u ∧
        o.StaysBound u image.program := by
  intro a b c d
  have assembled : (b.object? (Session.empty.after [a])).map (fun o =>
      o.records.map fun r => r.content.render) = some ["set a, 0x2", "set pc, b.s$$low$$.loop",
        "set [b.s$$low], main", "set [a.s$$work], work"] := by
    decide +kernel
  let objects := [a.object? Session.empty, b.object? (Session.empty.after [a]),
    d.object? (Session.empty.after [a, b, c])].reduceOption
  have linked :
      (Image.link (Session.empty.after [a, b, c, d]).program objects {}).toOption.isSome := by
    decide +kernel
  obtain ⟨o, present, records⟩ := Option.map_eq_some_iff.mp assembled
  obtain ⟨image, hImage⟩ := Option.isSome_iff_exists.mp linked
  have stage := Image.Stage.linked (Runs.eq_ok_of_toOption hImage)
  refine ⟨o, image, present, records, stage, ?_⟩
  have distinct : (([a] ++ b :: [c, d]).map fun job => fileName job.file).Nodup := by decide
  exact staysBound_of_after distinct present (.inr ⟨image, stage, rfl⟩)

end Dcpu16
