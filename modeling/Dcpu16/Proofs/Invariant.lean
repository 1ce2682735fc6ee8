import Dcpu16.Proofs.Linking
import Mathlib.Data.List.Sort

/-! The invariant of programs.  Every name in the table is the mangled name of its symbol, and
parents and locals fit together.  The empty program has it, and it is kept by assembling a file,
whether that succeeds or fails, and by linking, placing and filling an image. -/

namespace Dcpu16

/-! ### Programs on their way -/

/-- A file to be assembled. -/
structure Job where
  options : Options
  file : String
  text : String
  deriving DecidableEq, Repr

/-- Assemble a file.  The session goes on with what that leaves, whether it succeeds or fails. -/
def Session.next (s : Session) (job : Job) : Session :=
  match ObjectFile.assemble job.options job.file job.text s with
  | .ok _ t => t
  | .error _ t => t

/-- The file as it is assembled in a session, if that succeeds. -/
def Job.object? (job : Job) (s : Session) : Option ObjectFile :=
  match ObjectFile.assemble job.options job.file job.text s with
  | .ok o _ => some o
  | .error _ _ => none

theorem Job.assemble_of_object? {job : Job} {s : Session} {o : ObjectFile}
    (h : job.object? s = some o) :
    ObjectFile.assemble job.options job.file job.text s = .ok o (s.next job) := by
  unfold object? at h
  unfold Session.next
  cases run : ObjectFile.assemble job.options job.file job.text s with
  | ok o' t =>
    rw [run] at h
    rw [Option.some.inj h]
  | error e t =>
    rw [run] at h
    cases h

/-- Assemble files one after the other. -/
def Session.after (s : Session) (jobs : List Job) : Session :=
  jobs.foldl next s

/-- An image of the program.  It has been linked, and then placed and filled any number of times and
with any outcome. -/
inductive Image.Stage (p : Program) : Image → Prop
  | linked {objects : List ObjectFile} {options : Options} {image : Image}
      (h : link p objects options = .ok image) : Stage p image
  | placed {image : Image} (before : Stage p image) : Stage p image.place.2
  | filled {image : Image} (before : Stage p image) : Stage p image.fill.2.2

namespace Program

/-- The invariant of programs.  The table has each name once, and it is the mangled name of its
symbol; a parent comes before its locals, has no parent itself and lists all of them; a scoped
symbol has a parent, and every symbol is bound to a record. -/
structure WellFormed (p : Program) : Prop where
  distinct : p.table.names.Nodup
  named : ∀ entry ∈ p.table.entries,
    entry.2 < p.symbols.size ∧ p.symbols.mangled? entry.2 = some entry.1
  parent : ∀ ⦃x : Nat⦄ ⦃sym : Symbol⦄ ⦃y : Nat⦄, p.symbols.get? x = some sym →
    sym.parent = some y → y < x ∧ ∃ above, p.symbols.get? y = some above ∧ above.parent = none
  -- All symbols that have this one as their parent, in their order.
  locals : ∀ ⦃x : Nat⦄ ⦃sym : Symbol⦄, p.symbols.get? x = some sym →
    sym.locals = (List.range p.symbols.size).filter fun y =>
      (p.symbols.get? y).bind Symbol.parent = some x
  owned : ∀ ⦃x : Nat⦄ ⦃sym : Symbol⦄, p.symbols.get? x = some sym →
    sym.visibility = .scoped → sym.parent.isSome
  defined : ∀ ⦃x : Nat⦄ ⦃sym : Symbol⦄, p.symbols.get? x = some sym → sym.definition.isSome

/-- What carries the invariant from file to file.  It also holds while a file is assembled. -/
structure Sound (p : Program) : Prop where
  distinct : p.table.names.Nodup
  named : p.Named
  linked : p.symbols.Linked 0

/-- Every symbol is bound to a record. -/
def AllDefined (p : Program) : Prop :=
  ∀ ⦃x : Nat⦄ ⦃sym : Symbol⦄, p.symbols.get? x = some sym → sym.definition.isSome

variable {p q : Program}

theorem Sound.wellFormed (h : p.Sound) (defined : p.AllDefined) : p.WellFormed := by
  constructor
  · exact h.distinct
  · intro entry member
    have named := h.named _ _ (NameTable.find?_of_mem h.distinct member)
    obtain ⟨sym, found⟩ := SymbolStore.exists_get?_of_mangled? named
    exact ⟨SymbolStore.lt_size_of_get? found, named⟩
  · intro x sym y found parent
    obtain ⟨⟨-, less⟩, above⟩ := h.linked.parent (Nat.zero_le x) found parent
    exact ⟨less, above⟩
  · intro x sym found
    -- Both lists ascend, so it is enough that they have the same members.
    refine (h.linked.ascending (Nat.zero_le x) found).eq_of_mem_iff
      (List.pairwise_lt_range.filter _) fun y => ?_
    rw [h.linked.locals (Nat.zero_le x) found, List.mem_filter, List.mem_range]
    simp only [Nat.zero_le, true_and, decide_eq_true_eq, Option.bind_eq_some_iff]
    refine ⟨fun isChild => ⟨?_, isChild⟩, And.right⟩
    obtain ⟨child, hChild, -⟩ := isChild
    exact SymbolStore.lt_size_of_get? hChild
  · intro x sym found isScoped
    have visible : sym.visibility ≠ .hidden := by simp [isScoped]
    exact (h.linked.visibility (Nat.zero_le x) found visible).mp isScoped
  · exact defined

/-! ### New symbols and new names -/

theorem Sound.extend (h : p.Sound) (extends_ : p.Extends q)
    (linked : q.symbols.Linked p.symbols.size) (distinct : q.table.names.Nodup)
    (new : ∀ key x, q.table.find? key = some x → p.table.find? key = none →
      q.symbols.mangled? x = some key) : q.Sound := by
  refine ⟨distinct, fun key x found => ?_, h.linked.join extends_.symbols linked⟩
  cases old : p.table.find? key with
  | none => exact new key x found old
  | some y =>
    have same := (NameTable.find?_of_prefix extends_.names old).symm.trans found
    obtain rfl := Option.some.inj same
    exact extends_.symbols.identityIn.mangled? (h.named key y old)

/-- The names of a table that are new are taken over from it. -/
theorem Sound.joined {table : SymbolTable} (h : p.Sound)
    (shared : q.table = p.table.joined table.entries) (remain : p.symbols.RemainIn q.symbols)
    (linked : q.symbols.Linked p.symbols.size) (distinct : table.names.Nodup)
    (new : ∀ key x, table.find? key = some x → q.symbols.mangled? x = some key) : q.Sound := by
  have extends_ : p.Extends q := by
    refine ⟨?_, remain⟩
    rw [shared]
    exact List.prefix_append _ _
  refine h.extend extends_ linked ?_ fun key x found fresh => ?_
  · rw [shared]
    exact NameTable.names_joined_nodup h.distinct distinct
  · rw [shared, NameTable.find?_joined, fresh] at found
    exact new key x found

theorem AllDefined.extend (h : p.AllDefined) (remain : p.symbols.RemainIn q.symbols)
    (new : ∀ ⦃x : Nat⦄ ⦃sym : Symbol⦄, p.symbols.size ≤ x → q.symbols.get? x = some sym →
      sym.definition.isSome) : q.AllDefined :=
  remain.forall_get? (P := fun sym => sym.definition.isSome) (fun _ _ h => h) h new

end Program

theorem ObjectFile.Made.sound {o : ObjectFile} {p q : Program} (made : o.Made p q) (h : p.Sound) :
    q.Sound :=
  h.joined made.table made.extends_.symbols made.linked made.distinct made.mangled

theorem SourceFile.LabelsDeclared.sound {source : SourceFile} {table : SymbolTable} {p q : Program}
    (declared : LabelsDeclared source table p q) (h : p.Sound) : q.Sound :=
  h.joined declared.shared declared.remain declared.names.linked declared.distinct
    fun _ _ found => (declared.names.lists.sound found).2

theorem Image.extends_of_addEnd {p q : Program} {id : Nat} (free : p.table.find? endName = none)
    (h : addEnd p = some (id, q)) : p.Extends q := by
  obtain ⟨-, table, symbols⟩ := addEnd_eq_some h
  refine ⟨?_, fun x sym found => ⟨sym, ?_, .refl sym⟩⟩
  · rw [table, NameTable.insert_new free]
    exact List.prefix_append _ _
  · rw [symbols, if_neg (Nat.ne_of_lt (SymbolStore.lt_size_of_get? found)), found]

theorem Image.new_of_addEnd {p q : Program} {id x : Nat} {sym : Symbol}
    (h : addEnd p = some (id, q)) (hx : p.symbols.size ≤ x) (found : q.symbols.get? x = some sym) :
    x = p.symbols.size ∧ sym = endMark := by
  obtain ⟨-, -, symbols⟩ := addEnd_eq_some h
  rw [symbols] at found
  split at found
  · next last => exact ⟨last, (Option.some.inj found).symm⟩
  · exact absurd (SymbolStore.lt_size_of_get? found) (Nat.not_lt.mpr hx)

theorem Image.linked_of_addEnd {p q : Program} {id : Nat} (h : addEnd p = some (id, q)) :
    q.symbols.Linked p.symbols.size := by
  -- The end symbol has no parent, and it is no parent.
  constructor
  · intro x sym y hx found parent
    obtain ⟨-, rfl⟩ := new_of_addEnd h hx found
    cases parent
  · intro x sym hx found y
    obtain ⟨-, rfl⟩ := new_of_addEnd h hx found
    refine ⟨fun member => (nomatch member), fun ⟨hy, child, hChild, isChild⟩ => ?_⟩
    obtain ⟨-, rfl⟩ := new_of_addEnd h hy hChild
    cases isChild
  all_goals
    intro x sym hx found
    obtain ⟨-, rfl⟩ := new_of_addEnd h hx found
  · exact List.Pairwise.nil
  · decide
  · decide
  · decide

theorem Image.sound_of_addEnd {p q : Program} {id : Nat} (free : p.table.find? endName = none)
    (h : addEnd p = some (id, q)) (before : p.Sound ∧ p.AllDefined) : q.Sound ∧ q.AllDefined := by
  have extends_ := extends_of_addEnd free h
  obtain ⟨rfl, table, symbols⟩ := addEnd_eq_some h
  refine ⟨before.1.extend extends_ (linked_of_addEnd h) ?_ fun key x found fresh => ?_,
    before.2.extend extends_.symbols fun x sym hx found => ?_⟩
  · rw [table]
    exact NameTable.names_insert_nodup before.1.distinct _ _
  · rw [table, NameTable.find?_insert, fresh] at found
    split at found
    · next isEnd =>
      obtain rfl := Option.some.inj found
      have here : q.symbols.get? p.symbols.size = some endMark := by rw [symbols, if_pos rfl]
      rw [SymbolStore.mangled?_own here (.inl rfl), isEnd]
      rfl
    · cases found
  · obtain ⟨-, rfl⟩ := new_of_addEnd h hx found
    rfl

/-! ### Notes about symbols -/

/-- The part of a symbol that is final once its file has been assembled. -/
def Symbol.settled (sym : Symbol) : Symbol :=
  { sym with referenced := false, address := none }

namespace SymbolStore

variable {s t u : SymbolStore}

/-- The symbols of both stores differ at most in their address and in whether anything refers to
them. -/
def SameSettled (s t : SymbolStore) : Prop :=
  ∀ x, (t.get? x).map Symbol.settled = (s.get? x).map Symbol.settled

namespace SameSettled

theorem refl (s : SymbolStore) : s.SameSettled s := fun _ => rfl

theorem trans (h : s.SameSettled t) (h' : t.SameSettled u) : s.SameSettled u :=
  fun x => (h' x).trans (h x)

theorem modify (s : SymbolStore) (id : Nat) {f : Symbol → Symbol}
    (keeps : ∀ sym, (f sym).settled = sym.settled) : s.SameSettled (s.modify id f) := by
  intro x
  rw [get?_modify]
  split
  · cases s.get? x <;> simp [keeps]
  · rfl

theorem markReferenced (ids : List SymbolId) (s : SymbolStore) :
    s.SameSettled (ids.foldl SymbolStore.markReferenced s) := by
  induction ids generalizing s with
  | nil => exact .refl s
  | cons id ids ih =>
    have first : s.SameSettled (s.markReferenced id) := modify s id fun _ => rfl
    exact first.trans (ih _)

theorem setAddresses {ids : List SymbolId} {word : Word}
    (h : ids.foldlM (fun s id => s.setAddress? id word) s = some t) : s.SameSettled t := by
  refine Runs.foldlM_some_keeps s.SameSettled (fun id _ u v before step => ?_) (.refl s) h
  simp only [setAddress?, Option.ite_none_right_eq_some, Option.some.injEq] at step
  obtain ⟨-, rfl⟩ := step
  exact before.trans (modify u id fun _ => rfl)

theorem of_remain (remain : s.RemainIn t) (size : t.size = s.size) : s.SameSettled t := by
  intro x
  cases found : t.get? x with
  | some sym =>
    rcases remain.get?_cases found with ⟨old, hOld, same, -⟩ | behind
    · rw [hOld, same]
      rfl
    · have inside := lt_size_of_get? found
      omega
  | none =>
    cases before : s.get? x with
    | none => rfl
    | some sym =>
      obtain ⟨later, hLater, -⟩ := remain before
      cases found.symm.trans hLater

theorem unmarked (h : s.SameSettled t) : t.unmarked = s.unmarked := by
  apply ext_get?
  intro x
  have settled := congrArg (Option.map Symbol.unmarked) (h x)
  rw [Option.map_map, Option.map_map] at settled
  rw [get?_unmarked, get?_unmarked]
  exact settled

end SameSettled

end SymbolStore

namespace Program

variable {p q : Program}

theorem Sound.of_notes (h : p.Sound) (notes : p.UpToNotes q) : q.Sound := by
  refine ⟨notes.table ▸ h.distinct, fun key x found => ?_, h.linked.of_unmarked notes.symbols⟩
  rw [SymbolStore.mangled?_of_unmarked notes.symbols]
  exact h.named key x (notes.table ▸ found)

theorem Sound.of_settled (h : p.Sound) (table : q.table = p.table)
    (same : p.symbols.SameSettled q.symbols) : q.Sound :=
  h.of_notes ⟨table, same.unmarked⟩

theorem AllDefined.of_settled (h : p.AllDefined) (same : p.symbols.SameSettled q.symbols) :
    q.AllDefined := by
  intro x sym found
  have settled := same x
  rw [found, Option.map_some, eq_comm, Option.map_eq_some_iff] at settled
  obtain ⟨old, hOld, equal⟩ := settled
  have same : old.settled.definition = sym.settled.definition := congrArg Symbol.definition equal
  rw [show sym.definition = old.definition from same.symm]
  exact h hOld

end Program

section Placing

variable {P : SymbolStore → Prop}
  (keeps : ∀ {s t : SymbolStore} {ids : List SymbolId} {word : Word},
    ids.foldlM (fun s id => s.setAddress? id word) s = some t → P s → P t)

include keeps

/-- What setting addresses keeps, placing records keeps, however it ends. -/
theorem Record.placeAll_keeps {symbols : SymbolStore} (address : Nat) (rs : List Record)
    (h : P symbols) : P (placeAll symbols address rs).symbols := by
  induction rs generalizing symbols address with
  | nil => exact h
  | cons r rs ih =>
    unfold placeAll
    split
    · exact h
    · split
      · exact h
      · next placed =>
        obtain ⟨-, set⟩ := placeAt?_eq_some placed
        exact ih _ (keeps set h)

theorem Image.place_keeps (image : Image) (h : P image.program.symbols) :
    P image.place.2.program.symbols := by
  have records := Record.placeAll_keeps keeps image.baseAddress.toNat image.records h
  unfold place
  dsimp only
  split
  · exact records
  · unfold placeSentinel
    dsimp only
    split
    · exact records
    · split
      · next placed =>
        obtain ⟨-, set⟩ := Record.placeAt?_eq_some placed
        exact keeps set records
      · exact records

end Placing

theorem Record.settled_of_placeAll (symbols : SymbolStore) (address : Nat) (rs : List Record) :
    symbols.SameSettled (placeAll symbols address rs).symbols :=
  placeAll_keeps (P := symbols.SameSettled) (fun set before => before.trans (.setAddresses set))
    address rs (.refl symbols)

namespace Image

theorem table_place (image : Image) : image.place.2.program.table = image.program.table := by
  unfold place
  dsimp only
  split
  · rfl
  · unfold placeSentinel
    dsimp only
    split
    · rfl
    · split <;> rfl

theorem settled_of_place (image : Image) :
    image.place.2.program.table = image.program.table ∧
      image.program.symbols.SameSettled image.place.2.program.symbols :=
  ⟨image.table_place, place_keeps (P := image.program.symbols.SameSettled)
    (fun set before => before.trans (.setAddresses set)) image (.refl _)⟩

theorem settled_of_fill (image : Image) :
    image.fill.2.2.program.table = image.program.table ∧
      image.program.symbols.SameSettled image.fill.2.2.program.symbols := by
  unfold fill
  dsimp only
  split <;> exact ⟨rfl, .markReferenced _ _⟩

end Image

/-! ### Whole runs -/

namespace Session

/-- A file adds its symbols to the program, or it fails and the program is as before. -/
theorem next_cases (s : Session) (job : Job) :
    (∃ o : ObjectFile, o.file = job.file ∧ o.Made s.program (s.next job).program) ∨
      ((s.next job).program.table = s.program.table ∧
        s.program.symbols.SameSettled (s.next job).program.symbols) := by
  unfold next
  cases run : ObjectFile.assemble job.options job.file job.text s with
  | ok o t => exact .inl ⟨o, ObjectFile.made_of_assemble run⟩
  | error e t =>
    obtain ⟨table, size, remain⟩ := ObjectFile.restored_of_error run
    exact .inr ⟨table, .of_remain remain size⟩

theorem after_keeps {P : Program → Prop} {jobs : List Job}
    (step : ∀ s, ∀ job ∈ jobs, P (program s) → P (s.next job).program) {s : Session}
    (start : P s.program) : P (s.after jobs).program := by
  induction jobs generalizing s with
  | nil => exact start
  | cons job jobs ih =>
    have first := step s job List.mem_cons_self start
    exact ih (fun t other member => step t other (List.mem_cons_of_mem job member)) first

theorem sound_next {s : Session} (before : s.program.Sound ∧ s.program.AllDefined) (job : Job) :
    (s.next job).program.Sound ∧ (s.next job).program.AllDefined := by
  rcases s.next_cases job with ⟨o, -, made⟩ | ⟨table, same⟩
  · exact ⟨made.sound before.1, before.2.extend made.extends_.symbols made.defined⟩
  · exact ⟨before.1.of_settled table same, before.2.of_settled same⟩

theorem get?_empty (x : Nat) : empty.program.symbols.get? x = none := by
  simp [empty, Program.empty, SymbolStore.empty, SymbolStore.get?]

theorem sound_empty : empty.program.Sound ∧ empty.program.AllDefined := by
  refine ⟨⟨List.nodup_nil, fun key x found => ?_, SymbolStore.linked_size _⟩,
    fun x sym found => ?_⟩
  · cases found
  · cases (get?_empty x).symm.trans found

theorem sound_after (jobs : List Job) :
    (empty.after jobs).program.Sound ∧ (empty.after jobs).program.AllDefined :=
  after_keeps (P := fun p => p.Sound ∧ p.AllDefined)
    (fun _ job _ before => sound_next before job) sound_empty

/-- Every symbol has its place in one of the files. -/
theorem file_mem_after {jobs : List Job} {x : Nat} {sym : Symbol}
    (found : (empty.after jobs).program.symbols.get? x = some sym) :
    sym.place.file ∈ jobs.map Job.file := by
  refine after_keeps (P := fun p => ∀ ⦃x : Nat⦄ ⦃sym : Symbol⦄, p.symbols.get? x = some sym →
    sym.place.file ∈ jobs.map Job.file) (fun s job member before => ?_) (fun x sym found => ?_)
    found
  · rcases s.next_cases job with ⟨o, same, made⟩ | ⟨-, same⟩
    · refine made.extends_.symbols.forall_get? (P := fun sym => sym.place.file ∈ jobs.map Job.file)
        (fun _ _ h => h) before fun x sym behind found => ?_
      rw [made.ofFile.file behind found, same]
      exact List.mem_map_of_mem member
    · intro x sym found
      obtain ⟨old, hOld, -, place, -⟩ :=
        (SymbolStore.SameOrigins.of_unmarked same.unmarked).get? found
      exact place ▸ before hOld
  · cases (get?_empty x).symm.trans found

end Session

theorem Image.sound_of_stage {p : Program} {image : Image} (stage : Stage p image)
    (before : p.Sound ∧ p.AllDefined) : image.program.Sound ∧ image.program.AllDefined := by
  induction stage with
  | linked h =>
    obtain ⟨free, id, q, first, hEnd, -, rfl⟩ := link_eq_ok h
    exact sound_of_addEnd free hEnd before
  | @placed image _ ih =>
    obtain ⟨table, same⟩ := image.settled_of_place
    exact ⟨ih.1.of_settled table same, ih.2.of_settled same⟩
  | @filled image _ ih =>
    obtain ⟨table, same⟩ := image.settled_of_fill
    exact ⟨ih.1.of_settled table same, ih.2.of_settled same⟩

theorem Assembled.sound {p q : Program} {sources : List (String × String)}
    {objects : List ObjectFile} (files : Assembled p sources objects q)
    (before : p.Sound ∧ p.AllDefined) : q.Sound ∧ q.AllDefined := by
  induction files with
  | nil p => exact before
  | cons _ made _ ih =>
    exact ih ⟨made.sound before.1, before.2.extend made.extends_.symbols made.defined⟩

/-- An image that was assembled has been linked, placed and filled once. -/
theorem Image.stage_of_assemble {sources : List (String × String)} {options : Options}
    {image : Image} (h : (assemble sources options).result = .ok image) :
    ∃ s, assembleFiles sources options .empty = .ok image.objects s ∧ Stage s.program image := by
  obtain ⟨objects, s, linked, placed, log, files, hLink, hPlace, hFill, -⟩ := assemble_eq_ok h
  obtain ⟨s', files', -⟩ := finished_of_assemble h
  have first : Stage s.program linked := .linked hLink
  have second : Stage s.program placed := by simpa [hPlace] using first.placed
  have third : Stage s.program image := by simpa [hFill] using second.filled
  cases files.symm.trans files'
  exact ⟨s, files, third⟩

theorem Image.sound_of_assemble {sources : List (String × String)} {options : Options}
    {image : Image} (h : (assemble sources options).result = .ok image) :
    image.program.Sound ∧ image.program.AllDefined := by
  obtain ⟨s, files, stage⟩ := stage_of_assemble h
  exact sound_of_stage stage ((assembled_of_assembleFiles files).sound Session.sound_empty)

/-- Whatever files have been assembled, the program is well-formed, and so are its images. -/
theorem Session.wellFormed_after (jobs : List Job) :
    (empty.after jobs).program.WellFormed ∧
      ∀ image, Image.Stage (empty.after jobs).program image → image.program.WellFormed := by
  have reached := sound_after jobs
  refine ⟨reached.1.wellFormed reached.2, fun image stage => ?_⟩
  obtain ⟨sound, defined⟩ := Image.sound_of_stage stage reached
  exact sound.wellFormed defined

/-- A hidden label with a local one, a label that is declared again, a file that fails behind its
labels, and an image that has addresses but cannot be filled. -/
theorem Session.wellFormed_three_files :
    let a : Job := ⟨{}, "a.s", ".hidden work\n:work set a, 1\n:.loop set pc, .loop\n" ++
      ":main jsr work\n:main jsr work\n:.done set pc, .done"⟩
    let b : Job := ⟨{}, "b.s", ":help jsr main\n:.low .word zzz"⟩
    let c : Job := ⟨{}, "c.s", ":main jsr help"⟩
    (empty.after [a, b, c]).program.WellFormed ∧
      ∃ image, Image.Stage (empty.after [a, b, c]).program image ∧ image.program.WellFormed ∧
        image.program.table.entries =
          [("main", 2), ("main$$.done", 3), ("a.s$$work", 0), ("a.s$$work$$.loop", 1),
            ("_end", 5)] ∧
        image.program.symbols.symbols.map Symbol.address =
          [some 0, some 1, some 3, some 7, some 9, some 11] := by
  intro a b c
  obtain ⟨wellFormed, images⟩ := wellFormed_after [a, b, c]
  let objects := [a.object? empty, c.object? (empty.after [a, b])].reduceOption
  have evaluated :
      (Image.link (empty.after [a, b, c]).program objects {}).toOption.map (fun image =>
        let last := image.place.2.fill.2.2.program
        (last.table.entries, last.symbols.symbols.map Symbol.address)) =
        some ([("main", 2), ("main$$.done", 3), ("a.s$$work", 0), ("a.s$$work$$.loop", 1),
          ("_end", 5)], [some 0, some 1, some 3, some 7, some 9, some 11]) := by
    decide +kernel
  obtain ⟨image, linked, same⟩ := Option.map_eq_some_iff.mp evaluated
  have stage := (Image.Stage.linked (Runs.eq_ok_of_toOption linked)).placed.filled
  obtain ⟨entries, addresses⟩ := Prod.mk.inj same
  exact ⟨wellFormed, _, stage, images _ stage, entries, addresses⟩

end Dcpu16
