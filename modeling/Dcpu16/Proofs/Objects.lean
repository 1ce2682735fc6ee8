import Dcpu16.Image
import Dcpu16.Proofs.Stages

/-! What an assembled file adds to a program, and the files of a program one after the other. -/

namespace Dcpu16

open Assembler

namespace ObjectFile

/-- The file has been assembled, and the program has come from `p` to `q` by that.  The symbols of
the file are those from the end of `p` on.  Each stands for a label of the file, has its name in the
table of the file, and is bound to one record. -/
structure Made (o : ObjectFile) (p q : Program) : Prop where
  read : o.source.WellRead
  extends_ : p.Extends q
  table : q.table = p.table.joined o.table.entries
  distinct : o.table.names.Nodup
  linked : q.symbols.Linked p.symbols.size
  ofFile : q.symbols.OfFile p.symbols.size o.file
  declared : q.symbols.Declared p.symbols.size o.file (SourceLine.declarations o.lines)
  key : ∀ key x, o.table.find? key = some x ↔ p.symbols.size ≤ x ∧ ∃ owner name,
    q.symbols.IsLabel x owner name ∧ key = Symbol.keyIn o.file o.hiddenNames owner name
  mangled : ∀ key x, o.table.find? key = some x → q.symbols.mangled? x = some key
  bound : (o.records.flatMap Record.defined).Nodup
  mem_bound : ∀ x : Nat, x ∈ o.records.flatMap Record.defined ↔
    p.symbols.size ≤ x ∧ x < q.symbols.size
  records : ∀ r ∈ o.records, SourceFile.RecordOf o.source q p.symbols.size r
  defined : ∀ ⦃x : Nat⦄ ⦃sym : Symbol⦄, p.symbols.size ≤ x → q.symbols.get? x = some sym →
    sym.definition.isSome

/-- A symbol of the file is bound to a record. -/
theorem Stages.mem_bound {options : Options} {text : String} {o : ObjectFile} {s t u : Session}
    {build : SourceFile.Build} (h : o.Stages options text s u t build) {x : Nat}
    (new : s.program.symbols.size ≤ x) (inside : x < u.program.symbols.size) :
    x ∈ o.records.flatMap Record.defined := by
  obtain ⟨built, pending⟩ := h.built
  obtain ⟨sym, found⟩ := SymbolStore.exists_get? inside
  obtain ⟨d, first, -⟩ := h.declared.names.declared.place new found
  have labels := List.find?_some first
  simp only [decide_eq_true_eq] at labels
  obtain ⟨y, hy, member⟩ := built.labels d (List.mem_of_find?_eq_some first)
  rw [labels.1, labels.2] at hy
  have own := h.find?_keyIn new (SymbolStore.isLabel_of_get? found)
  rw [pending, List.append_nil, ← h.records] at member
  exact Option.some.inj (hy.symm.trans own) ▸ member

theorem made_of_assemble {options : Options} {file text : String} {o : ObjectFile} {s t : Session}
    (run : assemble options file text s = .ok o t) :
    o.file = file ∧ o.Made s.program t.program := by
  obtain ⟨hFile, u, build, stages⟩ := stages_of_assemble run
  obtain ⟨built, -⟩ := stages.built
  have names := stages.declared.names
  have notes := built.session.program
  have size := SymbolStore.size_of_unmarked notes.symbols
  have same : u.program.symbols.SameOrigins t.program.symbols := .of_unmarked notes.symbols
  refine ⟨hFile, stages.wellRead, stages.extends_, notes.table.trans stages.declared.shared,
    stages.declared.distinct, names.linked.of_unmarked notes.symbols,
    names.ofFile.of_sameOrigins same, names.declared.of_sameOrigins same, fun key x => ⟨?_, ?_⟩,
    fun key x hKey => ?_, ?_, fun x => ⟨fun member => ?_, fun inside => ?_⟩, fun r member => ?_,
    fun x sym new found => ?_⟩
  · intro hKey
    obtain ⟨new, named⟩ := names.lists.sound hKey
    obtain ⟨sym, hSym⟩ := SymbolStore.exists_get?_of_mangled? named
    have label := SymbolStore.isLabel_of_get? hSym
    obtain ⟨-, named'⟩ := names.lists.sound (stages.find?_keyIn new label)
    exact ⟨new, _, _, label.of_sameOrigins same, Option.some.inj (named.symm.trans named')⟩
  · rintro ⟨new, owner, name, label, rfl⟩
    exact stages.find?_keyIn new (label.of_sameOrigins same.symm)
  · rw [SymbolStore.mangled?_of_unmarked notes.symbols]
    exact (names.lists.sound hKey).2
  · rw [stages.records]
    exact built.distinct
  · rw [stages.records] at member
    rw [size]
    exact built.own x (List.mem_append_left _ member)
  · rw [size] at inside
    exact stages.mem_bound inside.1 inside.2
  · rw [stages.records] at member
    exact (built.records r member).of_notes notes
  · have inside := SymbolStore.lt_size_of_get? found
    rw [size] at inside
    exact (built.session.defined new found).mpr (stages.records ▸ stages.mem_bound new inside)

end ObjectFile

/-- The names in the table of the program are the mangled names of its symbols. -/
def Program.Named (p : Program) : Prop :=
  ∀ key x, p.table.find? key = some x → p.symbols.mangled? x = some key

theorem ObjectFile.Made.named {o : ObjectFile} {p q : Program} (h : o.Made p q) (before : p.Named) :
    q.Named := by
  intro key x found
  rw [h.table, NameTable.find?_joined, Option.or_eq_some_iff] at found
  rcases found with old | ⟨-, new⟩
  · exact h.extends_.symbols.identityIn.mangled? (before key x old)
  · exact h.mangled key x new

/-- The files have been assembled one after the other, and the program has come from `p` to `r` by
that. -/
inductive Assembled : Program → List (String × String) → List ObjectFile → Program → Prop
  | nil (p : Program) : Assembled p [] [] p
  | cons {p q r : Program} {source : String × String} {sources : List (String × String)}
      {o : ObjectFile} {objects : List ObjectFile} (file : o.file = source.1) (made : o.Made p q)
      (rest : Assembled q sources objects r) : Assembled p (source :: sources) (o :: objects) r

theorem assembled_of_assembleFiles {sources : List (String × String)} {options : Options}
    {objects : List ObjectFile} {s t : Session}
    (run : assembleFiles sources options s = .ok objects t) :
    Assembled s.program sources objects t.program := by
  unfold assembleFiles at run
  induction sources generalizing s objects with
  | nil =>
    simp only [List.mapM_nil, pure_apply, EStateM.Result.ok.injEq] at run
    obtain ⟨rfl, rfl⟩ := run
    exact .nil _
  | cons source sources ih =>
    rw [List.mapM_cons] at run
    obtain ⟨o, u, first, run₁⟩ := bind_eq_ok.mp run
    obtain ⟨others, v, later, last⟩ := bind_eq_ok.mp run₁
    simp only [pure_apply, EStateM.Result.ok.injEq] at last
    obtain ⟨rfl, rfl⟩ := last
    obtain ⟨file, made⟩ := ObjectFile.made_of_assemble first
    exact .cons file made (ih later)

namespace Assembled

variable {p q r : Program} {sources : List (String × String)} {objects : List ObjectFile}
  {o : ObjectFile}

theorem extends_ (h : Assembled p sources objects r) : p.Extends r := by
  induction h with
  | nil p => exact .refl p
  | cons _ made _ ih => exact made.extends_.trans ih

theorem files (h : Assembled p sources objects r) :
    objects.map ObjectFile.file = sources.map Prod.fst := by
  induction h with
  | nil p => rfl
  | cons file _ _ ih => rw [List.map_cons, List.map_cons, file, ih]

/-- A name stands for what the first file that has it in its table says. -/
theorem find? (h : Assembled p sources objects r) (key : String) :
    r.table.find? key =
      (p.table.find? key).or (objects.findSome? fun o => o.table.find? key) := by
  induction h with
  | nil p => simp
  | cons _ made _ ih =>
    rw [ih, made.table, NameTable.find?_joined, List.findSome?_cons, Option.or_assoc]
    congr 1
    rename_i o _ _ _
    show (o.table.find? key).or _ = _
    cases o.table.find? key <;> rfl

/-- Every file of the program has been assembled at some point on the way. -/
theorem made_of_mem (h : Assembled p sources objects r) (member : o ∈ objects) :
    ∃ before after, o.Made before after ∧ (p.Named → after.Named) ∧ after.Extends r := by
  induction h with
  | nil p => simp at member
  | cons _ made rest ih =>
    rcases List.mem_cons.mp member with rfl | later
    · exact ⟨_, _, made, made.named, rest.extends_⟩
    · obtain ⟨before, after, made', named, until_⟩ := ih later
      exact ⟨before, after, made', fun start => named (made.named start), until_⟩

/-- The records of all files bind every symbol that they have made, each once. -/
theorem bound (h : Assembled p sources objects r) :
    ((objects.flatMap ObjectFile.records).flatMap Record.defined).Nodup ∧
      ∀ x : Nat, x ∈ (objects.flatMap ObjectFile.records).flatMap Record.defined ↔
        p.symbols.size ≤ x ∧ x < r.symbols.size := by
  induction h with
  | nil p =>
    refine ⟨by simp, fun x => ?_⟩
    simp
  | cons _ made rest ih =>
    rename_i p q r _ _ o objects _
    obtain ⟨distinct, member⟩ := ih
    have first := made.extends_.symbols.size_le
    have later := rest.extends_.symbols.size_le
    rw [List.flatMap_cons, List.flatMap_append]
    refine ⟨List.nodup_append.mpr ⟨made.bound, distinct, fun (x : Nat) hx (y : Nat) hy same => ?_⟩,
      fun x => ?_⟩
    · subst same
      have := (made.mem_bound x).mp hx
      have := (member x).mp hy
      omega
    · rw [List.mem_append, made.mem_bound x, member x]
      omega

end Assembled

end Dcpu16
