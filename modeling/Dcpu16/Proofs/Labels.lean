import Dcpu16.Proofs.Atomicity
import Dcpu16.Proofs.SymbolLabels

/-! The symbols that the labels of a file become.  Each label has one symbol, made where the label
is declared first, and it stands in the table of the file under its mangled name. -/

namespace Dcpu16.SourceFile

open Assembler

variable {source : SourceFile} {policy : Redefinition} {line : SourceLine} {label : Label}
  {labels labels' : Labels} {s t : Session} {n : Nat} {done : List SourceLine}

/-! ### One label -/

theorem redefine_eq_ok {name : String} {first : Place} {u : Unit}
    (run : source.redefine policy name line first s = .ok u t) : t.program = s.program :=
  ((keeps_redefine (P := fun t => t.program = s.program) (fun _ _ h => h) name line first s
    rfl).ok run).1

theorem parentOf_eq_ok {owner parent : Option SymbolId}
    (run : source.parentOf line label owner s = .ok parent t) :
    t = s ∧ parent = (if label.isLocal then owner else none) ∧ (label.isLocal → owner.isSome) := by
  unfold parentOf at run
  split at run
  · next isLocal =>
    cases owner with
    | none => simp at run
    | some id =>
      simp at run
      simp [← run.1, run.2, isLocal]
  · next notLocal =>
    simp at run
    simp [run, notLocal]

/-- The name of a label below a parent, by the mangled name of the parent. -/
def IsKey (symbols : SymbolStore) (label : Label) (key : String) : Option SymbolId → Prop
  | none => key = label.name
  | some p => ∃ front, symbols.mangled? p = some front ∧ key = Symbol.localName front label.name

theorem labelKey_eq_ok {parent : Option SymbolId} {key : String}
    (run : labelKey label parent s = .ok key t) :
    t = s ∧ IsKey s.program.symbols label key parent := by
  cases parent with
  | none =>
    simp [labelKey] at run
    simp [IsKey, run]
  | some p =>
    obtain ⟨front, u, found, last⟩ := bind_eq_ok.mp run
    obtain ⟨hFront, rfl⟩ := mangled_eq_ok.mp found
    simp at last
    exact ⟨last.2.symm, front, hFront, last.1.symm⟩

/-- What the label of a line does: it is in the table already, or it becomes a new symbol. -/
theorem addLabel_eq_ok (hLabel : line.statement.label = some label)
    (run : source.addLabel policy labels line s = .ok labels' t) :
    ∃ parent key, parent = (if label.isLocal then labels.owner else none) ∧
      (label.isLocal → labels.owner.isSome) ∧ IsKey s.program.symbols label key parent ∧
      ((∃ first, labels.table.find? key = some first ∧ t.program = s.program ∧
          labels' = ⟨labels.table, if parent.isNone then some first else labels.owner⟩) ∨
        (labels.table.find? key = none ∧ ∃ id symbols,
          s.program.symbols.add? ⟨source.file, line.number⟩ label.name parent =
            some (id, symbols) ∧
          t.program = ⟨symbols, s.program.table⟩ ∧
          labels' =
            ⟨labels.table.insert key id, if parent.isNone then some id else labels.owner⟩)) := by
  simp only [addLabel, hLabel] at run
  obtain ⟨parent, u, hParent, rest⟩ := bind_eq_ok.mp run
  obtain ⟨hu, parent_eq, owned⟩ := parentOf_eq_ok hParent
  obtain ⟨key, v, hKey, rest'⟩ := bind_eq_ok.mp rest
  obtain ⟨hv, key_eq⟩ := labelKey_eq_ok hKey
  subst hv hu
  refine ⟨parent, key, parent_eq, owned, key_eq, ?_⟩
  cases found : labels.table.find? key with
  | some first =>
    simp only [found] at rest'
    obtain ⟨sym, w, hSym, last⟩ := bind_eq_ok.mp rest'
    obtain ⟨-, hw⟩ := symbol_eq_ok.mp hSym
    obtain ⟨_, _, redefined, done⟩ := bind_eq_ok.mp last
    simp only [pure_apply, EStateM.Result.ok.injEq] at done
    obtain ⟨rfl, rfl⟩ := done
    exact .inl ⟨first, rfl, hw ▸ redefine_eq_ok redefined, rfl⟩
  | none =>
    simp only [found] at rest'
    obtain ⟨id, w, hAdd, last⟩ := bind_eq_ok.mp rest'
    obtain ⟨symbols, added, hw⟩ := addSymbol_eq_ok.mp hAdd
    simp only [pure_apply, EStateM.Result.ok.injEq] at last
    obtain ⟨rfl, rfl⟩ := last
    exact .inr ⟨rfl, id, symbols, added, hw ▸ rfl, rfl⟩

/-! ### All labels -/

/-- The symbols from `n` on are those of the lines that have been read, and none is hidden yet. -/
structure LabelsRead (source : SourceFile) (n : Nat) (done : List SourceLine) (labels : Labels)
    (s : SymbolStore) : Prop where
  size : n ≤ s.size
  linked : s.Linked n
  ofFile : s.OfFile n source.file
  visible : ∀ ⦃x : Nat⦄ ⦃sym : Symbol⦄, n ≤ x → s.get? x = some sym → sym.visibility ≠ .hidden
  undefined : ∀ ⦃x : Nat⦄ ⦃sym : Symbol⦄, n ≤ x → s.get? x = some sym → sym.definition = none
  table : ∀ key x, labels.table.find? key = some x ↔ n ≤ x ∧
    ∃ owner name, s.IsLabel x owner name ∧ key = Symbol.keyIn source.file [] owner name
  owner : s.OwnerIs n labels.owner (SourceLine.ownerAfter done)
  declared : s.Declared n source.file (SourceLine.declarations done)

namespace LabelsRead

variable {symbols : SymbolStore}

theorem start (symbols : SymbolStore) :
    LabelsRead source symbols.size [] ⟨.empty, none⟩ symbols := by
  have none {x : Nat} {sym : Symbol} (hx : symbols.size ≤ x) : symbols.get? x ≠ some sym :=
    fun found => absurd (SymbolStore.lt_size_of_get? found) (Nat.not_lt.mpr hx)
  refine ⟨Nat.le_refl _, symbols.linked_size, ⟨fun _ _ hx found => absurd found (none hx),
    fun _ _ _ _ hx _ found => absurd found (none hx)⟩,
    fun _ _ hx found => absurd found (none hx), fun _ _ hx found => absurd found (none hx),
    fun key x => ?_, .inl ⟨rfl, rfl⟩,
    ⟨fun _ _ hx found => absurd found (none hx), by simp⟩⟩
  simp only [NameTable.find?_empty, reduceCtorEq, false_iff, not_and]
  rintro hx ⟨owner, name, ⟨sym, found, -⟩, -⟩
  exact none hx found

theorem hides (h : LabelsRead source n done labels symbols) : symbols.Hides n [] :=
  fun _ _ hx found _ => by simp [h.visible hx found]

/-- The name of a label in the table, and the label that its parent stands for. -/
theorem key_eq (h : LabelsRead source n done labels symbols) (simple : Symbol.Simple label.name)
    {parent : Option SymbolId} {key : String}
    (parent_eq : parent = if label.isLocal then labels.owner else none)
    (owned : label.isLocal → labels.owner.isSome) (isKey : IsKey symbols label key parent) :
    ∃ owner, owner = (if label.isLocal then SourceLine.ownerAfter done else none) ∧
      Symbol.LabelName owner label.name ∧ key = Symbol.keyIn source.file [] owner label.name ∧
      (parent.bind symbols.get?).map Symbol.name = owner ∧
      (∀ p, parent = some p → n ≤ p ∧ ∃ psym, symbols.get? p = some psym ∧ psym.parent = none) := by
  refine ⟨_, rfl, ?_⟩
  by_cases isLocal : label.isLocal
  · rcases h.owner with ⟨none, -⟩ | ⟨id, g, hOwner, hg, new, hid⟩
    · simp [none] at owned
      simp [owned] at isLocal
    · simp only [isLocal, ↓reduceIte, hOwner] at parent_eq
      subst parent_eq
      obtain ⟨front, hFront, rfl⟩ := isKey
      have named := SymbolStore.mangled?_eq_keyIn h.linked h.ofFile h.hides new hid
        fun sym found _ => h.visible new found
      obtain ⟨psym, hp, rfl, top⟩ := (h.linked.isLabel_none_iff new).mp hid
      obtain rfl : front = _ := Option.some.inj (hFront.symm.trans named)
      simp only [isLocal, ↓reduceIte, hg]
      refine ⟨⟨simple, ?_, fun g hg => ?_⟩, rfl, by simp [hp], ?_⟩
      · simpa [Label.isLocal] using isLocal
      · exact Option.some.inj hg ▸ h.linked.simple new hp
      · rintro p ⟨⟩
        exact ⟨new, psym, hp, top⟩
  · simp only [isLocal, Bool.false_eq_true, ↓reduceIte] at parent_eq
    subst parent_eq
    simp only [isLocal, Bool.false_eq_true, ↓reduceIte]
    refine ⟨⟨simple, ?_, by simp⟩, by simpa [Symbol.keyIn, IsKey] using isKey, rfl, by simp⟩
    simpa [Label.isLocal] using isLocal

/-- The symbol of a label is found in the table by the name of the label. -/
theorem isLabel_of_find? (h : LabelsRead source n done labels symbols) {owner : Option String}
    {name : String} {x : Nat} (labelName : Symbol.LabelName owner name)
    (found : labels.table.find? (Symbol.keyIn source.file [] owner name) = some x) :
    n ≤ x ∧ symbols.IsLabel x owner name := by
  obtain ⟨hx, owner', name', hLabel, same⟩ := (h.table _ x).mp found
  obtain ⟨rfl, rfl, -⟩ := Symbol.keyIn_inj labelName (h.linked.labelName hx hLabel) same
  exact ⟨hx, hLabel⟩

/-- A label that is in the table already. -/
theorem again (h : LabelsRead source n done labels symbols)
    (hLabel : line.statement.label = some label) {first : Nat} (new : n ≤ first)
    (isLabel : symbols.IsLabel first
      (if label.isLocal then SourceLine.ownerAfter done else none) label.name) :
    LabelsRead source n (done ++ [line])
      ⟨labels.table, if label.isLocal then labels.owner else some first⟩ symbols := by
  refine ⟨h.size, h.linked, h.ofFile, h.visible, h.undefined, h.table, ?_, ?_⟩
  · rw [SourceLine.ownerAfter_snoc]
    simp only [SourceLine.nextOwner, hLabel]
    split
    · exact h.owner
    · next notLocal =>
      rw [if_neg notLocal] at isLabel
      exact .inr ⟨first, label.name, rfl, rfl, new, isLabel⟩
  · rw [SourceLine.declarations_snoc]
    simp only [SourceLine.declaration?, hLabel, Option.map_some, Option.toList_some]
    exact h.declared.again new isLabel

/-- The table once a symbol has been added and entered, under a name that was free. -/
theorem table_add (h : LabelsRead source n done labels symbols) {owner : Option String}
    {name : String} {symbols' : SymbolStore}
    (isLabel : ∀ {x : Nat} {o : Option String} {a : String}, n ≤ x → (symbols'.IsLabel x o a ↔
      symbols.IsLabel x o a ∨ (x = symbols.size ∧ a = name ∧ o = owner)))
    (fresh : labels.table.find? (Symbol.keyIn source.file [] owner name) = none)
    (key : String) (x : Nat) :
    (labels.table.insert (Symbol.keyIn source.file [] owner name) symbols.size).find? key =
        some x ↔
      n ≤ x ∧ ∃ o a, symbols'.IsLabel x o a ∧ key = Symbol.keyIn source.file [] o a := by
  rw [NameTable.find?_insert]
  by_cases here : key = Symbol.keyIn source.file [] owner name
  · rw [if_pos here, Option.some.injEq]
    constructor
    · rintro rfl
      exact ⟨h.size, owner, name, (isLabel h.size).mpr (.inr ⟨rfl, rfl, rfl⟩), here⟩
    · rintro ⟨hx, o, a, hName, same⟩
      rcases (isLabel hx).mp hName with old | ⟨rfl, -⟩
      · -- An older symbol of this name would have been in the table.
        simp [← here, (h.table key x).mpr ⟨hx, o, a, old, same⟩] at fresh
      · rfl
  · rw [if_neg here, h.table key x]
    refine and_congr_right fun hx => ⟨?_, ?_⟩
    · rintro ⟨o, a, old, same⟩
      exact ⟨o, a, (isLabel hx).mpr (.inl old), same⟩
    · rintro ⟨o, a, hName, same⟩
      rcases (isLabel hx).mp hName with old | ⟨-, rfl, rfl⟩
      · exact ⟨o, a, old, same⟩
      · exact absurd same here

/-- A label that becomes a new symbol. -/
theorem add (h : LabelsRead source n done labels symbols)
    (hLabel : line.statement.label = some label) {owner : Option String} {parent : Option SymbolId}
    {id : Nat} {symbols' : SymbolStore}
    (owner_eq : owner = if label.isLocal then SourceLine.ownerAfter done else none)
    (labelName : Symbol.LabelName owner label.name)
    (hParent : (parent.bind symbols.get?).map Symbol.name = owner)
    (top : ∀ p, parent = some p → n ≤ p ∧ ∃ psym, symbols.get? p = some psym ∧ psym.parent = none)
    (fresh : labels.table.find? (Symbol.keyIn source.file [] owner label.name) = none)
    (added : symbols.add? ⟨source.file, line.number⟩ label.name parent = some (id, symbols')) :
    LabelsRead source n (done ++ [line])
      ⟨labels.table.insert (Symbol.keyIn source.file [] owner label.name) id,
        if label.isLocal then labels.owner else some id⟩ symbols' := by
  obtain rfl : id = symbols.size := (SymbolStore.size_add added).1
  have noLabel (y : Nat) (hy : n ≤ y) : ¬ symbols.IsLabel y owner label.name := fun isLabel => by
    simp [(h.table _ y).mpr ⟨hy, _, _, isLabel, rfl⟩] at fresh
  have hasParent : owner.isSome ↔ parent.isSome := by
    cases parent with
    | none => simp [← hParent]
    | some p =>
      obtain ⟨-, psym, hp, -⟩ := top p rfl
      simp [← hParent, hp]
  have linked : symbols'.Linked n :=
    h.linked.add added h.size labelName.simple (labelName.dot.trans hasParent) top
  have isLabel {x : Nat} {o : Option String} {name : String} (hx : n ≤ x) :
      symbols'.IsLabel x o name ↔
        symbols.IsLabel x o name ∨ (x = symbols.size ∧ name = label.name ∧ o = owner) :=
    hParent ▸ h.linked.isLabel_add added hx
  refine ⟨?_, linked, ?_, ?_, ?_, ?_, ?_, ?_⟩
  · rw [(SymbolStore.size_add added).2]
    exact Nat.le_succ_of_le h.size
  · refine h.ofFile.add added rfl fun y sym hy found hName same => ?_
    refine noLabel y hy ⟨sym, found, hName, ?_⟩
    rw [SymbolStore.ownerName, same, hParent]
  · intro x sym hx found
    rcases SymbolStore.get?_add_cases added found with ⟨-, rfl⟩ | ⟨old, hOld, rfl⟩
    · cases parent <;> simp
    · exact (h.visible hx hOld :)
  · intro x sym hx found
    rcases SymbolStore.get?_add_cases added found with ⟨-, rfl⟩ | ⟨old, hOld, rfl⟩
    · rfl
    · exact (h.undefined hx hOld :)
  · exact h.table_add isLabel fresh
  · rw [SourceLine.ownerAfter_snoc]
    simp only [SourceLine.nextOwner, hLabel]
    split
    · exact h.owner.of_identityIn h.linked (SymbolStore.identityIn_add added)
    · next notLocal =>
      rw [if_neg notLocal] at owner_eq
      have new := (isLabel h.size).mpr (.inr ⟨rfl, rfl, owner_eq.symm⟩)
      exact .inr ⟨_, label.name, rfl, rfl, h.size, new⟩
  · rw [SourceLine.declarations_snoc]
    simp only [SourceLine.declaration?, hLabel, Option.map_some, Option.toList_some, ← owner_eq]
    exact h.declared.add added h.linked h.size rfl rfl hParent.symm noLabel

theorem step (h : LabelsRead source n done labels s.program.symbols)
    (read : line.statement.WellRead) (run : source.addLabel policy labels line s = .ok labels' t) :
    LabelsRead source n (done ++ [line]) labels' t.program.symbols := by
  cases hLabel : line.statement.label with
  | none =>
    simp only [addLabel, hLabel, pure_apply, EStateM.Result.ok.injEq] at run
    obtain ⟨rfl, rfl⟩ := run
    refine ⟨h.size, h.linked, h.ofFile, h.visible, h.undefined, h.table, ?_, ?_⟩
    · simpa [SourceLine.ownerAfter_snoc, SourceLine.nextOwner, hLabel] using h.owner
    · simpa [SourceLine.declarations_snoc, SourceLine.declaration?, hLabel] using h.declared
  | some label =>
    obtain ⟨parent, key, parent_eq, owned, isKey, result⟩ := addLabel_eq_ok hLabel run
    obtain ⟨owner, owner_eq, labelName, rfl, hParent, top⟩ :=
      h.key_eq (read.label label hLabel) parent_eq owned isKey
    have noParent : parent.isNone = !label.isLocal := by
      rw [parent_eq]
      cases isLocal : label.isLocal with
      | false => rfl
      | true => simpa using owned isLocal
    have nextOwner (id : Option SymbolId) : (if parent.isNone then id else labels.owner) =
        if label.isLocal then labels.owner else id := by
      rw [noParent]
      cases label.isLocal <;> rfl
    rcases result with ⟨first, found, same, rfl⟩ | ⟨fresh, id, symbols, added, same, rfl⟩
    · obtain ⟨new, isLabel⟩ := h.isLabel_of_find? labelName found
      rw [same, nextOwner]
      exact h.again hLabel new (owner_eq ▸ isLabel)
    · rw [same, nextOwner]
      exact h.add hLabel owner_eq labelName hParent top fresh added

end LabelsRead

/-- The labels of a file have become symbols. -/
theorem addLabels_eq_ok {table : SymbolTable} (read : source.WellRead)
    (run : source.addLabels policy s = .ok table t) :
    ∃ owner, LabelsRead source s.program.symbols.size source.lines ⟨table, owner⟩
      t.program.symbols := by
  obtain ⟨labels, u, fold, last⟩ := bind_eq_ok.mp run
  simp only [pure_apply, EStateM.Result.ok.injEq] at last
  obtain ⟨rfl, rfl⟩ := last
  refine ⟨labels.owner, ?_⟩
  exact foldlM_keeps (fun done labels t =>
      LabelsRead source s.program.symbols.size done labels t.program.symbols)
    (fun done line rest split _ _ _ _ h step =>
      h.step (read.statement line (by simp [split])) step)
    (LabelsRead.start _) fold

end Dcpu16.SourceFile
