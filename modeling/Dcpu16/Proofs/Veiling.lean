import Dcpu16.Proofs.Hiding

/-! Local labels that are hidden themselves.  A file hides names of its table, and so it can hide a
local label by its mangled name.  The label is then known by the name of the file, while its own
line looks it up below its owner. -/

namespace Dcpu16

namespace Symbol

/-- A file that hides these names, one after the other, names a local label as it is called at that
moment. -/
def Listed (file : String) (hidden : List String) (owner name : String) : Prop :=
  ∃ before after, hidden = before ++ keyIn file before (some owner) name :: after

/-- The local label is hidden, and there is no other way to its name: if its owner is called like
the file, then that is hidden too. -/
structure Veiled (file : String) (hidden : List String) (owner name : String) : Prop where
  listed : Listed file hidden owner name
  owner : owner = fileName file → owner ∈ hidden

theorem not_listed_nil {file owner name : String} : ¬ Listed file [] owner name := by
  rintro ⟨before, after, split⟩
  simp at split

theorem listed_snoc {file owner name last : String} {hidden : List String} :
    Listed file (hidden ++ [last]) owner name ↔
      Listed file hidden owner name ∨ last = keyIn file hidden (some owner) name := by
  constructor
  · rintro ⟨before, after, split⟩
    rcases List.eq_nil_or_concat' after with rfl | ⟨after, end_, rfl⟩
    · obtain ⟨rfl, same⟩ := List.append_inj' split rfl
      exact .inr (List.singleton_inj.mp same)
    · rw [← List.cons_append, ← List.append_assoc] at split
      obtain ⟨rfl, -⟩ := List.append_inj' split rfl
      exact .inl ⟨before, after, rfl⟩
  · rintro (⟨before, after, rfl⟩ | rfl)
    · exact ⟨before, after ++ [last], by simp⟩
    · exact ⟨hidden, [], rfl⟩

end Symbol

namespace SymbolStore

/-- The symbol is hidden. -/
def IsHidden (s : SymbolStore) (x : Nat) : Prop :=
  ∃ sym, s.get? x = some sym ∧ sym.visibility = .hidden

variable {s : SymbolStore} {x id : Nat}

theorem isHidden_hide (s : SymbolStore) (x id : Nat) :
    (s.modify id fun sym => { sym with visibility := .hidden }).IsHidden x ↔
      s.IsHidden x ∨ (x = id ∧ ∃ sym, s.get? x = some sym) := by
  unfold IsHidden
  rw [get?_modify]
  by_cases same : x = id
  · cases s.get? x <;> simp [same]
  · simp [same]

end SymbolStore

namespace SourceFile

open Assembler

variable {source : SourceFile} {n : Nat} {hidden : List String} {table table' : SymbolTable}
  {symbols symbols' : SymbolStore} {s t : Session} {x : Nat} {owner name : String}

/-- The mangled name of a local label: below its owner, or below the file if it is hidden. -/
theorem NamesHidden.mangled?_local (h : NamesHidden source n hidden table symbols) (hx : n ≤ x)
    (label : symbols.IsLabel x (some owner) name) :
    (symbols.IsHidden x ∧
        symbols.mangled? x = some (Symbol.localName (Symbol.fileName source.file) name)) ∨
      (¬ symbols.IsHidden x ∧
        symbols.mangled? x = some (Symbol.keyIn source.file hidden (some owner) name)) := by
  by_cases isHidden : symbols.IsHidden x
  · obtain ⟨sym, found, invisible⟩ := isHidden
    obtain ⟨sym', found', rfl, -⟩ := label
    obtain rfl : sym = sym' := Option.some.inj (found.symm.trans found')
    have named := SymbolStore.mangled?_own found (.inr invisible)
    rw [Symbol.ownName, if_pos invisible, h.ofFile.file hx found,
      Symbol.privateName_eq_localName] at named
    exact .inl ⟨⟨sym, found, invisible⟩, named⟩
  · exact .inr ⟨isHidden, SymbolStore.mangled?_eq_keyIn h.linked h.ofFile h.hides hx label
      fun sym found _ invisible => isHidden ⟨sym, found, invisible⟩⟩

/-- The names of the file that are hidden, with what is known of its local labels.  A label that has
the mangled name of its key is found there.  The local labels that are hidden have been listed; and
one that has been listed is hidden, unless it is below a label with the name of the file, and a
label below another one is hidden in its place. -/
structure NamesTracked (source : SourceFile) (n : Nat) (hidden : List String) (table : SymbolTable)
    (s : SymbolStore) : Prop where
  names : NamesHidden source n hidden table s
  found : ∀ ⦃x : Nat⦄ ⦃owner : Option String⦄ ⦃name : String⦄, n ≤ x → s.IsLabel x owner name →
    s.mangled? x = some (Symbol.keyIn source.file hidden owner name) →
    ∃ y, table.find? (Symbol.keyIn source.file hidden owner name) = some y
  listed : ∀ ⦃x : Nat⦄ ⦃owner name : String⦄, n ≤ x → s.IsLabel x (some owner) name →
    s.IsHidden x → Symbol.Listed source.file hidden owner name
  hides : ∀ ⦃x : Nat⦄ ⦃owner name : String⦄, n ≤ x → s.IsLabel x (some owner) name →
    Symbol.Listed source.file hidden owner name →
    s.IsHidden x ∨ (owner = Symbol.fileName source.file ∧ ∃ y other, n ≤ y ∧
      s.IsLabel y (some other) name ∧ other ≠ owner ∧ s.IsHidden y)

theorem LabelsRead.namesTracked {owner : Option SymbolId}
    (h : LabelsRead source n source.lines ⟨table, owner⟩ symbols) :
    NamesTracked source n [] table symbols := by
  refine ⟨h.namesHidden, fun x owner name hx label _ => ?_, fun x owner name hx _ isHidden => ?_,
    fun x owner name _ _ listed => absurd listed Symbol.not_listed_nil⟩
  · exact ⟨x, (h.table _ x).mpr ⟨hx, owner, name, label, rfl⟩⟩
  · obtain ⟨sym, found, invisible⟩ := isHidden
    exact absurd invisible (h.visible hx found)

/-- The key of a label does not change while its owner, or the label itself if it has none, stays as
it is. -/
theorem NamesHidden.keyIn_eq {hidden' : List String} {owner : Option String}
    (h : NamesHidden source n hidden table symbols)
    (h' : NamesHidden source n hidden' table' symbols') (hx : n ≤ x)
    (label : symbols.IsLabel x owner name)
    (here : ∀ sym, symbols.get? x = some sym → sym.parent = none → symbols'.get? x = some sym)
    (above : ∀ sym p, symbols.get? x = some sym → sym.parent = some p →
      symbols'.get? p = symbols.get? p) :
    Symbol.keyIn source.file hidden' owner name = Symbol.keyIn source.file hidden owner name := by
  have top {y : Nat} {sym : Symbol} (hy : n ≤ y) (found : symbols.get? y = some sym)
      (found' : symbols'.get? y = some sym) (top : sym.parent = none) :
      Symbol.keyIn source.file hidden' none sym.name =
        Symbol.keyIn source.file hidden none sym.name := by
    rw [← SymbolStore.ownName_eq_keyIn h.ofFile h.hides hy found top,
      ← SymbolStore.ownName_eq_keyIn h'.ofFile h'.hides hy found' top]
  cases owner with
  | none =>
    obtain ⟨sym, found, rfl, noParent⟩ := (h.linked.isLabel_none_iff hx).mp label
    exact top hx found (here sym found noParent) noParent
  | some owner =>
    obtain ⟨sym, p, psym, found, rfl, parent, hp, rfl⟩ :=
      SymbolStore.Linked.isLabel_some_iff.mp label
    obtain ⟨⟨new, -⟩, psym', hp', noParent⟩ := h.linked.parent hx found parent
    obtain rfl : psym' = psym := Option.some.inj (hp'.symm.trans hp)
    rw [Symbol.keyIn_some, Symbol.keyIn_some,
      top new hp ((above sym p found parent).trans hp) noParent]

namespace NamesTracked

/-- A name that is not in the table. -/
theorem skip (h : NamesTracked source n hidden table symbols) (none : table.find? name = none) :
    NamesTracked source n (hidden ++ [name]) table symbols := by
  have names := h.names.skip none
  refine ⟨names, fun x owner name' hx label named => ?_, fun x owner name' hx label isHidden => ?_,
    fun x owner name' hx label listed => ?_⟩
  · rw [h.names.keyIn_eq names hx label (fun _ found _ => found) fun _ _ _ _ => rfl] at named ⊢
    exact h.found hx label named
  · exact Symbol.listed_snoc.mpr (.inl (h.listed hx label isHidden))
  · rcases Symbol.listed_snoc.mp listed with before | rfl
    · exact h.hides hx label before
    · -- The label would be found, if it were not hidden.
      rcases h.names.mangled?_local hx label with ⟨isHidden, -⟩ | ⟨-, named⟩
      · exact .inl isHidden
      · obtain ⟨y, found⟩ := h.found hx label named
        rw [none] at found
        cases found

theorem isLabel_hide_iff {id : Nat} {owner : Option String} {label : String}
    (hid : symbols.hide? table id = some (symbols', table')) :
    symbols'.IsLabel x owner label ↔ symbols.IsLabel x owner label := by
  obtain ⟨hSymbols, -⟩ := SymbolStore.hide?_eq_some.mp hid
  have same : symbols.SameOrigins symbols' := hSymbols ▸ .modify symbols id fun _ => rfl
  exact ⟨fun label => label.of_sameOrigins same.symm, fun label => label.of_sameOrigins same⟩

section Hide

variable {id : Nat} (hid : symbols.hide? table id = some (symbols', table'))
  (h : NamesTracked source n hidden table symbols) (found : table.find? name = some id)
include hid h found

theorem isHidden_hide_iff : symbols'.IsHidden x ↔ symbols.IsHidden x ∨ x = id := by
  obtain ⟨hSymbols, -⟩ := SymbolStore.hide?_eq_some.mp hid
  obtain ⟨sym, hSym⟩ := SymbolStore.exists_get?_of_mangled? (h.names.lists.sound found).2
  rw [hSymbols, SymbolStore.isHidden_hide]
  exact or_congr_right ⟨And.left, fun same => ⟨same, sym, same ▸ hSym⟩⟩

/-- A label that has the mangled name of its key shares it with no symbol that loses it. -/
theorem eq_of_loses {y : Nat} {owner : Option String} {label : String} (hx : n ≤ x) (hy : n ≤ y)
    (hLabel : symbols.IsLabel x owner label)
    (named : symbols.mangled? x = some (Symbol.keyIn source.file hidden owner label))
    (named' : symbols.mangled? y = some (Symbol.keyIn source.file hidden owner label))
    (loses : symbols'.mangled? y ≠ some (Symbol.keyIn source.file hidden owner label)) : y = x := by
  have linked := h.names.linked
  cases owner with
  | none =>
    obtain ⟨sym, hSym, rfl, top⟩ := (linked.isLabel_none_iff hx).mp hLabel
    exact h.names.ofFile.eq_of_mangled? linked hx hy hSym top named named'
  | some owner =>
    have labelName := linked.labelName hx hLabel
    rcases h.names.isLabel_of_local_key hy labelName named' with same | ⟨-, other, isLabel⟩
    · exact h.names.ofFile.eq_of_isLabel linked hy hx same hLabel
    rcases h.names.mangled?_local hy isLabel with ⟨isHidden, file⟩ | ⟨-, key⟩
    · -- A symbol that is hidden already keeps its name.
      rcases (h.names.hide found hid).mangled?_local hy ((isLabel_hide_iff hid).mpr isLabel) with
        ⟨-, file'⟩ | ⟨visible, -⟩
      · exact absurd (file'.trans (file.symm.trans named')) loses
      · exact absurd ((isHidden_hide_iff hid h found).mpr (.inl isHidden)) visible
    · obtain ⟨same, -⟩ := Symbol.keyIn_inj (linked.labelName hy isLabel) labelName
        (Option.some.inj (key.symm.trans named'))
      exact h.names.ofFile.eq_of_isLabel linked hy hx (same ▸ isLabel) hLabel

theorem found_hide {owner : Option String} {label : String} (hx : n ≤ x)
    (hLabel : symbols'.IsLabel x owner label)
    (named : symbols'.mangled? x =
      some (Symbol.keyIn source.file (hidden ++ [name]) owner label)) :
    ∃ y, table'.find? (Symbol.keyIn source.file (hidden ++ [name]) owner label) = some y := by
  obtain ⟨hSymbols, family, erased, hFamily, hErase, hInsert⟩ := SymbolStore.hide?_eq_some.mp hid
  obtain ⟨new, hName⟩ := h.names.lists.sound found
  obtain ⟨top, hTop⟩ := SymbolStore.exists_get?_of_mangled? hName
  have linked := h.names.linked
  by_cases renamed : ∃ m ∈ family, symbols'.mangled? m =
      some (Symbol.keyIn source.file (hidden ++ [name]) owner label)
  · obtain ⟨m, -, -, answer⟩ := (NameTable.find?_insertAll hInsert).1 renamed
    exact ⟨m, answer⟩
  -- The label is not in the family, so it has the name that it had before.
  have outside : x ∉ family := fun inside => renamed ⟨x, inside, named⟩
  rw [linked.mem_family_iff hFamily new hTop, not_or] at outside
  have unchanged {y : Nat} (other : y ≠ id) : symbols'.get? y = symbols.get? y := by
    rw [hSymbols, SymbolStore.get?_modify, if_neg other]
  replace hLabel := (isLabel_hide_iff hid).mp hLabel
  have sameKey : Symbol.keyIn source.file (hidden ++ [name]) owner label =
      Symbol.keyIn source.file hidden owner label :=
    h.names.keyIn_eq (h.names.hide found hid) hx hLabel
      (fun sym hSym _ => (unchanged outside.1).trans hSym)
      fun sym p hSym parent => unchanged fun same => outside.2 ⟨hx, sym, hSym, same ▸ parent⟩
  rw [sameKey] at named renamed ⊢
  obtain ⟨sym, hSym⟩ := Exists.imp (fun _ isLabel => isLabel.1) hLabel
  obtain ⟨key, hKey⟩ := Option.isSome_iff_exists.mp (linked.isSome_mangled? hx hSym)
  have kept := linked.mangled?_hide hx outside.1
    (fun child hChild isChild => outside.2 ⟨hx, child, hChild, isChild⟩) hKey
  rw [← hSymbols, named, Option.some.injEq] at kept
  subst kept
  rw [(NameTable.find?_insertAll hInsert).2 fun m inside hm => renamed ⟨m, inside, hm⟩,
    (NameTable.find?_eraseAll hErase).2 fun m inside hm => ?_]
  · exact h.found hx hLabel hKey
  · have same := eq_of_loses hid h found hx (linked.le_of_mem_family hFamily new hTop inside) hLabel
      hKey hm fun kept => renamed ⟨m, inside, kept⟩
    subst same
    rcases (linked.mem_family_iff hFamily new hTop).mp inside with top | below
    · exact outside.1 top
    · exact outside.2 below

/-- Hiding the symbol of a name of the table. -/
theorem hide : NamesTracked source n (hidden ++ [name]) table' symbols' := by
  have hName := (h.names.lists.sound found).2
  refine ⟨h.names.hide found hid, fun x owner label hx hLabel named =>
    found_hide hid h found hx hLabel named, fun x owner label hx hLabel isHidden => ?_,
    fun x owner label hx hLabel listed => ?_⟩
  · rw [isLabel_hide_iff hid] at hLabel
    rw [Symbol.listed_snoc]
    rcases h.names.mangled?_local hx hLabel with ⟨before, -⟩ | ⟨visible, named⟩
    · exact .inl (h.listed hx hLabel before)
    · -- The label is hidden now, by the name that it has.
      obtain rfl := ((isHidden_hide_iff hid h found).mp isHidden).resolve_left visible
      exact .inr (Option.some.inj (hName.symm.trans named))
  · simp only [isLabel_hide_iff hid, isHidden_hide_iff hid h found] at hLabel ⊢
    rcases Symbol.listed_snoc.mp listed with before | rfl
    · rcases h.hides hx hLabel before with isHidden |
        ⟨atFile, y, other, hy, isLabel, differs, isHidden⟩
      · exact .inl (.inl isHidden)
      · exact .inr ⟨atFile, y, other, hy, isLabel, differs, .inl isHidden⟩
    · -- The symbol with the name of the label is hidden now.
      have new := (h.names.lists.sound found).1
      rcases h.names.isLabel_of_local_key new (h.names.linked.labelName hx hLabel) hName with
        same | ⟨atFile, other, isLabel⟩
      · exact .inl (.inr (h.names.ofFile.eq_of_isLabel h.names.linked hx new hLabel same))
      · by_cases sameOwner : other = owner
        · subst sameOwner
          exact .inl (.inr (h.names.ofFile.eq_of_isLabel h.names.linked hx new hLabel isLabel))
        · exact .inr ⟨atFile, id, other, new, isLabel, sameOwner, .inr rfl⟩

end Hide

theorem step (h : NamesTracked source n hidden table s.program.symbols)
    {name : String × SourceLine} (run : source.hideName table name s = .ok table' t) :
    NamesTracked source n (hidden ++ [name.1]) table' t.program.symbols := by
  rcases hideName_eq_ok run with ⟨id, found, hid⟩ | ⟨none, rfl, same⟩
  · exact hide hid h found
  · exact same ▸ h.skip none

/-- A label that is hidden and has the mangled name of its key is below a label with the name of the
file. -/
theorem owner_of_isHidden (h : NamesTracked source n hidden table symbols) (hx : n ≤ x)
    (label : symbols.IsLabel x (some owner) name) (isHidden : symbols.IsHidden x)
    (named : symbols.mangled? x = some (Symbol.keyIn source.file hidden (some owner) name)) :
    owner = Symbol.fileName source.file ∧ owner ∉ hidden := by
  have simple := (h.names.linked.labelName hx label).simple
  rcases h.names.mangled?_local hx label with ⟨-, file⟩ | ⟨visible, -⟩
  · rw [named, Option.some.injEq, Symbol.keyIn_some, Symbol.localName_inj simple simple,
      Symbol.keyIn_none] at file
    split at file
    · exact absurd file.1 Symbol.localName_ne_front
    · next outside => exact ⟨file.1, outside⟩
  · exact absurd isHidden visible

/-- A local label that is not found by its key is veiled. -/
theorem veiled_of_find? (h : NamesTracked source n hidden table symbols) (hx : n ≤ x)
    (label : symbols.IsLabel x (some owner) name)
    (none : table.find? (Symbol.keyIn source.file hidden (some owner) name) = none) :
    Symbol.Veiled source.file hidden owner name := by
  have unnamed : symbols.mangled? x ≠
      some (Symbol.keyIn source.file hidden (some owner) name) := by
    intro named
    obtain ⟨y, found⟩ := h.found hx label named
    rw [none] at found
    cases found
  rcases h.names.mangled?_local hx label with ⟨isHidden, file⟩ | ⟨-, named⟩
  · refine ⟨h.listed hx label isHidden, fun atFile => ?_⟩
    by_contra outside
    rw [← atFile] at file
    rw [Symbol.keyIn_some, Symbol.keyIn_none, if_neg outside] at unnamed
    exact unnamed file
  · exact absurd named unnamed

/-- If every label is found by its key, then no local label is veiled. -/
theorem not_veiled (h : NamesTracked source n hidden table symbols)
    (all : ∀ ⦃x : Nat⦄ ⦃owner name : String⦄, n ≤ x → symbols.IsLabel x (some owner) name →
      table.find? (Symbol.keyIn source.file hidden (some owner) name) = some x)
    (hx : n ≤ x) (label : symbols.IsLabel x (some owner) name) :
    ¬ Symbol.Veiled source.file hidden owner name := by
  rintro ⟨listed, atFile⟩
  rcases h.hides hx label listed with isHidden | ⟨same, y, other, hy, isLabel, differs, isHidden⟩
  · obtain ⟨same, outside⟩ :=
      h.owner_of_isHidden hx label isHidden (h.names.lists.sound (all hx label)).2
    exact outside (atFile same)
  · obtain ⟨same', -⟩ :=
      h.owner_of_isHidden hy isLabel isHidden (h.names.lists.sound (all hy isLabel)).2
    exact differs (same'.trans same.symm)

end NamesTracked

theorem namesTracked_of_hideNames (h : NamesTracked source n [] table s.program.symbols)
    (run : source.hideNames table s = .ok table' t) :
    NamesTracked source n (source.hiddenNames.map Prod.fst) table' t.program.symbols := by
  refine foldlM_keeps (fun done table t =>
      NamesTracked source n (done.map Prod.fst) table t.program.symbols)
    (fun done name rest _ _ _ _ _ h step => ?_) h run
  rw [List.map_append]
  exact h.step step

end SourceFile

end Dcpu16
