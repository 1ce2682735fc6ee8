import Dcpu16.Proofs.Labels

/-! The table of a file after its names have been hidden.  The symbols stand for the same labels as
before; those without a parent are hidden exactly if the file asks for it. -/

namespace Dcpu16.SourceFile

open Assembler

variable {source : SourceFile} {policy : Redefinition} {n : Nat} {hidden : List String}
  {table table' : SymbolTable} {symbols : SymbolStore} {s t : Session}

/-- The symbols from `n` on are those of the file, and `hidden` are the names that it has hidden. -/
structure NamesHidden (source : SourceFile) (n : Nat) (hidden : List String) (table : SymbolTable)
    (s : SymbolStore) : Prop where
  size : n ≤ s.size
  linked : s.Linked n
  ofFile : s.OfFile n source.file
  lists : s.Lists n table
  hides : s.Hides n hidden
  undefined : ∀ ⦃x : Nat⦄ ⦃sym : Symbol⦄, n ≤ x → s.get? x = some sym → sym.definition = none
  declared : s.Declared n source.file (SourceLine.declarations source.lines)

theorem LabelsRead.namesHidden {owner : Option SymbolId}
    (h : LabelsRead source n source.lines ⟨table, owner⟩ symbols) :
    NamesHidden source n [] table symbols := by
  refine ⟨h.size, h.linked, h.ofFile, ⟨fun key x found => ?_, fun x sym hx found top => ?_⟩,
    h.hides, h.undefined, h.declared⟩
  · obtain ⟨hx, owner, name, label, rfl⟩ := (h.table key x).mp found
    exact ⟨hx, SymbolStore.mangled?_eq_keyIn h.linked h.ofFile h.hides hx label
      fun sym found _ => h.visible hx found⟩
  · rw [SymbolStore.ownName_eq_keyIn h.ofFile h.hides hx found top]
    exact (h.table _ x).mpr ⟨hx, none, sym.name, (h.linked.isLabel_none_iff hx).mpr
      ⟨sym, found, rfl, top⟩, rfl⟩

theorem hideName_eq_ok {name : String × SourceLine}
    (run : source.hideName table name s = .ok table' t) :
    (∃ id, table.find? name.1 = some id ∧
        s.program.symbols.hide? table id = some (t.program.symbols, table')) ∨
      (table.find? name.1 = none ∧ table' = table ∧ t.program.symbols = s.program.symbols) := by
  unfold hideName at run
  cases found : table.find? name.1 with
  | none =>
    simp only [found] at run
    obtain ⟨_, u, warned, last⟩ := bind_eq_ok.mp run
    simp only [pure_apply, EStateM.Result.ok.injEq] at last
    obtain ⟨rfl, rfl⟩ := last
    have same := ((keeps_warn (P := fun t => t.program = s.program) (fun _ _ h => h) _ _ s rfl).ok
      warned).1
    exact .inr ⟨rfl, rfl, by rw [same]⟩
  | some id =>
    simp only [found] at run
    obtain ⟨_, u, got, rest⟩ := bind_eq_ok.mp run
    cases got
    obtain ⟨⟨symbols, hiddenTable⟩, v, required, rest'⟩ := bind_eq_ok.mp rest
    obtain ⟨hid, rfl⟩ := require_eq_ok.mp required
    obtain ⟨_, w, set, last⟩ := bind_eq_ok.mp rest'
    cases set
    cases last
    exact .inl ⟨id, rfl, hid⟩

namespace NamesHidden

/-- A symbol without a parent stands in the table by its name, unless that is hidden. -/
theorem find?_name (h : NamesHidden source n hidden table symbols) {x : Nat} {sym : Symbol}
    (hx : n ≤ x) (found : symbols.get? x = some sym) (top : sym.parent = none)
    (visible : sym.name ∉ hidden) : table.find? sym.name = some x := by
  have key := h.lists.top hx found top
  rwa [SymbolStore.ownName_eq_keyIn h.ofFile h.hides hx found top, Symbol.keyIn_none,
    if_neg visible] at key

/-- Hiding the symbol of a name of the table. -/
theorem hide (h : NamesHidden source n hidden table symbols) {name : String} {id : Nat}
    {symbols' : SymbolStore} (found : table.find? name = some id)
    (hid : symbols.hide? table id = some (symbols', table')) :
    NamesHidden source n (hidden ++ [name]) table' symbols' := by
  obtain ⟨new, named⟩ := h.lists.sound found
  obtain ⟨sym, hSym⟩ := SymbolStore.exists_get?_of_mangled? named
  obtain ⟨hSymbols, -⟩ := SymbolStore.hide?_eq_some.mp hid
  have same : symbols.SameOrigins symbols' := hSymbols ▸ .modify symbols id fun _ => rfl
  refine ⟨?_, hSymbols ▸ h.linked.hide id, h.ofFile.of_sameOrigins same,
    h.lists.hide h.linked h.ofFile new hSym hid, fun x later hx here top => ?_,
    fun x later hx here => ?_, h.declared.of_sameOrigins same⟩
  · rw [hSymbols, SymbolStore.size_modify]
    exact h.size
  · rw [List.mem_append, List.mem_singleton]
    rw [hSymbols, SymbolStore.get?_modify] at here
    by_cases this : x = id
    · subst this
      rw [if_pos rfl, hSym] at here
      obtain rfl := Option.some.inj here
      refine ⟨fun _ => ?_, fun _ => rfl⟩
      -- Unless it was hidden before, the symbol is in the table by its own name.
      by_cases before : sym.name ∈ hidden
      · exact .inl before
      · have key := SymbolStore.mangled?_own hSym (.inl top)
        rw [SymbolStore.ownName_eq_keyIn h.ofFile h.hides hx hSym top, Symbol.keyIn_none,
          if_neg before, named] at key
        exact .inr (Option.some.inj key).symm
    · rw [if_neg this] at here
      rw [h.hides hx here top]
      refine ⟨.inl, fun inside => inside.elim (fun before => before) fun same => ?_⟩
      by_contra visible
      have key := h.find?_name hx here top visible
      rw [same, found] at key
      exact this (Option.some.inj key).symm
  · rw [hSymbols, SymbolStore.get?_modify] at here
    split at here
    · obtain ⟨old, hOld, rfl⟩ := Option.map_eq_some_iff.mp here
      exact (h.undefined hx hOld :)
    · exact h.undefined hx here

/-- A name that is not in the table has been hidden before, or it is no label of the file. -/
theorem skip (h : NamesHidden source n hidden table symbols) {name : String}
    (none : table.find? name = none) : NamesHidden source n (hidden ++ [name]) table symbols := by
  refine ⟨h.size, h.linked, h.ofFile, h.lists, fun x sym hx found top => ?_, h.undefined,
    h.declared⟩
  rw [h.hides hx found top, List.mem_append, List.mem_singleton]
  refine ⟨.inl, fun inside => inside.elim id fun same => ?_⟩
  by_contra visible
  have key := h.find?_name hx found top visible
  rw [same, none] at key
  cases key

/-- A symbol of the table whose name ends in one without a dot stands for the label of that name,
and no label is local to another one. -/
theorem isLabel_of_mangled? (h : NamesHidden source n hidden table symbols) {x : Nat}
    {key name : String} (hx : n ≤ x) (named : symbols.mangled? x = some key)
    (simple : Symbol.Simple name) (noDot : name.toList.head? ≠ some '.')
    (ends : key = name ∨ ∃ front, key = Symbol.localName front name) :
    symbols.IsLabel x none name ∧ key = Symbol.keyIn source.file hidden none name := by
  obtain ⟨sym, found⟩ := SymbolStore.exists_get?_of_mangled? named
  obtain ⟨key', named', ends'⟩ := h.linked.mangled?_cases hx found
  obtain rfl : key' = key := Option.some.inj (named'.symm.trans named)
  have same : sym.name = name :=
    Symbol.eq_of_ends (h.linked.simple hx found) simple ends' ends
  have top : sym.parent = none := by
    have dot := h.linked.dot hx found
    rw [same] at dot
    simpa [noDot] using dot
  refine ⟨(h.linked.isLabel_none_iff hx).mpr ⟨sym, found, same, top⟩, ?_⟩
  have own := SymbolStore.mangled?_own found (.inl top)
  rw [SymbolStore.ownName_eq_keyIn h.ofFile h.hides hx found top, same] at own
  exact Option.some.inj (named.symm.trans own)

/-- A label of the file, looked up below the last label that is not local, is the symbol with its
name in the table. -/
theorem find?_of_resolve (h : NamesHidden source n hidden table symbols) {label : Label}
    {scope : Option SymbolId} {owner : Option String} {x : Nat} (simple : Symbol.Simple label.name)
    (hScope : symbols.OwnerIs n scope owner)
    (found : symbols.resolve table source.file label.name scope = .ok (some x)) :
    table.find? (Symbol.keyIn source.file hidden (if label.isLocal then owner else none)
        label.name) = some x ∧
      (label.isLocal = false → n ≤ x ∧ symbols.IsLabel x none label.name) := by
  rcases (SymbolStore.resolve_eq_some (Symbol.hasDoubleDollar_simple simple)).mp found with
    ⟨dot, id, key, rfl, hKey, found⟩ | ⟨noDot, found⟩
  · have isLocal : label.isLocal = true := by simpa [Label.isLocal] using dot
    rcases hScope with ⟨none, -⟩ | ⟨id', g, same, rfl, new, hLabel⟩
    · cases none
    obtain rfl := Option.some.inj same
    obtain ⟨sym, hSym, rfl, top⟩ := (h.linked.isLabel_none_iff new).mp hLabel
    have front := SymbolStore.mangled?_own hSym (.inl top)
    rw [SymbolStore.ownName_eq_keyIn h.ofFile h.hides new hSym top] at front
    obtain rfl := Option.some.inj (hKey.symm.trans front)
    rw [if_pos isLocal]
    exact ⟨found, by simp [isLocal]⟩
  · have isLocal : label.isLocal = false := by simpa [Label.isLocal] using noDot
    have known : ∃ key, table.find? key = some x ∧
        (key = label.name ∨ ∃ front, key = Symbol.localName front label.name) := by
      rcases found with found | ⟨-, found⟩
      · exact ⟨_, found, .inr ⟨_, rfl⟩⟩
      · exact ⟨_, found, .inl rfl⟩
    obtain ⟨key, found, ends⟩ := known
    obtain ⟨new, named⟩ := h.lists.sound found
    obtain ⟨hLabel, rfl⟩ := h.isLabel_of_mangled? new named simple noDot ends
    simp only [isLocal, Bool.false_eq_true, if_false]
    exact ⟨found, fun _ => ⟨new, hLabel⟩⟩

/-- A symbol with the mangled name of a local label stands for it; or it is a local symbol that is
hidden itself, which can have that name if the owner is called like the file. -/
theorem isLabel_of_local_key (h : NamesHidden source n hidden table symbols) {x : Nat}
    {owner name : String} (hx : n ≤ x) (labelName : Symbol.LabelName (some owner) name)
    (named : symbols.mangled? x = some (Symbol.keyIn source.file hidden (some owner) name)) :
    symbols.IsLabel x (some owner) name ∨
      (owner = Symbol.fileName source.file ∧ ∃ other, symbols.IsLabel x (some other) name) := by
  obtain ⟨sym, found⟩ := SymbolStore.exists_get?_of_mangled? named
  have label := SymbolStore.isLabel_of_get? found
  by_cases isHidden : sym.parent ≠ none ∧ sym.visibility = .hidden
  · have own := SymbolStore.mangled?_own found (.inr isHidden.2)
    rw [named, Symbol.ownName, if_pos isHidden.2, Option.some.injEq, Symbol.keyIn_some,
      Symbol.privateName_eq_localName, h.ofFile.file hx found,
      Symbol.localName_inj labelName.simple (h.linked.simple hx found)] at own
    obtain ⟨front, rfl⟩ := own
    refine .inr ⟨?_, ?_⟩
    · rw [Symbol.keyIn_none] at front
      split at front
      · exact absurd front Symbol.localName_ne_front
      · exact front
    · obtain ⟨p, parent⟩ := Option.ne_none_iff_exists'.mp isHidden.1
      obtain ⟨-, psym, hp, -⟩ := h.linked.parent hx found parent
      exact ⟨psym.name, SymbolStore.Linked.isLabel_some_iff.mpr
        ⟨sym, p, psym, found, rfl, parent, hp, rfl⟩⟩
  · have key := SymbolStore.mangled?_eq_keyIn h.linked h.ofFile h.hides hx label
      fun sym' found' parent isHidden' => by
        obtain rfl : sym' = sym := Option.some.inj (found'.symm.trans found)
        exact isHidden ⟨parent, isHidden'⟩
    obtain ⟨same, name_eq, -⟩ := Symbol.keyIn_inj labelName (h.linked.labelName hx label)
      (Option.some.inj (named.symm.trans key))
    exact .inl (same ▸ name_eq ▸ label)

/-- If every label of the file is found by its name in the table, then it is its own symbol that is
found there. -/
theorem find?_keyIn (h : NamesHidden source n hidden table symbols)
    (resolved : ∀ d ∈ SourceLine.declarations source.lines, ∃ y,
      table.find? (Symbol.keyIn source.file hidden d.owner d.name) = some y)
    {x : Nat} {owner : Option String} {name : String} (hx : n ≤ x)
    (label : symbols.IsLabel x owner name) :
    table.find? (Symbol.keyIn source.file hidden owner name) = some x := by
  cases owner with
  | none =>
    obtain ⟨sym, found, rfl, top⟩ := (h.linked.isLabel_none_iff hx).mp label
    rw [← SymbolStore.ownName_eq_keyIn h.ofFile h.hides hx found top]
    exact h.lists.top hx found top
  | some owner =>
    have search {x : Nat} {owner : String} (hx : n ≤ x)
        (label : symbols.IsLabel x (some owner) name) : ∃ y, n ≤ y ∧
        table.find? (Symbol.keyIn source.file hidden (some owner) name) = some y ∧
        symbols.mangled? y = some (Symbol.keyIn source.file hidden (some owner) name) := by
      obtain ⟨sym, found, rfl, hOwner⟩ := label
      obtain ⟨d, first, -⟩ := h.declared.place hx found
      have same := List.find?_some first
      simp only [decide_eq_true_eq] at same
      obtain ⟨y, hy⟩ := resolved d (List.mem_of_find?_eq_some first)
      rw [same.1, same.2, hOwner] at hy
      exact ⟨y, (h.lists.sound hy).1, hy, (h.lists.sound hy).2⟩
    have labelName := h.linked.labelName hx label
    obtain ⟨y, hy, found, named⟩ := search hx label
    rw [found]
    rcases h.isLabel_of_local_key hy labelName named with isLabel | ⟨atFile, other, isLabel⟩
    · rw [h.ofFile.eq_of_isLabel h.linked hx hy label isLabel]
    · -- The label that `y` stands for is found too, and that is possible below `owner` only.
      obtain ⟨z, hz, found', named'⟩ := search hy isLabel
      have sameOwner : other = owner := by
        rcases h.isLabel_of_local_key hz (h.linked.labelName hy isLabel) named' with
          isLabel' | ⟨atFile', -⟩
        · obtain rfl := h.ofFile.eq_of_isLabel h.linked hy hz isLabel isLabel'
          obtain ⟨same, -⟩ := Symbol.keyIn_inj (h.linked.labelName hy isLabel) labelName
            (Option.some.inj (named'.symm.trans named))
          exact Option.some.inj same
        · rw [atFile, atFile']
      rw [h.ofFile.eq_of_isLabel h.linked hx hy label (sameOwner ▸ isLabel)]

theorem step (h : NamesHidden source n hidden table s.program.symbols)
    {name : String × SourceLine} (run : source.hideName table name s = .ok table' t) :
    NamesHidden source n (hidden ++ [name.1]) table' t.program.symbols := by
  rcases hideName_eq_ok run with ⟨id, found, hid⟩ | ⟨none, rfl, same⟩
  · exact h.hide found hid
  · exact same ▸ h.skip none

end NamesHidden

/-- The names that the file asks to hide are hidden. -/
theorem hideNames_eq_ok (h : NamesHidden source n [] table s.program.symbols)
    (run : source.hideNames table s = .ok table' t) :
    NamesHidden source n (source.hiddenNames.map Prod.fst) table' t.program.symbols := by
  refine foldlM_keeps (fun done table t =>
      NamesHidden source n (done.map Prod.fst) table t.program.symbols)
    (fun done name rest _ _ _ _ _ h step => ?_) h run
  rw [List.map_append]
  exact h.step step

/-- Publishing names leaves the symbols as they are. -/
theorem publish_symbols {u : Unit} (run : source.publish policy table s = .ok u t) :
    t.program.symbols = s.program.symbols := by
  have one (entry : String × SymbolId) :
      Keeps (fun t => t.program.symbols = s.program.symbols) (source.publishName policy entry) := by
    refine Keeps.get.bind fun _ => ?_
    split
    · exact .modify fun _ h => h
    · exact (Keeps.symbol _).bind fun _ => (Keeps.symbol _).bind fun _ =>
        (keeps_line _).bind fun _ => keeps_redefine (fun _ _ h => h) _ _ _
  have all (es : List (String × SymbolId)) :
      Keeps (fun t => t.program.symbols = s.program.symbols)
        (es.forM (source.publishName policy)) := by
    induction es with
    | nil => exact .pure _
    | cons e es ih => exact (one e).bind fun _ => ih
  exact ((all table.entries s rfl).ok run).1

end Dcpu16.SourceFile
