import Dcpu16.Proofs.Linking

/-! What names stand for in the table of the whole program.  A name that a file has bound to a
mangled name stands for the same symbol as the name itself does at the end. -/

namespace Dcpu16

open Dcpu16.Symbol

namespace ObjectFile

variable {o : ObjectFile} {p q : Program} {owner : Option String} {name : String}

/-- Does the file declare a label? -/
def declares (o : ObjectFile) (owner : Option String) (name : String) : Bool :=
  (SourceLine.declarations o.lines).any fun d => d.owner = owner ∧ d.name = name

/-- The symbol of a label of the file. -/
def label? (o : ObjectFile) (owner : Option String) (name : String) : Option SymbolId :=
  o.table.find? (keyIn o.file o.hiddenNames owner name)

namespace Made

variable (made : o.Made p q) (names : LabelName owner name)
include made names

theorem label?_eq_some_iff {x : Nat} :
    o.label? owner name = some x ↔ p.symbols.size ≤ x ∧ q.symbols.IsLabel x owner name := by
  rw [label?, made.key]
  refine and_congr_right fun new => ⟨?_, fun label => ⟨owner, name, label, rfl⟩⟩
  rintro ⟨owner', name', label, same⟩
  obtain ⟨rfl, rfl, -⟩ := keyIn_inj names (made.linked.labelName new label) same
  exact label

theorem isSome_label? : (o.label? owner name).isSome = o.declares owner name := by
  rw [Bool.eq_iff_iff, Option.isSome_iff_exists, declares, List.any_eq_true]
  simp only [made.label?_eq_some_iff names, decide_eq_true_eq]
  constructor
  · rintro ⟨x, new, sym, found, rfl, rfl⟩
    obtain ⟨d, first, -⟩ := made.declared.place new found
    exact ⟨d, List.mem_of_find?_eq_some first, by simpa using List.find?_some first⟩
  · rintro ⟨d, member, rfl, rfl⟩
    exact made.declared.label d member

/-- A key of the file is that of a label with the same name that is hidden or not just as the key
tells. -/
theorem find?_keyIn (file : String) (hidden : List String) :
    o.table.find? (keyIn file hidden owner name) =
      if (owner.getD name ∈ hidden ↔ owner.getD name ∈ o.hiddenNames) ∧
        (owner.getD name ∈ hidden → fileName file = fileName o.file)
      then o.label? owner name else none := by
  split
  · next same => rw [keyIn_congr same.1 same.2, label?]
  · next differ =>
    rw [Option.eq_none_iff_forall_ne_some]
    intro x found
    obtain ⟨new, owner', name', label, same⟩ := (made.key _ x).mp found
    obtain ⟨rfl, rfl, rest⟩ := keyIn_inj names (made.linked.labelName new label) same
    exact differ rest

end Made

end ObjectFile

namespace Program

variable {p q : Program} {file name bound : String} {scope : Option SymbolId} {x : SymbolId}

theorem bindName_eq_ok {id : Option SymbolId} (h : p.bindName file scope name = .ok (bound, id)) :
    (id = none ∧ bound = name ∧ ∀ x, p.resolve file name scope ≠ .ok (some x)) ∨
      ∃ x, id = some x ∧ p.resolve file name scope = .ok (some x) ∧
        p.symbols.mangled? x = some bound := by
  unfold bindName at h
  cases found : p.resolve file name scope with
  | error e =>
    cases e with
    | fault f => simp [found] at h
    | error e =>
      simp only [found, Except.ok.injEq, Prod.mk.injEq] at h
      exact .inl ⟨h.2.symm, h.1.symm, by simp⟩
  | ok x =>
    cases x with
    | none =>
      simp only [found, Except.ok.injEq, Prod.mk.injEq] at h
      exact .inl ⟨h.2.symm, h.1.symm, by simp⟩
    | some x =>
      cases named : p.symbols.mangled? x with
      | none => simp [found, named] at h
      | some key =>
        simp only [found, named, Except.ok.injEq, Prod.mk.injEq] at h
        exact .inr ⟨x, h.2.symm, rfl, h.1 ▸ named⟩

theorem resolve_mangled (dollars : Text.hasDoubleDollar name.toList = true)
    (found : p.table.find? name = some x) : p.resolve file name scope = .ok (some x) := by
  unfold resolve SymbolStore.resolve
  simp only [dollars, if_true, found]

/-- A name is bound to one that stands for the same symbol later. -/
theorem resolve_of_bound {id : Option SymbolId} (named : p.Named)
    (names : p.table.entries <+: q.table.entries) (identity : p.symbols.IdentityIn q.symbols)
    (simple : Text.hasDoubleDollar name.toList = false)
    (h : p.bindName file scope name = .ok (bound, id)) :
    q.resolve file bound scope = q.resolve file name scope := by
  rcases bindName_eq_ok h with ⟨-, same, -⟩ | ⟨x, -, early, mangled⟩
  · rw [same]
  -- A key with a separator is the mangled name of its symbol, and finds it later too.
  have late {front : String} (found : p.table.find? (localName front name) = some x) :
      q.resolve file bound scope = .ok (some x) ∧
        q.table.find? (localName front name) = some x := by
    obtain rfl := Option.some.inj (mangled.symm.trans (named _ _ found))
    have found' := NameTable.find?_of_prefix names found
    exact ⟨resolve_mangled (hasDoubleDollar_localName _ _) found', found'⟩
  rcases (SymbolStore.resolve_eq_some simple).mp early with
    ⟨dot, id, key, rfl, hKey, found⟩ | ⟨noDot, found | ⟨-, found⟩⟩
  · obtain ⟨bound, found'⟩ := late found
    rw [bound]
    exact ((SymbolStore.resolve_eq_some simple).mpr
      (.inl ⟨dot, id, key, rfl, identity.mangled? hKey, found'⟩)).symm
  · obtain ⟨bound, found'⟩ := late found
    rw [bound]
    exact ((SymbolStore.resolve_eq_some simple).mpr (.inr ⟨noDot, .inl found'⟩)).symm
  · obtain rfl := Option.some.inj (mangled.symm.trans (named _ _ found))
    rfl

end Program

theorem Scope.find_eq_ok {scope : Scope} {name : String} {x : SymbolId} :
    scope.find name = .ok x ↔
      scope.program.resolve scope.file name scope.global = .ok (some x) := by
  unfold find
  cases scope.program.resolve scope.file name scope.global with
  | error e => simp [bind, Except.bind]
  | ok found => cases found <;> simp [bind, Except.bind, pure, Except.pure]

/-- A name has an address if it stands for a symbol that has one. -/
theorem Scope.exists_of_lookup {scope : Scope} {name : String} {word : Word}
    (h : scope.lookup name = .ok word) : ∃ x sym,
      scope.program.resolve scope.file name scope.global = .ok (some x) ∧
      scope.program.symbols.get? x = some sym ∧ sym.address = some word := by
  cases found : scope.find name with
  | error e => simp [lookup, found, bind, Except.bind] at h
  | ok x =>
    rw [lookup_of_find found] at h
    cases hSym : scope.program.symbols.get? x with
    | none => simp [addressOf, hSym, orFault, bind, Except.bind] at h
    | some sym =>
      rw [addressOf_of_get? hSym] at h
      refine ⟨x, sym, find_eq_ok.mp found, hSym, ?_⟩
      cases address : sym.address with
      | some word' =>
        rw [address] at h
        exact congrArg some (Except.ok.inj h)
      | none => cases isDefined : sym.definition <;> simp [address, isDefined] at h

end Dcpu16
