import Dcpu16.Proofs.Declarations
import Dcpu16.Proofs.Families

/-! Mangled names are unambiguous.  The name of a file may have any characters, also those that
separate the parts of a mangled name, but the last part is the name of a label.  It can be told from
what stands in front of it, and its dot tells a local symbol from a hidden one. -/

namespace Dcpu16.SymbolStore

variable {s t : SymbolStore} {x y p : Nat} {a b sym psym : Symbol} {key key' : String}

/-- The symbols are those of labels.  Exactly the local ones have a dot in front, and they have a
parent that is not local itself. -/
structure FromLabels (s : SymbolStore) : Prop where
  name : ∀ sym ∈ s.symbols, Label.isName sym.name.toList = true
  dot : ∀ sym ∈ s.symbols, sym.name.toList.head? = some '.' ↔ sym.visibility = .scoped
  parent : ∀ sym ∈ s.symbols, sym.visibility = .scoped →
    ∃ p psym, sym.parent = some p ∧ s.get? p = some psym ∧ psym.visibility ≠ .scoped

/-- How two symbols come to the same mangled name. -/
inductive SameLabel (s t : SymbolStore) (a b : Symbol) : Prop
  | global (left : a.visibility = .global) (right : b.visibility = .global)
      (name : a.name = b.name)
  | hidden (left : a.visibility = .hidden) (right : b.visibility = .hidden)
      (name : a.name = b.name)
      (file : Symbol.fileName a.place.file = Symbol.fileName b.place.file)
  | nested {p q : SymbolId} {front : String} (left : a.visibility = .scoped)
      (right : b.visibility = .scoped) (name : a.name = b.name) (parent : a.parent = some p)
      (parent' : b.parent = some q) (named : s.mangled? p = some front)
      (named' : t.mangled? q = some front)

theorem mem_of_get? (found : s.get? x = some sym) : sym ∈ s.symbols :=
  List.mem_of_getElem? found

/-- A symbol that is not local is known without its parent. -/
theorem mangledWithin_top (found : s.get? p = some psym) (top : psym.visibility ≠ .scoped)
    (fuel : Nat) : s.mangledWithin (fuel + 1) p = s.mangled? p := by
  rw [mangled?, mangledWithin_succ, mangledWithin_succ, found]
  simp only [Option.bind_some]
  unfold Symbol.nameFrom
  split
  · next visibility _ => exact absurd visibility top
  · rfl
  · rfl

theorem mangled?_global (found : s.get? x = some sym) (visibility : sym.visibility = .global) :
    s.mangled? x = some sym.name := by
  rw [mangled?, mangledWithin_succ, found]
  simp [Symbol.nameFrom, visibility]

theorem mangled?_hidden (found : s.get? x = some sym) (visibility : sym.visibility = .hidden) :
    s.mangled? x = some (Symbol.localName (Symbol.fileName sym.place.file) sym.name) := by
  rw [mangled?_own found (.inr visibility), Symbol.ownName, if_pos visibility,
    Symbol.privateName_eq_localName]

namespace FromLabels

theorem simple (labels : s.FromLabels) (found : s.get? x = some sym) : Symbol.Simple sym.name := by
  have simple := Label.simple_of_isName (labels.name sym (mem_of_get? found))
  rwa [String.ofList_toList] at simple

/-- The mangled name of a local symbol has that of its parent in front. -/
theorem exists_front (labels : s.FromLabels) (found : s.get? x = some sym)
    (visibility : sym.visibility = .scoped) (named : s.mangled? x = some key) :
    ∃ p front, sym.parent = some p ∧ s.mangled? p = some front ∧
      key = Symbol.localName front sym.name := by
  obtain ⟨p, psym, parent, hp, top⟩ := labels.parent sym (mem_of_get? found) visibility
  rw [mangled?, mangledWithin_succ, found, Option.bind_some, Symbol.nameFrom] at named
  simp only [visibility, parent, Option.map_eq_some_iff] at named
  obtain ⟨front, above, rfl⟩ := named
  cases x with
  | zero => cases above
  | succ x =>
    rw [mangledWithin_top hp top] at above
    exact ⟨p, front, parent, above, rfl⟩

/-- The mangled name of a symbol is its own name, or that behind the name of its file or behind the
mangled name of its parent. -/
theorem mangled?_cases (labels : s.FromLabels) (found : s.get? x = some sym)
    (named : s.mangled? x = some key) :
    (sym.visibility = .global ∧ key = sym.name) ∨
    (sym.visibility = .hidden ∧
      key = Symbol.localName (Symbol.fileName sym.place.file) sym.name) ∨
    (sym.visibility = .scoped ∧ ∃ p front, sym.parent = some p ∧ s.mangled? p = some front ∧
      key = Symbol.localName front sym.name) := by
  cases visibility : sym.visibility with
  | global =>
    rw [mangled?_global found visibility, Option.some.injEq] at named
    exact .inl ⟨rfl, named.symm⟩
  | hidden =>
    rw [mangled?_hidden found visibility, Option.some.injEq] at named
    exact .inr (.inl ⟨rfl, named.symm⟩)
  | _ => exact .inr (.inr ⟨rfl, labels.exists_front found visibility named⟩)

/-- A symbol that is not local does not end in the name of one that is. -/
theorem ne_of_visibility (hs : s.FromLabels) (ht : t.FromLabels)
    (found : s.get? x = some a) (found' : t.get? y = some b) (left : a.visibility = .hidden)
    (right : b.visibility = .scoped) (front front' : String) :
    Symbol.localName front a.name ≠ Symbol.localName front' b.name := by
  intro same
  obtain ⟨-, names⟩ := (Symbol.localName_inj (hs.simple found) (ht.simple found')).mp same
  have dot := (ht.dot b (mem_of_get? found')).mpr right
  rw [← names, hs.dot a (mem_of_get? found), left] at dot
  cases dot

end FromLabels

/-- Mangled names are unambiguous.  Two symbols have the same mangled name exactly if both are
global and have the same name, or both are hidden and have the same name and the same file in
mangled names, or both are local and have the same name and parents with the same mangled name. -/
theorem mangled?_unambiguous (hs : s.FromLabels) (ht : t.FromLabels) (found : s.get? x = some a)
    (found' : t.get? y = some b) (named : s.mangled? x = some key)
    (named' : t.mangled? y = some key') : key = key' ↔ s.SameLabel t a b := by
  have simple := hs.simple found
  have simple' := ht.simple found'
  constructor
  · rintro rfl
    rcases hs.mangled?_cases found named with
      ⟨left, same⟩ | ⟨left, same⟩ | ⟨left, p, front, parent, above, same⟩ <;>
    rcases ht.mangled?_cases found' named' with
      ⟨right, same'⟩ | ⟨right, same'⟩ | ⟨right, q, front', parent', above', same'⟩
    · exact .global left right (same.symm.trans same')
    · exact absurd (same'.symm.trans same) (Symbol.localName_ne simple)
    · exact absurd (same'.symm.trans same) (Symbol.localName_ne simple)
    · exact absurd (same.symm.trans same') (Symbol.localName_ne simple')
    · obtain ⟨file, name⟩ := (Symbol.localName_inj simple simple').mp (same.symm.trans same')
      exact .hidden left right name file
    · exact absurd (same.symm.trans same') (hs.ne_of_visibility ht found found' left right _ _)
    · exact absurd (same.symm.trans same') (Symbol.localName_ne simple')
    · exact absurd (same'.symm.trans same) (ht.ne_of_visibility hs found' found right left _ _)
    · obtain ⟨rfl, name⟩ := (Symbol.localName_inj simple simple').mp (same.symm.trans same')
      exact .nested left right name parent parent' above above'
  · intro alike
    cases alike with
    | global left right name =>
      rw [mangled?_global found left, Option.some.injEq] at named
      rw [mangled?_global found' right, Option.some.injEq] at named'
      rw [← named, ← named', name]
    | hidden left right name file =>
      rw [mangled?_hidden found left, Option.some.injEq] at named
      rw [mangled?_hidden found' right, Option.some.injEq] at named'
      rw [← named, ← named', name, file]
    | nested left right name parent parent' above above' =>
      obtain ⟨p, front, hp, hFront, rfl⟩ := hs.exists_front found left named
      obtain ⟨q, front', hq, hFront', rfl⟩ := ht.exists_front found' right named'
      cases parent.symm.trans hp
      cases parent'.symm.trans hq
      cases above.symm.trans hFront
      cases above'.symm.trans hFront'
      rw [name]

/-- Two hidden symbols whose files have the same name in mangled names, and a local one below each.
The separator also stands in the names of the files. -/
def mirrored : SymbolStore :=
  ⟨[{ name := "f", place := ⟨"./$$.x/$", 0⟩, parent := none, visibility := .hidden, locals := [1] },
    { name := ".l", place := ⟨"./$$.x/$", 1⟩, parent := some 0, visibility := .scoped },
    { name := "f", place := ⟨"_$$.x\\$", 0⟩, parent := none, visibility := .hidden, locals := [3] },
    { name := ".l", place := ⟨"_$$.x\\$", 1⟩, parent := some 2, visibility := .scoped }]⟩

theorem fromLabels_mirrored : mirrored.FromLabels := by
  refine ⟨by decide, by decide, ?_⟩
  simp [mirrored, get?]

theorem mangled?_unambiguous_mirrored : ∃ a b, mirrored.get? 1 = some a ∧
    mirrored.get? 3 = some b ∧ mirrored.mangled? 1 = some "_$$.x_$$$f$$.l" ∧
    mirrored.mangled? 3 = some "_$$.x_$$$f$$.l" ∧ mirrored.SameLabel mirrored a b := by
  have named : mirrored.mangled? 1 = some "_$$.x_$$$f$$.l" := by decide
  have named' : mirrored.mangled? 3 = some "_$$.x_$$$f$$.l" := by decide
  exact ⟨_, _, rfl, rfl, named, named',
    (mangled?_unambiguous fromLabels_mirrored fromLabels_mirrored rfl rfl named named').mp rfl⟩

end Dcpu16.SymbolStore
