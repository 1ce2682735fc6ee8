import Dcpu16.Proofs.NameTable
import Dcpu16.Proofs.Runs
import Dcpu16.Symbol.Program

/-! The symbols of a store after each of its operations, and what their mangled names depend on. -/

namespace Dcpu16

namespace Symbol

/-- A symbol without the notes that are taken about it once its file has been read: its definition,
its address, and whether anything refers to it. -/
def unmarked (sym : Symbol) : Symbol :=
  { sym with definition := none, referenced := false, address := none }

/-- The part of a symbol that its mangled name depends on. -/
def identity (sym : Symbol) : Symbol :=
  { sym.unmarked with locals := [] }

/-- What a symbol is made with. -/
def origin (sym : Symbol) : String × Place × Option SymbolId :=
  (sym.name, sym.place, sym.parent)

theorem origin_eq_iff {a b : Symbol} : a.origin = b.origin ↔
    a.name = b.name ∧ a.place = b.place ∧ a.parent = b.parent := by
  simp [origin]

theorem identity_eq_iff {a b : Symbol} : a.identity = b.identity ↔
    a.name = b.name ∧ a.place = b.place ∧ a.parent = b.parent ∧ a.visibility = b.visibility := by
  simp [identity, unmarked]

theorem unmarked_eq_iff {a b : Symbol} : a.unmarked = b.unmarked ↔
    a.identity = b.identity ∧ a.locals = b.locals := by
  rw [identity_eq_iff]
  simp [unmarked, and_assoc]

end Symbol

namespace SymbolStore

variable {s t : SymbolStore} {id x : Nat} {sym : Symbol} {name : String}

/-! ### Reading and changing -/

/-- Stores with the same symbols are equal. -/
theorem ext_get? (h : ∀ x, s.get? x = t.get? x) : s = t :=
  congrArg SymbolStore.mk (List.ext_getElem? h)

theorem lt_size_of_get? (h : s.get? x = some sym) : x < s.size :=
  (List.getElem?_eq_some_iff.mp h).1

theorem exists_get? (h : x < s.size) : ∃ sym, s.get? x = some sym :=
  ⟨_, List.getElem?_eq_getElem h⟩

@[simp] theorem size_modify (s : SymbolStore) (id : Nat) (f : Symbol → Symbol) :
    (s.modify id f).size = s.size := by
  simp [size, modify]

@[simp] theorem get?_modify (s : SymbolStore) (id x : Nat) (f : Symbol → Symbol) :
    (s.modify id f).get? x = if x = id then (s.get? x).map f else s.get? x := by
  simp only [get?, modify, List.getElem?_modify, eq_comm (a := id)]
  split <;> simp

/-- A symbol behind the others. -/
theorem get?_snoc (symbols : List Symbol) (sym : Symbol) (x : Nat) :
    (⟨symbols ++ [sym]⟩ : SymbolStore).get? x =
      if x = symbols.length then some sym else symbols[x]? := by
  rw [get?, List.getElem?_append]
  by_cases inside : x < symbols.length
  · rw [if_pos inside, if_neg (by omega)]
  · rw [if_neg inside, List.getElem?_eq_none (l := symbols) (by omega)]
    by_cases last : x = symbols.length
    · simp [last]
    · rw [if_neg last, List.getElem?_eq_none]
      simp
      omega

section Add

variable {place : Place} {parent : Option Nat}

theorem size_add (h : s.add? place name parent = some (id, t)) :
    id = s.size ∧ t.size = s.size + 1 := by
  cases parent with
  | none =>
    simp only [add?, Option.some.injEq, Prod.mk.injEq] at h
    simp [← h.1, ← h.2, size]
  | some p =>
    simp only [add?, Option.ite_none_right_eq_some, Option.some.injEq, Prod.mk.injEq] at h
    obtain ⟨-, hid, rfl⟩ := h
    simp [← hid, size, modify]

/-- A new symbol comes behind the others.  Its parent has it among its locals, and no other symbol
changes. -/
theorem get?_add (h : s.add? place name parent = some (id, t)) (x : Nat) :
    t.get? x =
      if x = s.size then
        some { name, place, parent, visibility := if parent.isSome then .scoped else .global }
      else (s.get? x).map fun sym =>
        if parent = some x then { sym with locals := sym.locals ++ [s.size] } else sym := by
  cases parent with
  | none =>
    simp only [add?, Option.some.injEq, Prod.mk.injEq] at h
    obtain ⟨-, rfl⟩ := h
    rw [get?_snoc]
    simp [size, get?]
  | some p =>
    simp only [add?, Option.ite_none_right_eq_some, Option.some.injEq, Prod.mk.injEq] at h
    obtain ⟨-, -, rfl⟩ := h
    rw [get?_snoc]
    have below := s.get?_modify p x fun sym => { sym with locals := sym.locals ++ [s.size] }
    have length :
        (s.modify p fun sym => { sym with locals := sym.locals ++ [s.size] }).symbols.length =
          s.size := s.size_modify p _
    rw [length]
    by_cases last : x = s.size
    · simp [last]
    · rw [if_neg last, if_neg last]
      refine below.trans ?_
      by_cases same : x = p
      · simp [same]
      · simp [same, Ne.symm same]

/-- A symbol after a new one has come: the new one, or an old one with at most one more local. -/
theorem get?_add_cases (h : s.add? place name parent = some (id, t)) (found : t.get? x = some sym) :
    (x = s.size ∧ sym =
      { name, place, parent, visibility := if parent.isSome then .scoped else .global }) ∨
    ∃ old, s.get? x = some old ∧ sym =
      { old with locals := if parent = some x then old.locals ++ [s.size] else old.locals } := by
  rw [get?_add h] at found
  split at found
  · next last => exact .inl ⟨last, (Option.some.inj found).symm⟩
  · obtain ⟨old, hOld, rfl⟩ := Option.map_eq_some_iff.mp found
    refine .inr ⟨old, hOld, ?_⟩
    split <;> rfl

theorem parent_lt_of_add {p : Nat} (h : s.add? place name (some p) = some (id, t)) :
    p < s.size := by
  simp only [add?, Option.ite_none_right_eq_some] at h
  exact h.1

end Add

theorem define?_eq_some {place : Place} {isNew : Bool} :
    s.define? id place = some (isNew, t) ↔
      (isNew = false ∧ t = s ∧ ∃ sym, s.get? id = some sym ∧ sym.definition.isSome) ∨
      (isNew = true ∧ t = s.modify id (fun sym => { sym with definition := some place }) ∧
        ∃ sym, s.get? id = some sym ∧ sym.definition = none) := by
  unfold define?
  cases found : s.get? id with
  | none => simp
  | some sym =>
    cases defined : sym.definition with
    | none => simp [defined, eq_comm (b := t), eq_comm (b := isNew)]
    | some first => simp [defined, eq_comm (b := t), eq_comm (b := isNew)]

/-! ### Notes about symbols -/

/-- The store without the notes about its symbols. -/
def unmarked (s : SymbolStore) : SymbolStore := ⟨s.symbols.map Symbol.unmarked⟩

theorem get?_unmarked (s : SymbolStore) (x : Nat) :
    s.unmarked.get? x = (s.get? x).map Symbol.unmarked := by
  simp [get?, unmarked]

theorem size_of_unmarked (h : t.unmarked = s.unmarked) : t.size = s.size := by
  have := congrArg size h
  simpa [size, unmarked] using this

/-- Stores that differ in notes only hold the same symbols, up to notes. -/
theorem get?_of_unmarked (h : t.unmarked = s.unmarked) (found : t.get? x = some sym) :
    ∃ old, s.get? x = some old ∧ old.unmarked = sym.unmarked := by
  have same : (s.get? x).map Symbol.unmarked = (t.get? x).map Symbol.unmarked := by
    rw [← get?_unmarked, ← get?_unmarked, h]
  rw [found] at same
  exact Option.map_eq_some_iff.mp same

theorem unmarked_modify (s : SymbolStore) (id : Nat) {f : Symbol → Symbol}
    (keeps : ∀ sym, (f sym).unmarked = sym.unmarked) : (s.modify id f).unmarked = s.unmarked := by
  apply ext_get?
  intro x
  rw [get?_unmarked, get?_unmarked, get?_modify]
  split
  · cases s.get? x <;> simp [keeps]
  · rfl

theorem unmarked_markReferenced (ids : List SymbolId) (s : SymbolStore) :
    (ids.foldl markReferenced s).unmarked = s.unmarked := by
  induction ids generalizing s with
  | nil => rfl
  | cons id ids ih =>
    rw [List.foldl_cons, ih]
    exact unmarked_modify s id fun _ => rfl

/-! ### Resolving names -/

/-- How a name stands for a symbol if it is not in the table as it is: below the scope, as a name of
the file, or as a name that all files share. -/
theorem resolve_eq_some_of_unmangled {table : SymbolTable} {file : String} {scope : Option SymbolId}
    (unmangled : (if Text.hasDoubleDollar name.toList then table.find? name else none) = none) :
    s.resolve table file name scope = .ok (some x) ↔
      (name.toList.head? = some '.' ∧ ∃ id key, scope = some id ∧ s.mangled? id = some key ∧
        table.find? (Symbol.localName key name) = some x) ∨
      (name.toList.head? ≠ some '.' ∧ (table.find? (Symbol.privateName file name) = some x ∨
        table.find? (Symbol.privateName file name) = none ∧ table.find? name = some x)) := by
  unfold resolve
  simp only [unmangled]
  by_cases dot : name.toList.head? = some '.'
  · rw [if_pos dot]
    cases scope with
    | none => simp [dot]
    | some id =>
      cases named : s.mangled? id with
      | none => simp [dot, named, orFault, bind, Except.bind]
      | some key => simp [dot, named, orFault, bind, Except.bind, pure, Except.pure]
  · rw [if_neg dot]
    cases table.find? (Symbol.privateName file name) <;> simp [dot]

/-- How a name without a separator stands for a symbol. -/
theorem resolve_eq_some {table : SymbolTable} {file : String} {scope : Option SymbolId}
    (simple : Text.hasDoubleDollar name.toList = false) :
    s.resolve table file name scope = .ok (some x) ↔
      (name.toList.head? = some '.' ∧ ∃ id key, scope = some id ∧ s.mangled? id = some key ∧
        table.find? (Symbol.localName key name) = some x) ∨
      (name.toList.head? ≠ some '.' ∧ (table.find? (Symbol.privateName file name) = some x ∨
        table.find? (Symbol.privateName file name) = none ∧ table.find? name = some x)) :=
  resolve_eq_some_of_unmangled (by simp [simple])

/-- A name stands for a symbol by some key of the table.  The key has a separator, unless it is the
name and the file has none of its own by that name. -/
theorem exists_key_of_resolve {table : SymbolTable} {file : String} {scope : Option SymbolId}
    (h : s.resolve table file name scope = .ok (some id)) : ∃ key, table.find? key = some id ∧
      ((key = name ∧ Text.hasDoubleDollar name.toList = true) ∨
        (∃ front, key = Symbol.localName front name) ∨
        (key = name ∧ table.find? (Symbol.privateName file name) = none)) := by
  cases mangled : (if Text.hasDoubleDollar name.toList then table.find? name else none) with
  | some x =>
    unfold resolve at h
    simp only [mangled, Except.ok.injEq, Option.some.injEq] at h
    obtain ⟨dollars, found⟩ := Option.ite_none_right_eq_some.mp mangled
    exact ⟨name, h ▸ found, .inl ⟨rfl, dollars⟩⟩
  | none =>
    rcases (resolve_eq_some_of_unmangled mangled).mp h with
      ⟨-, _, front, -, -, found⟩ | ⟨-, found | ⟨notOwn, found⟩⟩
    · exact ⟨_, found, .inr (.inl ⟨front, rfl⟩)⟩
    · exact ⟨_, found, .inr (.inl ⟨Symbol.fileName file, rfl⟩)⟩
    · exact ⟨name, found, .inr (.inr ⟨rfl, notOwn⟩)⟩

/-! ### Origins -/

/-- The symbols of both stores were made in the same way. -/
def SameOrigins (s t : SymbolStore) : Prop :=
  ∀ x, (t.get? x).map Symbol.origin = (s.get? x).map Symbol.origin

namespace SameOrigins

theorem symm (h : s.SameOrigins t) : t.SameOrigins s := fun x => (h x).symm

theorem get? (h : s.SameOrigins t) (found : t.get? x = some sym) :
    ∃ old, s.get? x = some old ∧ sym.name = old.name ∧ sym.place = old.place ∧
      sym.parent = old.parent := by
  have same := h x
  rw [found, Option.map_some, eq_comm, Option.map_eq_some_iff] at same
  obtain ⟨old, found', origin⟩ := same
  obtain ⟨name, place, parent⟩ := Symbol.origin_eq_iff.mp origin
  exact ⟨old, found', name.symm, place.symm, parent.symm⟩

theorem modify (s : SymbolStore) (id : Nat) {f : Symbol → Symbol}
    (keeps : ∀ sym, (f sym).origin = sym.origin) : s.SameOrigins (s.modify id f) := by
  intro x
  rw [get?_modify]
  split
  · cases s.get? x <;> simp [keeps]
  · rfl

theorem of_unmarked (h : t.unmarked = s.unmarked) : s.SameOrigins t := by
  intro x
  have same : (t.get? x).map Symbol.unmarked = (s.get? x).map Symbol.unmarked := by
    rw [← get?_unmarked, ← get?_unmarked, h]
  have origins := congrArg (Option.map Symbol.origin) same
  rw [Option.map_map, Option.map_map] at origins
  exact origins

end SameOrigins

/-! ### Families and hiding -/

/-- Hiding a symbol changes nothing in the store but its visibility. -/
theorem hide?_eq_some {table table' : SymbolTable} :
    s.hide? table id = some (t, table') ↔
      t = s.modify id (fun sym => { sym with visibility := .hidden }) ∧
      ∃ family erased, s.family? id = some family ∧
        family.foldlM (fun u member => return u.erase (← s.mangled? member)) table =
          some erased ∧
        family.foldlM (fun u member => return u.insert (← t.mangled? member) member) erased =
          some table' := by
  simp only [hide?, Option.bind_eq_bind, Option.bind_eq_some_iff, Option.pure_def,
    Option.some.injEq, Prod.mk.injEq]
  constructor
  · rintro ⟨family, hFamily, erased, hErase, inserted, hInsert, rfl, rfl⟩
    exact ⟨rfl, family, erased, hFamily, hErase, hInsert⟩
  · rintro ⟨rfl, family, erased, hFamily, hErase, hInsert⟩
    exact ⟨family, hFamily, erased, hErase, table', hInsert, rfl, rfl⟩

/-- All members of a family have a property that passes from a symbol to its locals. -/
theorem family_all {P : Nat → Prop} (down : ∀ x sym, P x → s.get? x = some sym →
      ∀ y ∈ sym.locals, P y) {family : List SymbolId} (h : s.family? id = some family)
    (first : P id) : ∀ x ∈ family, P x := by
  suffices all : ∀ fuel id family, s.familyWithin fuel id = some family → P id →
      ∀ x ∈ family, P x from all s.size id family h first
  intro fuel
  induction fuel with
  | zero => simp [familyWithin]
  | succ fuel ih =>
    intro id family h first x member
    rw [familyWithin] at h
    cases found : s.get? id with
    | none => simp [found] at h
    | some sym =>
      simp only [found, Option.map_eq_some_iff] at h
      obtain ⟨below, each, rfl⟩ := h
      rcases List.mem_cons.mp member with rfl | deeper
      · exact first
      · obtain ⟨part, inBelow, inPart⟩ := List.mem_flatten.mp deeper
        obtain ⟨y, isLocal, hy⟩ :=
          Runs.exists_left_of_forall₂ (Runs.forall₂_of_mapM_some each) inBelow
        exact ih y part hy (down id sym first found y isLocal) x inPart

end SymbolStore

end Dcpu16
