import Dcpu16.Proofs.Declarations
import Dcpu16.Proofs.FileTable

/-! Which label a symbol stands for: a name, and the label that it is local to.  The mangled name of
a symbol is that of its label. -/

namespace Dcpu16

namespace SymbolStore

variable {s t : SymbolStore} {n x y : Nat} {sym : Symbol} {owner : Option String} {name : String}

/-- The name of the symbol that a symbol is local to. -/
def ownerName (s : SymbolStore) (sym : Symbol) : Option String :=
  (sym.parent.bind s.get?).map Symbol.name

/-- The symbol stands for the label `name`, local to `owner`. -/
def IsLabel (s : SymbolStore) (x : Nat) (owner : Option String) (name : String) : Prop :=
  ∃ sym, s.get? x = some sym ∧ sym.name = name ∧ s.ownerName sym = owner

theorem isLabel_of_get? (found : s.get? x = some sym) :
    s.IsLabel x (s.ownerName sym) sym.name :=
  ⟨sym, found, rfl, rfl⟩

theorem IsLabel.eq {owner' : Option String} {name' : String} (h : s.IsLabel x owner name)
    (h' : s.IsLabel x owner' name') : owner = owner' ∧ name = name' := by
  obtain ⟨sym, found, rfl, rfl⟩ := h
  obtain ⟨sym', found', rfl, rfl⟩ := h'
  obtain rfl : sym = sym' := Option.some.inj (found.symm.trans found')
  exact ⟨rfl, rfl⟩

theorem SameOrigins.ownerName {sym' : Symbol} (same : s.SameOrigins t)
    (parent : sym'.parent = sym.parent) : t.ownerName sym' = s.ownerName sym := by
  rw [SymbolStore.ownerName, SymbolStore.ownerName, parent]
  cases sym.parent with
  | none => rfl
  | some p =>
    have names := congrArg (Option.map Prod.fst) (same p)
    rw [Option.map_map, Option.map_map] at names
    exact names

theorem IsLabel.of_sameOrigins (same : s.SameOrigins t) (h : s.IsLabel x owner name) :
    t.IsLabel x owner name := by
  obtain ⟨sym, found, rfl, rfl⟩ := h
  obtain ⟨later, found', hName, -, hParent⟩ := same.symm.get? found
  exact ⟨later, found', hName.symm, same.ownerName hParent.symm⟩

namespace Linked

variable (linked : s.Linked n)
include linked

theorem isLabel_none_iff (hx : n ≤ x) :
    s.IsLabel x none name ↔ ∃ sym, s.get? x = some sym ∧ sym.name = name ∧ sym.parent = none := by
  constructor
  · rintro ⟨sym, found, hName, hOwner⟩
    cases parent : sym.parent with
    | none => exact ⟨sym, found, hName, parent⟩
    | some p =>
      obtain ⟨-, psym, hp, -⟩ := linked.parent hx found parent
      simp [ownerName, parent, hp] at hOwner
  · rintro ⟨sym, found, hName, parent⟩
    exact ⟨sym, found, hName, by simp [ownerName, parent]⟩

omit linked in
theorem isLabel_some_iff {g : String} :
    s.IsLabel x (some g) name ↔ ∃ sym p psym, s.get? x = some sym ∧ sym.name = name ∧
      sym.parent = some p ∧ s.get? p = some psym ∧ psym.name = g := by
  simp only [IsLabel, ownerName, Option.map_eq_some_iff, Option.bind_eq_some_iff]
  constructor
  · rintro ⟨sym, found, hName, psym, ⟨p, parent, hp⟩, rfl⟩
    exact ⟨sym, p, psym, found, hName, parent, hp, rfl⟩
  · rintro ⟨sym, p, psym, found, hName, parent, hp, rfl⟩
    exact ⟨sym, found, hName, psym, ⟨p, parent, hp⟩, rfl⟩

/-- Symbols stand for the same labels in a store that has them with the same identity. -/
theorem isLabel_of_identityIn (same : s.IdentityIn t) (hx : n ≤ x) (h : s.IsLabel x owner name) :
    t.IsLabel x owner name := by
  obtain ⟨sym, found, rfl, rfl⟩ := h
  obtain ⟨later, found', identity⟩ := same found
  obtain ⟨hName, -, hParent, -⟩ := Symbol.identity_eq_iff.mp identity
  refine ⟨later, found', hName, ?_⟩
  cases parent : sym.parent with
  | none => simp [ownerName, hParent, parent]
  | some p =>
    obtain ⟨-, psym, hp, -⟩ := linked.parent hx found parent
    obtain ⟨plater, hp', pidentity⟩ := same hp
    simp [ownerName, hParent, parent, hp, hp', (Symbol.identity_eq_iff.mp pidentity).1]

theorem labelName (hx : n ≤ x) (h : s.IsLabel x owner name) : Symbol.LabelName owner name := by
  obtain ⟨sym, found, rfl, rfl⟩ := h
  refine ⟨linked.simple hx found, ?_, fun g hOwner => ?_⟩
  · rw [linked.dot hx found]
    cases parent : sym.parent with
    | none => simp [ownerName, parent]
    | some p =>
      obtain ⟨-, psym, hp, -⟩ := linked.parent hx found parent
      simp [ownerName, parent, hp]
  · obtain ⟨psym, hBind, rfl⟩ := Option.map_eq_some_iff.mp hOwner
    obtain ⟨p, parent, hp⟩ := Option.bind_eq_some_iff.mp hBind
    exact linked.simple (linked.parent hx found parent).1.1 hp

end Linked

/-- Of the symbols of a file that have no parent exactly those with a name in `hidden` are
hidden. -/
def Hides (s : SymbolStore) (n : Nat) (hidden : List String) : Prop :=
  ∀ ⦃x : Nat⦄ ⦃sym : Symbol⦄, n ≤ x → s.get? x = some sym → sym.parent = none →
    (sym.visibility = .hidden ↔ sym.name ∈ hidden)

section MangledName

variable {file : String} {hidden : List String} (linked : s.Linked n) (own : s.OfFile n file)
  (hides : s.Hides n hidden)
include own hides

theorem ownName_eq_keyIn (hx : n ≤ x) (found : s.get? x = some sym) (top : sym.parent = none) :
    sym.ownName = Symbol.keyIn file hidden none sym.name := by
  simp only [Symbol.ownName, Symbol.keyIn, hides hx found top, own.file hx found]

include linked

/-- The mangled name of a label, unless it is local and hidden itself. -/
theorem mangled?_eq_keyIn (hx : n ≤ x) (h : s.IsLabel x owner name)
    (visible : ∀ sym, s.get? x = some sym → sym.parent ≠ none → sym.visibility ≠ .hidden) :
    s.mangled? x = some (Symbol.keyIn file hidden owner name) := by
  cases owner with
  | none =>
    obtain ⟨sym, found, rfl, top⟩ := (linked.isLabel_none_iff hx).mp h
    rw [mangled?_own found (.inl top), ownName_eq_keyIn own hides hx found top]
  | some g =>
    obtain ⟨sym, p, psym, found, rfl, parent, hp, rfl⟩ := Linked.isLabel_some_iff.mp h
    obtain ⟨⟨new, -⟩, psym', hp', top⟩ := linked.parent hx found parent
    obtain rfl : psym' = psym := Option.some.inj (hp'.symm.trans hp)
    rw [linked.mangled?_local hx found parent (visible sym found (by simp [parent])) hp,
      ownName_eq_keyIn own hides new hp top]
    rfl

end MangledName

/-- No two symbols of a file stand for the same label. -/
theorem OfFile.eq_of_isLabel {file : String} (own : s.OfFile n file) (linked : s.Linked n)
    (hx : n ≤ x) (hy : n ≤ y) (h : s.IsLabel x owner name) (h' : s.IsLabel y owner name) :
    x = y := by
  cases owner with
  | none =>
    obtain ⟨sym, found, hName, top⟩ := (linked.isLabel_none_iff hx).mp h
    obtain ⟨sym', found', hName', top'⟩ := (linked.isLabel_none_iff hy).mp h'
    exact own.distinct hx hy found found' (hName.trans hName'.symm) (top.trans top'.symm)
  | some g =>
    obtain ⟨sym, p, psym, found, hName, parent, hp, hOwner⟩ := Linked.isLabel_some_iff.mp h
    obtain ⟨sym', p', psym', found', hName', parent', hp', hOwner'⟩ := Linked.isLabel_some_iff.mp h'
    obtain ⟨⟨new, -⟩, q, hq, top⟩ := linked.parent hx found parent
    obtain ⟨⟨new', -⟩, q', hq', top'⟩ := linked.parent hy found' parent'
    obtain rfl : q = psym := Option.some.inj (hq.symm.trans hp)
    obtain rfl : q' = psym' := Option.some.inj (hq'.symm.trans hp')
    have same : p = p' :=
      own.distinct new new' hp hp' (hOwner.trans hOwner'.symm) (top.trans top'.symm)
    exact own.distinct hx hy found found' (hName.trans hName'.symm)
      (by rw [parent, parent', same])

/-- The symbol of the last label that is not local. -/
def OwnerIs (s : SymbolStore) (n : Nat) (owner : Option SymbolId) (name : Option String) : Prop :=
  (owner = none ∧ name = none) ∨
    ∃ id g, owner = some id ∧ name = some g ∧ n ≤ id ∧ s.IsLabel id none g

theorem OwnerIs.of_identityIn {id : Option SymbolId} (linked : s.Linked n) (same : s.IdentityIn t)
    (h : s.OwnerIs n id owner) : t.OwnerIs n id owner := by
  rcases h with none | ⟨x, g, hx, hg, new, label⟩
  · exact .inl none
  · exact .inr ⟨x, g, hx, hg, new, linked.isLabel_of_identityIn same new label⟩

theorem OwnerIs.of_sameOrigins {id : Option SymbolId} (same : s.SameOrigins t)
    (h : s.OwnerIs n id owner) : t.OwnerIs n id owner := by
  rcases h with none | ⟨x, g, hx, hg, new, label⟩
  · exact .inl none
  · exact .inr ⟨x, g, hx, hg, new, label.of_sameOrigins same⟩

/-- The symbols of a file are those of the labels that it declares.  A symbol has its place where
its label is declared first. -/
structure Declared (s : SymbolStore) (n : Nat) (file : String) (declarations : List Declaration) :
    Prop where
  place : ∀ ⦃x : Nat⦄ ⦃sym : Symbol⦄, n ≤ x → s.get? x = some sym →
    ∃ d, declarations.find? (fun d => d.owner = s.ownerName sym ∧ d.name = sym.name) = some d ∧
      sym.place = ⟨file, d.line⟩
  label : ∀ d ∈ declarations, ∃ x, n ≤ x ∧ s.IsLabel x d.owner d.name

theorem Declared.of_sameOrigins {file : String} {ds : List Declaration} (h : s.Declared n file ds)
    (same : s.SameOrigins t) : t.Declared n file ds := by
  refine ⟨fun x sym hx found => ?_, fun d member => ?_⟩
  · obtain ⟨old, hOld, hName, hPlace, hParent⟩ := same.get? found
    obtain ⟨d, first, place⟩ := h.place hx hOld
    exact ⟨d, by rw [same.ownerName hParent, hName]; exact first, hPlace.trans place⟩
  · obtain ⟨x, hx, label⟩ := h.label d member
    exact ⟨x, hx, label.of_sameOrigins same⟩

/-- A label that is declared again. -/
theorem Declared.again {file : String} {ds : List Declaration} {d : Declaration}
    (h : s.Declared n file ds) (hx : n ≤ x) (label : s.IsLabel x d.owner d.name) :
    s.Declared n file (ds ++ [d]) := by
  refine ⟨fun y sym hy found => ?_, fun d' member => ?_⟩
  · obtain ⟨first, hFirst, place⟩ := h.place hy found
    exact ⟨first, by rw [List.find?_append, hFirst]; rfl, place⟩
  · rcases List.mem_append.mp member with before | last
    · exact h.label d' before
    · exact List.mem_singleton.mp last ▸ ⟨x, hx, label⟩

/-! ### A new symbol -/

section Add

variable {place : Place} {parent : Option Nat} {id : Nat}
  (h : s.add? place name parent = some (id, t))
include h

theorem ownerName_add :
    (parent.bind t.get?).map Symbol.name = (parent.bind s.get?).map Symbol.name := by
  cases parent with
  | none => rfl
  | some p =>
    obtain ⟨psym, hp⟩ := exists_get? (parent_lt_of_add h)
    obtain ⟨later, hp', same⟩ := identityIn_add h hp
    simp [hp, hp', (Symbol.identity_eq_iff.mp same).1]

theorem Linked.isLabel_add (linked : s.Linked n) (hx : n ≤ x) {other : String} :
    t.IsLabel x owner other ↔ s.IsLabel x owner other ∨
      (x = s.size ∧ other = name ∧ owner = (parent.bind s.get?).map Symbol.name) := by
  constructor
  · intro label
    obtain ⟨sym, found, hName, hOwner⟩ := label
    rcases get?_add_cases h found with ⟨rfl, rfl⟩ | ⟨old, hOld, -⟩
    · exact .inr ⟨rfl, hName.symm, hOwner.symm.trans (ownerName_add h)⟩
    · have before := isLabel_of_get? hOld
      obtain ⟨rfl, rfl⟩ := (linked.isLabel_of_identityIn (identityIn_add h) hx before).eq
        ⟨sym, found, hName, hOwner⟩
      exact .inl before
  · rintro (before | ⟨rfl, rfl, rfl⟩)
    · exact linked.isLabel_of_identityIn (identityIn_add h) hx before
    · exact ⟨_, (get?_add h s.size).trans (if_pos rfl), rfl, ownerName_add h⟩

theorem OfFile.add {file : String} (own : s.OfFile n file) (hPlace : place.file = file)
    (fresh : ∀ ⦃y : Nat⦄ ⦃sym : Symbol⦄, n ≤ y → s.get? y = some sym → sym.name = name →
      sym.parent ≠ parent) : t.OfFile n file := by
  constructor
  · intro x sym hx found
    rcases get?_add_cases h found with ⟨-, rfl⟩ | ⟨old, hOld, rfl⟩
    · exact hPlace
    · exact (own.file hx hOld :)
  · intro x y sym sym' hx hy found found' sameName sameParent
    rcases get?_add_cases h found with ⟨rfl, rfl⟩ | ⟨old, hOld, rfl⟩ <;>
      rcases get?_add_cases h found' with ⟨rfl, rfl⟩ | ⟨old', hOld', rfl⟩
    · rfl
    · exact (fresh hy hOld' sameName.symm sameParent.symm).elim
    · exact (fresh hx hOld sameName sameParent).elim
    · exact own.distinct hx hy hOld hOld' sameName sameParent

/-- A label that is declared for the first time. -/
theorem Declared.add {file : String} {ds : List Declaration} {d : Declaration}
    (declared : s.Declared n file ds) (linked : s.Linked n) (size : n ≤ s.size)
    (hPlace : place = ⟨file, d.line⟩) (hName : d.name = name)
    (hOwner : d.owner = (parent.bind s.get?).map Symbol.name)
    (fresh : ∀ y, n ≤ y → ¬ s.IsLabel y d.owner d.name) : t.Declared n file (ds ++ [d]) := by
  refine ⟨fun x sym hx found => ?_, fun d' member => ?_⟩
  · rcases (linked.isLabel_add h hx).mp (isLabel_of_get? found) with
      before | ⟨rfl, sameName, sameOwner⟩
    · obtain ⟨old, hOld, oldName, oldOwner⟩ := before
      obtain ⟨first, hFirst, place⟩ := declared.place hx hOld
      obtain ⟨later, hLater, identity⟩ := identityIn_add h hOld
      obtain rfl : later = sym := Option.some.inj (hLater.symm.trans found)
      refine ⟨first, ?_, ?_⟩
      · rw [oldName, oldOwner] at hFirst
        rw [List.find?_append, hFirst]
        rfl
      · rw [← place, (Symbol.identity_eq_iff.mp identity).2.1]
    · have notBefore : ds.find? (fun d' => d'.owner = d.owner ∧ d'.name = d.name) = none := by
        rw [List.find?_eq_none]
        intro d' member same
        simp only [decide_eq_true_eq] at same
        obtain ⟨y, hy, label⟩ := declared.label d' member
        exact fresh y hy (same.1 ▸ same.2 ▸ label)
      refine ⟨d, ?_, ?_⟩
      · rw [sameOwner, sameName, ← hOwner, ← hName, List.find?_append, notBefore]
        simp
      · rw [get?_add h, if_pos rfl] at found
        rw [← Option.some.inj found, hPlace]
  · rcases List.mem_append.mp member with before | last
    · obtain ⟨x, hx, label⟩ := declared.label d' before
      exact ⟨x, hx, (linked.isLabel_add h hx).mpr (.inl label)⟩
    · rw [List.mem_singleton.mp last]
      exact ⟨s.size, size, (linked.isLabel_add h size).mpr (.inr ⟨rfl, hName, hOwner⟩)⟩

end Add

end SymbolStore

end Dcpu16
