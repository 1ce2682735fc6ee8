import Dcpu16.Proofs.MangledNames

/-! Linked stores: from some number on, parents and locals fit together.  The mangled name of a
symbol then follows from the symbol and its parent, and hiding a symbol renames it and its
locals. -/

namespace Dcpu16.SymbolStore

variable {s t : SymbolStore} {n x y p : Nat} {sym child psym : Symbol} {key : String}

/-- The symbols from `n` on: every parent comes before its locals and has no parent of its own.  The
locals of a symbol are those that have it as their parent, in their order, and exactly these have a
dot in front of their name. -/
structure Linked (s : SymbolStore) (n : Nat) : Prop where
  parent : ∀ ⦃x : Nat⦄ ⦃sym : Symbol⦄ ⦃p : Nat⦄, n ≤ x → s.get? x = some sym →
    sym.parent = some p → (n ≤ p ∧ p < x) ∧ ∃ psym, s.get? p = some psym ∧ psym.parent = none
  locals : ∀ ⦃x : Nat⦄ ⦃sym : Symbol⦄, n ≤ x → s.get? x = some sym → ∀ y,
    y ∈ sym.locals ↔ n ≤ y ∧ ∃ child, s.get? y = some child ∧ child.parent = some x
  ascending : ∀ ⦃x : Nat⦄ ⦃sym : Symbol⦄, n ≤ x → s.get? x = some sym →
    sym.locals.Pairwise (· < ·)
  visibility : ∀ ⦃x : Nat⦄ ⦃sym : Symbol⦄, n ≤ x → s.get? x = some sym →
    sym.visibility ≠ .hidden → (sym.visibility = .scoped ↔ sym.parent.isSome)
  simple : ∀ ⦃x : Nat⦄ ⦃sym : Symbol⦄, n ≤ x → s.get? x = some sym → Symbol.Simple sym.name
  dot : ∀ ⦃x : Nat⦄ ⦃sym : Symbol⦄, n ≤ x → s.get? x = some sym →
    (sym.name.toList.head? = some '.' ↔ sym.parent.isSome)

/-- There are no symbols from the end on. -/
theorem linked_size (s : SymbolStore) : s.Linked s.size := by
  have none {x : Nat} {sym : Symbol} (hx : s.size ≤ x) : s.get? x ≠ some sym :=
    fun found => absurd (lt_size_of_get? found) (Nat.not_lt.mpr hx)
  constructor <;> intro x sym
  · intro p hx found
    exact absurd found (none hx)
  all_goals
    intro hx found
    exact absurd found (none hx)

namespace Linked

variable (linked : s.Linked n)
include linked

/-- Any other symbol is known by its name below that of its parent. -/
theorem mangled?_local (hx : n ≤ x) (found : s.get? x = some sym) (parent : sym.parent = some p)
    (visible : sym.visibility ≠ .hidden) (hp : s.get? p = some psym) :
    s.mangled? x = some (Symbol.localName psym.ownName sym.name) := by
  have below : sym.visibility = .scoped :=
    (linked.visibility hx found visible).mpr (by simp [parent])
  obtain ⟨before, psym', hp', top⟩ := linked.parent hx found parent
  obtain rfl : psym' = psym := Option.some.inj (hp'.symm.trans hp)
  obtain ⟨fuel, rfl⟩ : ∃ fuel, x = fuel + 1 := ⟨x - 1, by omega⟩
  rw [SymbolStore.mangled?, mangledWithin, found]
  simp [below, parent, mangledWithin_own hp (.inl top)]

/-- The mangled name of a symbol ends in its own name. -/
theorem mangled?_cases (hx : n ≤ x) (found : s.get? x = some sym) :
    ∃ key, s.mangled? x = some key ∧
      (key = sym.name ∨ ∃ front, key = Symbol.localName front sym.name) := by
  by_cases hidden : sym.visibility = .hidden
  · exact ⟨_, mangled?_own found (.inr hidden),
      .inr ⟨Symbol.fileName sym.place.file, by simp [Symbol.ownName, hidden]; rfl⟩⟩
  · cases parent : sym.parent with
    | none => exact ⟨_, mangled?_own found (.inl parent), .inl (by simp [Symbol.ownName, hidden])⟩
    | some p =>
      obtain ⟨-, psym, hp, -⟩ := linked.parent hx found parent
      exact ⟨_, linked.mangled?_local hx found parent hidden hp, .inr ⟨_, rfl⟩⟩

theorem isSome_mangled? (hx : n ≤ x) (found : s.get? x = some sym) : (s.mangled? x).isSome := by
  obtain ⟨key, named, -⟩ := linked.mangled?_cases hx found
  rw [named]
  rfl

/-- Symbols with the same mangled name have the same name. -/
theorem name_eq_of_mangled? {sym' : Symbol} (hx : n ≤ x) (hy : n ≤ y) (found : s.get? x = some sym)
    (found' : s.get? y = some sym') (h : s.mangled? x = some key) (h' : s.mangled? y = some key) :
    sym.name = sym'.name := by
  obtain ⟨key₁, hk₁, cases₁⟩ := linked.mangled?_cases hx found
  obtain ⟨key₂, hk₂, cases₂⟩ := linked.mangled?_cases hy found'
  obtain rfl : key₁ = key := Option.some.inj (hk₁.symm.trans h)
  obtain rfl : key₂ = key₁ := Option.some.inj (hk₂.symm.trans h')
  exact Symbol.eq_of_ends (linked.simple hx found) (linked.simple hy found') cases₁ cases₂

/-- A symbol with a parent and one without have different mangled names. -/
theorem mangled?_ne_of_parent {sym' : Symbol} (hx : n ≤ x) (hy : n ≤ y)
    (found : s.get? x = some sym) (top : sym.parent = none) (found' : s.get? y = some sym')
    (parent : sym'.parent = some p) (h : s.mangled? x = some key) : s.mangled? y ≠ some key := by
  intro h'
  have same := linked.name_eq_of_mangled? hx hy found found' h h'
  have dot := (linked.dot hy found').mpr (by simp [parent])
  rw [← same, linked.dot hx found, top] at dot
  simp at dot

/-! ### Operations keep a store linked -/

/-- Changes of symbols that keep their names, parents and locals, and at most hide them. -/
theorem of_same
    (back : ∀ {x : Nat} {sym : Symbol}, t.get? x = some sym →
      ∃ old, s.get? x = some old ∧ old.name = sym.name ∧ old.parent = sym.parent ∧
        old.locals = sym.locals ∧ (old.visibility = sym.visibility ∨ sym.visibility = .hidden))
    (forth : ∀ {x : Nat} {sym : Symbol}, s.get? x = some sym →
      ∃ later, t.get? x = some later ∧ later.parent = sym.parent) : t.Linked n := by
  constructor
  · intro x sym p hx found parent
    obtain ⟨old, found', -, hParent, -⟩ := back found
    obtain ⟨before, psym, hp, top⟩ := linked.parent hx found' (hParent.trans parent)
    obtain ⟨later, hLater, sameParent⟩ := forth hp
    exact ⟨before, later, hLater, sameParent.trans top⟩
  · intro x sym hx found y
    obtain ⟨old, found', -, -, hLocals, -⟩ := back found
    rw [← hLocals, linked.locals hx found' y]
    refine and_congr_right fun _ => ⟨?_, ?_⟩
    · rintro ⟨child, hChild, isChild⟩
      obtain ⟨later, hLater, sameParent⟩ := forth hChild
      exact ⟨later, hLater, sameParent.trans isChild⟩
    · rintro ⟨child, hChild, isChild⟩
      obtain ⟨old', hOld, -, sameParent, -⟩ := back hChild
      exact ⟨old', hOld, sameParent.trans isChild⟩
  · intro x sym hx found
    obtain ⟨old, found', -, -, hLocals, -⟩ := back found
    exact hLocals ▸ linked.ascending hx found'
  · intro x sym hx found visible
    obtain ⟨old, found', -, hParent, -, hVisibility⟩ := back found
    have same := hVisibility.resolve_right visible
    rw [← same, ← hParent]
    exact linked.visibility hx found' (same ▸ visible)
  · intro x sym hx found
    obtain ⟨old, found', hName, -⟩ := back found
    exact hName ▸ linked.simple hx found'
  · intro x sym hx found
    obtain ⟨old, found', hName, hParent, -⟩ := back found
    rw [← hName, ← hParent]
    exact linked.dot hx found'

theorem of_unmarked (h : t.unmarked = s.unmarked) : t.Linked n := by
  refine linked.of_same (fun found => ?_) fun found => ?_
  · obtain ⟨old, found', same⟩ := get?_of_unmarked h found
    obtain ⟨identity, locals⟩ := Symbol.unmarked_eq_iff.mp same
    obtain ⟨name, -, parent, visibility⟩ := Symbol.identity_eq_iff.mp identity
    exact ⟨old, found', name, parent, locals, .inl visibility⟩
  · obtain ⟨later, found', same⟩ := get?_of_unmarked h.symm found
    exact ⟨later, found', (Symbol.identity_eq_iff.mp (Symbol.unmarked_eq_iff.mp same).1).2.2.1⟩

theorem hide (id : Nat) :
    (s.modify id fun sym => { sym with visibility := .hidden }).Linked n := by
  refine linked.of_same (fun {x sym} found => ?_) fun {x sym} found => ?_
  · rw [get?_modify] at found
    split at found
    · obtain ⟨old, found', rfl⟩ := Option.map_eq_some_iff.mp found
      exact ⟨old, found', rfl, rfl, rfl, .inr rfl⟩
    · exact ⟨sym, found, rfl, rfl, rfl, .inl rfl⟩
  · rw [get?_modify, found]
    split
    · exact ⟨_, rfl, rfl⟩
    · exact ⟨_, rfl, rfl⟩

section Add

variable {place : Place} {name : String} {parent : Option Nat} {id : Nat}
  (h : s.add? place name parent = some (id, t))
include h

omit linked in
/-- The locals of a symbol after a new one has come. -/
theorem child_add_iff :
    (∃ child, t.get? y = some child ∧ child.parent = some p) ↔
      (∃ child, s.get? y = some child ∧ child.parent = some p) ∨
        (y = s.size ∧ parent = some p) := by
  constructor
  · rintro ⟨child, hChild, isChild⟩
    rcases get?_add_cases h hChild with ⟨last, rfl⟩ | ⟨old, hOld, rfl⟩
    · exact .inr ⟨last, isChild⟩
    · exact .inl ⟨old, hOld, isChild⟩
  · rintro (⟨child, hChild, isChild⟩ | ⟨rfl, isParent⟩)
    · obtain ⟨later, hLater, identity⟩ := identityIn_add h hChild
      exact ⟨later, hLater, (Symbol.identity_eq_iff.mp identity).2.2.1.trans isChild⟩
    · exact ⟨_, (get?_add h s.size).trans (if_pos rfl), isParent⟩

theorem locals_add (size : n ≤ s.size) (hx : n ≤ x) (found : t.get? x = some sym) (y : Nat) :
    y ∈ sym.locals ↔ n ≤ y ∧ ∃ child, t.get? y = some child ∧ child.parent = some x := by
  rw [child_add_iff h]
  rcases get?_add_cases h found with ⟨rfl, rfl⟩ | ⟨old, hOld, rfl⟩
  · -- A new symbol has no locals, as parents come before their locals.
    simp only [List.not_mem_nil, false_iff]
    rintro ⟨hy, ⟨child, hChild, isChild⟩ | ⟨-, rfl⟩⟩
    · have before := (linked.parent hy hChild isChild).1.2
      have inside := lt_size_of_get? hChild
      omega
    · exact absurd (parent_lt_of_add h) (Nat.lt_irrefl _)
  · have before := linked.locals hx hOld y
    by_cases isParent : parent = some x
    · by_cases last : y = s.size
      · simp [isParent, last, size]
      · simp [isParent, last, before]
    · simp [isParent, before]

theorem ascending_add (hx : n ≤ x) (found : t.get? x = some sym) :
    sym.locals.Pairwise (· < ·) := by
  rcases get?_add_cases h found with ⟨-, rfl⟩ | ⟨old, hOld, rfl⟩
  · exact .nil
  · have before := linked.ascending hx hOld
    dsimp only
    split
    · refine List.pairwise_append.mpr ⟨before, List.pairwise_singleton _ _, ?_⟩
      intro y inside z last
      obtain ⟨-, child, hChild, -⟩ := (linked.locals hx hOld y).mp inside
      rw [List.mem_singleton.mp last]
      exact lt_size_of_get? hChild
    · exact before

/-- A new symbol.  It has a dot in front of its name exactly if it has a parent. -/
theorem add (size : n ≤ s.size) (simple : Symbol.Simple name)
    (dot : name.toList.head? = some '.' ↔ parent.isSome)
    (top : ∀ p, parent = some p → n ≤ p ∧ ∃ psym, s.get? p = some psym ∧ psym.parent = none) :
    t.Linked n := by
  refine ⟨fun x sym p hx found isParent => ?_,
    fun x sym hx found => linked.locals_add h size hx found,
    fun x sym hx found => linked.ascending_add h hx found, fun x sym hx found visible => ?_,
    fun x sym hx found => ?_, fun x sym hx found => ?_⟩
  · have before : (n ≤ p ∧ p < x) ∧ ∃ psym, s.get? p = some psym ∧ psym.parent = none := by
      rcases get?_add_cases h found with ⟨rfl, rfl⟩ | ⟨old, hOld, rfl⟩
      · obtain ⟨new, psym, hp, hTop⟩ := top p isParent
        exact ⟨⟨new, lt_size_of_get? hp⟩, psym, hp, hTop⟩
      · exact linked.parent hx hOld isParent
    obtain ⟨less, psym, hp, hTop⟩ := before
    obtain ⟨later, hLater, identity⟩ := identityIn_add h hp
    exact ⟨less, later, hLater, (Symbol.identity_eq_iff.mp identity).2.2.1.trans hTop⟩
  · rcases get?_add_cases h found with ⟨rfl, rfl⟩ | ⟨old, hOld, rfl⟩
    · cases parent <;> simp
    · exact (linked.visibility hx hOld visible :)
  · rcases get?_add_cases h found with ⟨rfl, rfl⟩ | ⟨old, hOld, rfl⟩
    · exact simple
    · exact (linked.simple hx hOld :)
  · rcases get?_add_cases h found with ⟨rfl, rfl⟩ | ⟨old, hOld, rfl⟩
    · exact dot
    · exact (linked.dot hx hOld :)

end Add

/-! ### Families -/

omit linked in
/-- No symbol has its parent on the other side. -/
theorem child_cases (remain : s.RemainIn t) (new : t.Linked s.size) {x y : Nat} {child : Symbol}
    (found : t.get? y = some child) (parent : child.parent = some x) :
    (∃ first, s.get? y = some first ∧ first.parent = some x) ∨ s.size ≤ x ∧ s.size ≤ y := by
  rcases remain.get?_cases found with ⟨first, hFirst, same, -⟩ | behind
  · rw [same] at parent
    exact .inl ⟨first, hFirst, parent⟩
  · exact .inr ⟨(new.parent behind found parent).1.1, behind⟩

omit linked in
/-- New symbols behind old ones, which remain as they are. -/
theorem join (old : s.Linked 0) (remain : s.RemainIn t) (new : t.Linked s.size) : t.Linked 0 := by
  constructor
  · intro x sym p _ found parent
    rcases remain.get?_cases found with ⟨first, hFirst, same, -⟩ | hx
    · rw [same] at parent
      obtain ⟨less, psym, hp, top⟩ := old.parent (Nat.zero_le x) hFirst parent
      obtain ⟨later, hLater, same', -⟩ := remain hp
      exact ⟨less, later, hLater, by rw [same']; exact top⟩
    · obtain ⟨less, rest⟩ := new.parent hx found parent
      exact ⟨⟨Nat.zero_le p, less.2⟩, rest⟩
  · intro x sym _ found y
    rcases remain.get?_cases found with ⟨first, hFirst, same, -⟩ | hx
    · have locals : sym.locals = first.locals := by rw [same]
      rw [locals, old.locals (Nat.zero_le x) hFirst y]
      refine and_congr_right fun _ => ⟨?_, fun ⟨child, hChild, isChild⟩ => ?_⟩
      · rintro ⟨child, hChild, isChild⟩
        obtain ⟨later, hLater, same', -⟩ := remain hChild
        exact ⟨later, hLater, by rw [same']; exact isChild⟩
      · exact (child_cases remain new hChild isChild).resolve_right
          fun behind => absurd (lt_size_of_get? hFirst) (Nat.not_lt.mpr behind.1)
    · rw [new.locals hx found y]
      refine ⟨fun ⟨_, child⟩ => ⟨Nat.zero_le y, child⟩, fun ⟨_, child, hChild, isChild⟩ => ?_⟩
      rcases child_cases remain new hChild isChild with ⟨child', hChild', isChild'⟩ | behind
      · have below := (old.parent (Nat.zero_le y) hChild' isChild').1.2
        have inside := lt_size_of_get? hChild'
        omega
      · exact ⟨behind.2, child, hChild, isChild⟩
  all_goals intro x sym _ found
  · exact remain.forall_get? (P := fun sym => sym.locals.Pairwise (· < ·)) (fun _ _ h => h)
      (fun x _ => old.ascending (Nat.zero_le x)) new.ascending found
  · exact remain.forall_get? (P := fun sym => sym.visibility ≠ .hidden →
      (sym.visibility = .scoped ↔ sym.parent.isSome)) (fun _ _ h => h)
      (fun x _ => old.visibility (Nat.zero_le x)) new.visibility found
  · exact remain.forall_get? (P := fun sym => Symbol.Simple sym.name) (fun _ _ h => h)
      (fun x _ => old.simple (Nat.zero_le x)) new.simple found
  · exact remain.forall_get? (P := fun sym => sym.name.toList.head? = some '.' ↔ sym.parent.isSome)
      (fun _ _ h => h) (fun x _ => old.dot (Nat.zero_le x)) new.dot found

/-- Locals have no locals of their own. -/
theorem locals_eq_nil (hx : n ≤ x) (found : s.get? x = some sym) (parent : sym.parent = some p) :
    sym.locals = [] := by
  refine List.eq_nil_iff_forall_not_mem.mpr fun y member => ?_
  obtain ⟨hy, child, hChild, isChild⟩ := (linked.locals hx found y).mp member
  obtain ⟨-, sym', found', top⟩ := linked.parent hy hChild isChild
  obtain rfl : sym' = sym := Option.some.inj (found'.symm.trans found)
  simp [top] at parent

/-- The family of a symbol is the symbol and its locals. -/
theorem family?_eq (hx : n ≤ x) (found : s.get? x = some sym) :
    s.family? x = some (x :: sym.locals) := by
  have inside := lt_size_of_get? found
  obtain ⟨fuel, size⟩ : ∃ fuel, s.size = fuel + 1 := ⟨s.size - 1, by omega⟩
  have each : ∀ y ∈ sym.locals, s.familyWithin fuel y = some [y] := by
    intro y member
    obtain ⟨hy, child, hChild, isChild⟩ := (linked.locals hx found y).mp member
    obtain ⟨before, -⟩ := linked.parent hy hChild isChild
    have inside' := lt_size_of_get? hChild
    obtain ⟨fuel', rfl⟩ : ∃ fuel', fuel = fuel' + 1 := ⟨fuel - 1, by omega⟩
    rw [familyWithin, hChild]
    simp [linked.locals_eq_nil hy hChild isChild]
  rw [family?, size, familyWithin, found]
  simp [Runs.mapM_eq_some_map each, ← List.flatMap_def]

theorem mem_family_iff {family : List SymbolId} (h : s.family? x = some family) (hx : n ≤ x)
    (found : s.get? x = some sym) :
    y ∈ family ↔ y = x ∨ (n ≤ y ∧ ∃ child, s.get? y = some child ∧ child.parent = some x) := by
  rw [linked.family?_eq hx found, Option.some.injEq] at h
  rw [← h, List.mem_cons, linked.locals hx found y]

theorem le_of_mem_family {family : List SymbolId} (h : s.family? x = some family) (hx : n ≤ x)
    (found : s.get? x = some sym) (member : y ∈ family) : n ≤ y := by
  rcases (linked.mem_family_iff h hx found).mp member with same | ⟨hy, -⟩
  · exact same ▸ hx
  · exact hy

/-- Hiding a symbol renames only the symbol and its locals. -/
theorem mangled?_hide (hy : n ≤ y) (other : y ≠ x)
    (apart : ∀ child, s.get? y = some child → child.parent ≠ some x)
    (h : s.mangled? y = some key) :
    (s.modify x fun sym => { sym with visibility := .hidden }).mangled? y = some key := by
  obtain ⟨sym, found⟩ := exists_get?_of_mangled? h
  have same : (s.modify x fun sym => { sym with visibility := .hidden }).get? y = some sym := by
    rw [get?_modify, if_neg other, found]
  by_cases own : sym.parent = none ∨ sym.visibility = .hidden
  · rw [← h, mangled?_own found own, mangled?_own same own]
  · rw [not_or] at own
    obtain ⟨p, parent⟩ := Option.ne_none_iff_exists'.mp own.1
    obtain ⟨-, psym, hp, -⟩ := linked.parent hy found parent
    have elsewhere : p ≠ x := fun isParent => apart sym found (isParent ▸ parent)
    have hp' : (s.modify x fun sym => { sym with visibility := .hidden }).get? p = some psym := by
      rw [get?_modify, if_neg elsewhere, hp]
    rw [← h, linked.mangled?_local hy found parent own.2 hp,
      (linked.hide x).mangled?_local hy same parent own.2 hp']

end Linked

end Dcpu16.SymbolStore
