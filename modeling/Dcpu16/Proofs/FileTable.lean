import Dcpu16.Proofs.LinkedStore

/-! The table of a file.  Its symbols are those of the store from some number on, and each stands
there under its mangled name.  Hiding renames symbols; it can happen that two local symbols get the
same name, but symbols without a parent never lose theirs. -/

namespace Dcpu16

namespace NameTable

variable {f : SymbolId → Option String} {ids : List SymbolId} {t u : SymbolTable} {key : String}

/-- Changes of a table at the names of symbols, one after the other.  If several have the same name,
one of them has the last word. -/
theorem find?_foldlM {g : SymbolTable → String → SymbolId → SymbolTable}
    {v : SymbolId → Option SymbolId}
    (writes : ∀ u name id key, (g u name id).find? key = if key = name then v id else u.find? key)
    (h : ids.foldlM (fun u id => return g u (← f id) id) t = some u) :
    ((∃ id ∈ ids, f id = some key) → ∃ id ∈ ids, f id = some key ∧ u.find? key = v id) ∧
      ((∀ id ∈ ids, f id ≠ some key) → u.find? key = t.find? key) := by
  induction ids generalizing t with
  | nil =>
    simp only [List.foldlM_nil, Option.pure_def, Option.some.injEq] at h
    simp [h]
  | cons id ids ih =>
    rw [List.foldlM_cons] at h
    obtain ⟨mid, first, rest⟩ := Option.bind_eq_some_iff.mp h
    obtain ⟨name, hName, last⟩ := Option.bind_eq_some_iff.mp first
    cases last
    obtain ⟨comes, stays⟩ := ih rest
    constructor
    · rintro ⟨x, member, hx⟩
      by_cases later : ∃ y ∈ ids, f y = some key
      · obtain ⟨y, inside, hy, found⟩ := comes later
        exact ⟨y, List.mem_cons_of_mem _ inside, hy, found⟩
      · rcases List.mem_cons.mp member with rfl | inside
        · obtain rfl : name = key := Option.some.inj (hName.symm.trans hx)
          refine ⟨x, by simp, hx, ?_⟩
          rw [stays fun y inside hy => later ⟨y, inside, hy⟩, writes, if_pos rfl]
        · exact absurd ⟨x, inside, hx⟩ later
    · intro none
      have other : key ≠ name := fun same => none id (by simp) (same ▸ hName)
      rw [stays fun y inside => none y (List.mem_cons_of_mem _ inside), writes, if_neg other]

theorem find?_eraseAll (h : ids.foldlM (fun u id => return u.erase (← f id)) t = some u) :
    ((∃ id ∈ ids, f id = some key) → u.find? key = none) ∧
      ((∀ id ∈ ids, f id ≠ some key) → u.find? key = t.find? key) := by
  obtain ⟨comes, stays⟩ := find?_foldlM (g := fun u name _ => u.erase name) (v := fun _ => none)
    (fun u name _ key => find?_erase u name key) h
  refine ⟨fun named => ?_, stays⟩
  obtain ⟨-, -, -, gone⟩ := comes named
  exact gone

theorem find?_insertAll (h : ids.foldlM (fun u id => return u.insert (← f id) id) t = some u) :
    ((∃ id ∈ ids, f id = some key) → ∃ id ∈ ids, f id = some key ∧ u.find? key = some id) ∧
      ((∀ id ∈ ids, f id ≠ some key) → u.find? key = t.find? key) :=
  find?_foldlM (g := NameTable.insert) (v := some)
    (fun u name id key => find?_insert u name key id) h

end NameTable

namespace SymbolStore

/-- The symbols from `n` on are those of a file.  No two of them have the same name and the same
parent. -/
structure OfFile (s : SymbolStore) (n : Nat) (file : String) : Prop where
  file : ∀ ⦃x : Nat⦄ ⦃sym : Symbol⦄, n ≤ x → s.get? x = some sym → sym.place.file = file
  distinct : ∀ ⦃x y : Nat⦄ ⦃sym sym' : Symbol⦄, n ≤ x → n ≤ y → s.get? x = some sym →
    s.get? y = some sym' → sym.name = sym'.name → sym.parent = sym'.parent → x = y

/-- Every name of the table is the mangled name of its symbol, which is one from `n` on; and each
of these without a parent stands in the table. -/
structure Lists (s : SymbolStore) (n : Nat) (table : SymbolTable) : Prop where
  sound : ∀ ⦃key : String⦄ ⦃x : Nat⦄, table.find? key = some x → n ≤ x ∧ s.mangled? x = some key
  top : ∀ ⦃x : Nat⦄ ⦃sym : Symbol⦄, n ≤ x → s.get? x = some sym → sym.parent = none →
    table.find? sym.ownName = some x

variable {s t : SymbolStore} {n id : Nat} {table table' : SymbolTable} {file : String}

theorem OfFile.of_sameOrigins (h : s.OfFile n file) (same : s.SameOrigins t) : t.OfFile n file := by
  constructor
  · intro x sym new found
    obtain ⟨old, found', -, place, -⟩ := same.get? found
    rw [place, h.file new found']
  · intro x y sym sym' hx hy found found' sameName sameParent
    obtain ⟨old, hOld, name, -, parent⟩ := same.get? found
    obtain ⟨old', hOld', name', -, parent'⟩ := same.get? found'
    exact h.distinct hx hy hOld hOld' (by rw [← name, ← name', sameName])
      (by rw [← parent, ← parent', sameParent])

/-- The mangled name of a symbol without a parent is that of no other symbol of the file. -/
theorem OfFile.eq_of_mangled? {x y : Nat} {sym : Symbol} {key : String} (own : s.OfFile n file)
    (linked : s.Linked n) (hx : n ≤ x) (hy : n ≤ y) (found : s.get? x = some sym)
    (top : sym.parent = none) (h : s.mangled? x = some key) (h' : s.mangled? y = some key) :
    y = x := by
  obtain ⟨sym', found'⟩ := exists_get?_of_mangled? h'
  cases parent : sym'.parent with
  | some p => exact absurd h' (linked.mangled?_ne_of_parent hx hy found top found' parent h)
  | none =>
    have same := linked.name_eq_of_mangled? hy hx found' found h' h
    exact own.distinct hy hx found' found same (parent.trans top.symm)

section Hide

variable {hidden : Symbol} (linked : s.Linked n) (own : s.OfFile n file) (lists : s.Lists n table)
  (new : n ≤ id) (found : s.get? id = some hidden) (h : s.hide? table id = some (t, table'))
include linked lists new found h

theorem Lists.hide_sound {key : String} {x : Nat} (named : table'.find? key = some x) :
    n ≤ x ∧ t.mangled? x = some key := by
  obtain ⟨hT, family, erased, hFamily, hErase, hInsert⟩ := hide?_eq_some.mp h
  by_cases renamed : ∃ m ∈ family, t.mangled? m = some key
  · obtain ⟨m, inside, hm, answer⟩ := (NameTable.find?_insertAll hInsert).1 renamed
    obtain rfl : m = x := Option.some.inj (answer.symm.trans named)
    exact ⟨linked.le_of_mem_family hFamily new found inside, hm⟩
  · rw [(NameTable.find?_insertAll hInsert).2 fun m inside hm => renamed ⟨m, inside, hm⟩] at named
    have kept : ∀ m ∈ family, s.mangled? m ≠ some key := fun m inside hm => by
      simp [(NameTable.find?_eraseAll hErase).1 ⟨m, inside, hm⟩] at named
    rw [(NameTable.find?_eraseAll hErase).2 kept] at named
    obtain ⟨old, hOld⟩ := lists.sound named
    have outside : x ∉ family := fun inside => kept x inside hOld
    rw [linked.mem_family_iff hFamily new found, not_or] at outside
    exact ⟨old, hT ▸ linked.mangled?_hide old outside.1
      (fun child hChild isChild => outside.2 ⟨old, child, hChild, isChild⟩) hOld⟩

include own

theorem Lists.hide_top {x : Nat} {sym : Symbol} (hx : n ≤ x) (here : t.get? x = some sym)
    (top : sym.parent = none) : table'.find? sym.ownName = some x := by
  obtain ⟨hT, family, erased, hFamily, hErase, hInsert⟩ := hide?_eq_some.mp h
  have newer {m : Nat} (inside : m ∈ family) : n ≤ m :=
    linked.le_of_mem_family hFamily new found inside
  have linked' : t.Linked n := hT ▸ linked.hide id
  have own' : t.OfFile n file :=
    hT ▸ own.of_sameOrigins (.modify s id fun _ => rfl)
  have named := mangled?_own here (.inl top)
  by_cases renamed : ∃ m ∈ family, t.mangled? m = some sym.ownName
  · obtain ⟨m, inside, hm, answer⟩ := (NameTable.find?_insertAll hInsert).1 renamed
    rw [answer, own'.eq_of_mangled? linked' hx (newer inside) here top named hm]
  · rw [(NameTable.find?_insertAll hInsert).2 fun m inside hm => renamed ⟨m, inside, hm⟩]
    have outside : x ∉ family := fun inside => renamed ⟨x, inside, named⟩
    have other : x ≠ id := fun same =>
      outside ((linked.mem_family_iff hFamily new found).mpr (.inl same))
    have before : s.get? x = some sym := by
      rwa [hT, get?_modify, if_neg other] at here
    have kept : ∀ m ∈ family, s.mangled? m ≠ some sym.ownName := by
      intro m inside hm
      have same := own.eq_of_mangled? linked hx (newer inside) before top
        (mangled?_own before (.inl top)) hm
      exact outside (same ▸ inside)
    rw [(NameTable.find?_eraseAll hErase).2 kept]
    exact lists.top hx before top

/-- Hiding a symbol of the file keeps its table in order. -/
theorem Lists.hide : t.Lists n table' :=
  ⟨fun _ _ => lists.hide_sound linked new found h,
    fun _ _ => lists.hide_top linked own new found h⟩

end Hide

end SymbolStore

end Dcpu16
