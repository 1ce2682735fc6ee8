import Dcpu16.Proofs.FileTable

/-! Families of symbols, nested to any depth.  In a store that has grown by adding and hiding
symbols, parents come before their locals, so that mangled names and families are never cut off.
Hiding a symbol renames its family in a table, and nothing else. -/

namespace Dcpu16

namespace SymbolStore

variable {s t : SymbolStore} {id x y p : Nat} {sym : Symbol} {key : String}

/-- The stores that adding and hiding symbols lead to. -/
inductive Grown : SymbolStore → Prop
  | empty : Grown .empty
  | add {s t : SymbolStore} {place : Place} {name : String} {parent : Option SymbolId}
      {id : SymbolId} (grown : Grown s) (step : s.add? place name parent = some (id, t)) : Grown t
  | hide {s t : SymbolStore} {table table' : SymbolTable} {id : SymbolId} (grown : Grown s)
      (step : s.hide? table id = some (t, table')) : Grown t

/-- A symbol, and the symbols below it. -/
inductive InFamily (s : SymbolStore) (id : SymbolId) : SymbolId → Prop
  | self : InFamily s id id
  | child {x y : SymbolId} {sym : Symbol} (above : InFamily s id x) (found : s.get? x = some sym)
      (isLocal : y ∈ sym.locals) : InFamily s id y

/-- Parents come before their locals, and a symbol is listed by its parent and nowhere else. -/
structure Nested (s : SymbolStore) : Prop where
  parent : ∀ ⦃x : Nat⦄ ⦃sym : Symbol⦄ ⦃p : Nat⦄, s.get? x = some sym → sym.parent = some p →
    p < x ∧ ∃ psym, s.get? p = some psym ∧ x ∈ psym.locals
  locals : ∀ ⦃x : Nat⦄ ⦃sym : Symbol⦄ ⦃y : Nat⦄, s.get? x = some sym → y ∈ sym.locals →
    ∃ child, s.get? y = some child ∧ child.parent = some x

/-- Parents come before their locals.  This is what remains of the order of a store whose symbols
are dropped, so that their numbers go to others. -/
structure Ordered (s : SymbolStore) : Prop where
  parent : ∀ ⦃x : Nat⦄ ⦃sym : Symbol⦄ ⦃p : Nat⦄, s.get? x = some sym → sym.parent = some p → p < x
  locals : ∀ ⦃x : Nat⦄ ⦃sym : Symbol⦄ ⦃y : Nat⦄, s.get? x = some sym → y ∈ sym.locals → x < y

theorem Nested.ordered (nested : s.Nested) : s.Ordered := by
  constructor
  · intro x sym p found isParent
    exact (nested.parent found isParent).1
  · intro x sym y found isLocal
    obtain ⟨child, hChild, isChild⟩ := nested.locals found isLocal
    exact (nested.parent hChild isChild).1

/-! ### Growing -/

theorem nested_empty : empty.Nested := by
  constructor
  · intro x sym p found
    cases found
  · intro x sym y found
    cases found

theorem Nested.hide (nested : s.Nested) (id : Nat) :
    (s.modify id fun sym => { sym with visibility := .hidden }).Nested := by
  -- Hiding changes neither parents nor locals.
  have back {x : Nat} {sym : Symbol}
      (found : (s.modify id fun sym => { sym with visibility := .hidden }).get? x = some sym) :
      ∃ old, s.get? x = some old ∧ old.parent = sym.parent ∧ old.locals = sym.locals := by
    rw [get?_modify] at found
    split at found
    · obtain ⟨old, found', rfl⟩ := Option.map_eq_some_iff.mp found
      exact ⟨old, found', rfl, rfl⟩
    · exact ⟨sym, found, rfl, rfl⟩
  have forth {x : Nat} {sym : Symbol} (found : s.get? x = some sym) :
      ∃ new, (s.modify id fun sym => { sym with visibility := .hidden }).get? x = some new ∧
        new.parent = sym.parent ∧ new.locals = sym.locals := by
    rw [get?_modify, found]
    split
    · exact ⟨_, rfl, rfl, rfl⟩
    · exact ⟨_, rfl, rfl, rfl⟩
  constructor
  · intro x sym p found isParent
    obtain ⟨old, found', parent, -⟩ := back found
    obtain ⟨before, psym, hp, listed⟩ := nested.parent found' (parent.trans isParent)
    obtain ⟨new, hp', -, locals⟩ := forth hp
    exact ⟨before, new, hp', locals ▸ listed⟩
  · intro x sym y found isLocal
    obtain ⟨old, found', -, locals⟩ := back found
    obtain ⟨child, hChild, isChild⟩ := nested.locals found' (locals ▸ isLocal)
    obtain ⟨new, hNew, parent, -⟩ := forth hChild
    exact ⟨new, hNew, parent.trans isChild⟩

theorem Nested.add {place : Place} {name : String} {parent : Option Nat} (nested : s.Nested)
    (h : s.add? place name parent = some (id, t)) : t.Nested := by
  constructor
  · intro x sym p found isParent
    rcases get?_add_cases h found with ⟨rfl, rfl⟩ | ⟨old, hOld, rfl⟩
    · obtain rfl : parent = some p := isParent
      have before := parent_lt_of_add h
      obtain ⟨psym, hp⟩ := exists_get? before
      refine ⟨before, { psym with locals := psym.locals ++ [s.size] }, ?_, by simp⟩
      rw [get?_add h, if_neg (by omega), hp]
      simp
    · obtain ⟨before, psym, hp, listed⟩ := nested.parent hOld isParent
      have inside := lt_size_of_get? hp
      rw [get?_add h, if_neg (by omega), hp]
      refine ⟨before, _, rfl, ?_⟩
      split <;> simp [listed]
  · intro x sym y found isLocal
    rw [Linked.child_add_iff h]
    rcases get?_add_cases h found with ⟨rfl, rfl⟩ | ⟨old, hOld, rfl⟩
    · cases isLocal
    · dsimp only at isLocal
      split at isLocal
      · next isParent =>
        rcases List.mem_append.mp isLocal with inside | last
        · exact .inl (nested.locals hOld inside)
        · exact .inr ⟨List.mem_singleton.mp last, isParent⟩
      · exact .inl (nested.locals hOld isLocal)

theorem Grown.nested (grown : s.Grown) : s.Nested := by
  induction grown with
  | empty => exact nested_empty
  | add _ step ih => exact ih.add step
  | hide _ step ih =>
    obtain ⟨rfl, -⟩ := hide?_eq_some.mp step
    exact ih.hide _

/-! ### Mangled names -/

end SymbolStore

/-- The mangled name of a symbol, from that of its parent. -/
def Symbol.nameFrom (sym : Symbol) (mangled : SymbolId → Option String) : Option String :=
  match sym.visibility, sym.parent with
  | .scoped, some p => (mangled p).map fun name => Symbol.localName name sym.name
  | .hidden, _ => some (Symbol.privateName sym.place.file sym.name)
  | _, _ => some sym.name

/-- Only the name of the parent matters. -/
theorem Symbol.nameFrom_congr {sym : Symbol} {f g : SymbolId → Option String}
    (same : ∀ p, sym.parent = some p → f p = g p) : sym.nameFrom f = sym.nameFrom g := by
  unfold nameFrom
  split
  · next p _ parent => rw [same p parent]
  · rfl
  · rfl

theorem Symbol.isSome_nameFrom {sym : Symbol} {f : SymbolId → Option String}
    (known : ∀ p, sym.parent = some p → (f p).isSome) : (sym.nameFrom f).isSome := by
  unfold nameFrom
  split
  · next p _ parent => simpa using known p parent
  · rfl
  · rfl

namespace SymbolStore

variable {s t : SymbolStore} {id x y p : Nat} {sym : Symbol} {key : String}

theorem mangledWithin_succ (s : SymbolStore) (fuel x : Nat) :
    s.mangledWithin (fuel + 1) x =
      (s.get? x).bind fun sym => sym.nameFrom (s.mangledWithin fuel) := by
  rw [mangledWithin]
  cases s.get? x with
  | none => rfl
  | some sym => rfl

namespace Ordered

variable (ordered : s.Ordered)
include ordered

/-- The number of a symbol is enough to come to the end of its chain of parents. -/
theorem mangledWithin_eq {fuel : Nat} (enough : x < fuel) :
    s.mangledWithin fuel x = s.mangled? x := by
  induction x using Nat.strongRecOn generalizing fuel with
  | ind x ih =>
    obtain ⟨fuel, rfl⟩ : ∃ rest, fuel = rest + 1 := ⟨fuel - 1, by omega⟩
    rw [mangled?, mangledWithin_succ, mangledWithin_succ]
    cases found : s.get? x with
    | none => rfl
    | some sym =>
      refine Symbol.nameFrom_congr fun p isParent => ?_
      have before := ordered.parent found isParent
      rw [ih p before (by omega), ih p before before]

theorem mangled?_eq (x : Nat) :
    s.mangled? x = (s.get? x).bind fun sym => sym.nameFrom s.mangled? := by
  rw [mangled?, mangledWithin_succ]
  cases found : s.get? x with
  | none => rfl
  | some sym =>
    exact Symbol.nameFrom_congr fun p isParent =>
      ordered.mangledWithin_eq (ordered.parent found isParent)

theorem exists_parent (found : s.get? x = some sym) (isParent : sym.parent = some p) :
    ∃ psym, s.get? p = some psym :=
  exists_get? (Nat.lt_trans (ordered.parent found isParent) (lt_size_of_get? found))

theorem isSome_mangled? (found : s.get? x = some sym) : (s.mangled? x).isSome := by
  induction x using Nat.strongRecOn generalizing sym with
  | ind x ih =>
    rw [ordered.mangled?_eq, found]
    refine Symbol.isSome_nameFrom fun p isParent => ?_
    obtain ⟨psym, hp⟩ := ordered.exists_parent found isParent
    exact ih p (ordered.parent found isParent) hp

end Ordered

/-- Hiding a symbol renames nothing outside its family. -/
theorem Nested.mangled?_hide (nested : s.Nested) (outside : ¬ s.InFamily id x) :
    (s.modify id fun sym => { sym with visibility := .hidden }).mangled? x = s.mangled? x := by
  induction x using Nat.strongRecOn with
  | ind x ih =>
    have other : x ≠ id := fun same => outside (same ▸ .self)
    rw [nested.ordered.mangled?_eq, (nested.hide id).ordered.mangled?_eq, get?_modify,
      if_neg other]
    cases found : s.get? x with
    | none => rfl
    | some sym =>
      refine Symbol.nameFrom_congr fun p isParent => ?_
      obtain ⟨before, psym, hp, listed⟩ := nested.parent found isParent
      exact ih p before fun inside => outside (.child inside hp listed)

/-! ### Families -/

/-- A member is the symbol itself, or it belongs to the family of a local. -/
theorem InFamily.cases_local (h : s.InFamily id x) :
    x = id ∨ ∃ sym, s.get? id = some sym ∧ ∃ y ∈ sym.locals, s.InFamily y x := by
  induction h with
  | self => exact .inl rfl
  | @child x y sym _ found isLocal ih =>
    rcases ih with rfl | ⟨top, hTop, z, listed, inside⟩
    · exact .inr ⟨sym, found, y, isLocal, .self⟩
    · exact .inr ⟨top, hTop, z, listed, .child inside found isLocal⟩

theorem InFamily.of_local (found : s.get? id = some sym) (isLocal : y ∈ sym.locals)
    (h : s.InFamily y x) : s.InFamily id x := by
  induction h with
  | self => exact .child .self found isLocal
  | child _ found' isLocal' ih => exact .child ih found' isLocal'

theorem Nested.exists_get?_of_inFamily (nested : s.Nested) (found : s.get? id = some sym)
    (h : s.InFamily id x) : ∃ member, s.get? x = some member := by
  cases h with
  | self => exact ⟨sym, found⟩
  | child _ found' isLocal =>
    obtain ⟨child, hChild, -⟩ := nested.locals found' isLocal
    exact ⟨child, hChild⟩

/-- A family that has been found is complete, and all its members are in the store. -/
theorem mem_of_inFamily {fuel : Nat} {family : List SymbolId}
    (h : s.familyWithin fuel id = some family) (inside : s.InFamily id x) :
    x ∈ family ∧ ∃ sym, s.get? x = some sym := by
  induction fuel generalizing id family with
  | zero => cases h
  | succ fuel ih =>
    rw [familyWithin] at h
    cases found : s.get? id with
    | none => simp [found] at h
    | some sym =>
      simp only [found, Option.map_eq_some_iff] at h
      obtain ⟨below, each, rfl⟩ := h
      rcases inside.cases_local with rfl | ⟨top, hTop, y, isLocal, deeper⟩
      · exact ⟨List.mem_cons_self, sym, found⟩
      · obtain rfl : sym = top := Option.some.inj (found.symm.trans hTop)
        obtain ⟨part, inBelow, hPart⟩ :=
          Runs.exists_right_of_forall₂ (Runs.forall₂_of_mapM_some each) isLocal
        obtain ⟨inPart, member⟩ := ih hPart deeper
        exact ⟨List.mem_cons_of_mem _ (List.mem_flatten.mpr ⟨part, inBelow, inPart⟩), member⟩

theorem mem_family? {family : List SymbolId} (h : s.family? id = some family) :
    x ∈ family ↔ s.InFamily id x := by
  constructor
  · exact family_all (fun y sym above found z isLocal => .child above found isLocal) h .self x
  · exact fun inside => (mem_of_inFamily h inside).1

namespace Ordered

variable (ordered : s.Ordered)
include ordered

/-- Each generation has larger numbers than the one before, so the symbols behind the first one are
enough to come to the end of all generations. -/
theorem familyWithin_eq {fuel : Nat} (enough : s.size - id ≤ fuel) :
    s.familyWithin fuel id = s.family? id := by
  suffices all : ∀ fuel fuel' id, s.size - id ≤ fuel → s.size - id ≤ fuel' →
      s.familyWithin fuel id = s.familyWithin fuel' id from all _ _ _ enough (Nat.sub_le _ _)
  intro fuel
  induction fuel with
  | zero =>
    intro fuel' id enough enough'
    have outside : s.get? id = none := List.getElem?_eq_none (by rw [← size]; omega)
    cases fuel' with
    | zero => rfl
    | succ fuel' => simp [familyWithin, outside]
  | succ fuel ih =>
    intro fuel' id enough enough'
    cases found : s.get? id with
    | none => cases fuel' <;> simp [familyWithin, found]
    | some sym =>
      have inside := lt_size_of_get? found
      obtain ⟨fuel', rfl⟩ : ∃ rest, fuel' = rest + 1 := ⟨fuel' - 1, by omega⟩
      have below : sym.locals.mapM (s.familyWithin fuel) =
          sym.locals.mapM (s.familyWithin fuel') := by
        refine Runs.mapM_congr fun y isLocal => ?_
        have later := ordered.locals found isLocal
        exact ih fuel' y (by omega) (by omega)
      simp only [familyWithin, found, below]

theorem family?_eq (id : Nat) : s.family? id =
    (s.get? id).bind fun sym =>
      (sym.locals.mapM s.family?).map fun below => id :: below.flatten := by
  cases found : s.get? id with
  | none => cases size : s.size <;> simp [family?, familyWithin, found, size]
  | some sym =>
    have inside := lt_size_of_get? found
    obtain ⟨rest, size⟩ : ∃ rest, s.size = rest + 1 := ⟨s.size - 1, by omega⟩
    have below : sym.locals.mapM (s.familyWithin rest) = sym.locals.mapM s.family? := by
      refine Runs.mapM_congr fun y isLocal => ordered.familyWithin_eq ?_
      have later := ordered.locals found isLocal
      omega
    rw [family?, size, familyWithin, found]
    simp only [below, Option.bind_some]

/-- A family is not found exactly if a member has been dropped. -/
theorem family?_eq_none : s.family? id = none ↔ ∃ x, s.InFamily id x ∧ s.get? x = none := by
  constructor
  · intro missing
    induction left : s.size - id using Nat.strongRecOn generalizing id with
    | ind left ih =>
      rw [ordered.family?_eq] at missing
      cases found : s.get? id with
      | none => exact ⟨id, .self, found⟩
      | some sym =>
        rw [found, Option.bind_some, Option.map_eq_none_iff, Runs.mapM_eq_none] at missing
        obtain ⟨y, isLocal, missing⟩ := missing
        have inside := lt_size_of_get? found
        have later := ordered.locals found isLocal
        obtain ⟨x, member, dropped⟩ := ih (s.size - y) (by omega) missing rfl
        exact ⟨x, .of_local found isLocal member, dropped⟩
  · rintro ⟨x, inside, dropped⟩
    rw [Option.eq_none_iff_forall_ne_some]
    intro family h
    obtain ⟨-, sym, found⟩ := mem_of_inFamily h inside
    cases dropped.symm.trans found

end Ordered

theorem Nested.exists_family (nested : s.Nested) (found : s.get? id = some sym) :
    ∃ family, s.family? id = some family ∧ ∀ x, x ∈ family ↔ s.InFamily id x := by
  have present : s.family? id ≠ none := by
    rw [Ne, nested.ordered.family?_eq_none]
    rintro ⟨x, inside, dropped⟩
    obtain ⟨member, hMember⟩ := nested.exists_get?_of_inFamily found inside
    cases dropped.symm.trans hMember
  obtain ⟨family, h⟩ := Option.ne_none_iff_exists'.mp present
  exact ⟨family, h, fun x => mem_family? h⟩

end SymbolStore

/-! ### Tables -/

namespace NameTable

variable {f : SymbolId → Option String} {ids : List SymbolId} {t u : SymbolTable} {name : String}
  {value : SymbolId} {p : String × SymbolId → Bool}

theorem entries_eraseAll (h : ids.foldlM (fun u id => return u.erase (← f id)) t = some u) :
    u.entries = t.entries.filter fun e => ∀ id ∈ ids, f id ≠ some e.1 := by
  induction ids generalizing t with
  | nil =>
    simp only [List.foldlM_nil, Option.pure_def, Option.some.injEq] at h
    simp [h]
  | cons id ids ih =>
    rw [List.foldlM_cons] at h
    obtain ⟨mid, first, rest⟩ := Option.bind_eq_some_iff.mp h
    obtain ⟨name, hName, last⟩ := Option.bind_eq_some_iff.mp first
    cases last
    rw [ih rest, erase, List.filter_filter]
    refine List.filter_congr fun e _ => ?_
    simp [hName, eq_comm (a := name), Bool.and_comm]

theorem filter_replace (es : List (String × SymbolId)) (apart : p (name, value) = false) :
    (es.map fun e => if e.1 = name then (name, value) else e).filter p =
      es.filter fun e => p e && e.1 ≠ name := by
  induction es with
  | nil => rfl
  | cons e es ih =>
    rw [List.map_cons, List.filter_cons, List.filter_cons, ih]
    by_cases same : e.1 = name <;> simp [same, apart]

/-- The other entries after an insertion: those before it, but for the one that is replaced. -/
theorem filter_insert (apart : p (name, value) = false) :
    (t.insert name value).entries.filter p = t.entries.filter fun e => p e && e.1 ≠ name := by
  unfold insert
  cases found : t.find? name with
  | none =>
    have differs : ∀ e ∈ t.entries, e.1 ≠ name := fun e member same =>
      find?_eq_none.mp found (same ▸ List.mem_map_of_mem member)
    rw [List.filter_append, List.filter_singleton, apart, cond_false, List.append_nil]
    refine List.filter_congr fun e member => ?_
    simp [differs e member]
  | some old => exact filter_replace t.entries apart

theorem filter_insertAll (h : ids.foldlM (fun u id => return u.insert (← f id) id) t = some u)
    (apart : ∀ id ∈ ids, ∀ key, p (key, id) = false) :
    u.entries.filter p = t.entries.filter fun e => p e && decide (∀ id ∈ ids, f id ≠ some e.1) := by
  induction ids generalizing t with
  | nil =>
    simp only [List.foldlM_nil, Option.pure_def, Option.some.injEq] at h
    simp [h]
  | cons id ids ih =>
    rw [List.foldlM_cons] at h
    obtain ⟨mid, first, rest⟩ := Option.bind_eq_some_iff.mp h
    obtain ⟨name, hName, last⟩ := Option.bind_eq_some_iff.mp first
    cases last
    obtain ⟨here, later⟩ := List.forall_mem_cons.mp apart
    rw [ih rest later, filter_insert (by simp [here name])]
    refine List.filter_congr fun e _ => ?_
    cases p e <;> simp [hName, eq_comm (a := name), Bool.and_comm]

theorem names_eraseAll_nodup (distinct : t.names.Nodup)
    (h : ids.foldlM (fun u id => return u.erase (← f id)) t = some u) : u.names.Nodup := by
  refine Runs.foldlM_some_keeps (fun u => u.names.Nodup) (fun id _ a b ok step => ?_) distinct h
  obtain ⟨name, -, last⟩ := Option.bind_eq_some_iff.mp step
  cases last
  exact names_erase_nodup ok name

theorem names_insertAll_nodup (distinct : t.names.Nodup)
    (h : ids.foldlM (fun u id => return u.insert (← f id) id) t = some u) : u.names.Nodup := by
  refine Runs.foldlM_some_keeps (fun u => u.names.Nodup) (fun id _ a b ok step => ?_) distinct h
  obtain ⟨name, -, last⟩ := Option.bind_eq_some_iff.mp step
  cases last
  exact names_insert_nodup ok name id

end NameTable

namespace SymbolStore

variable {s t : SymbolStore} {id : Nat} {sym : Symbol} {table table' : SymbolTable}
  {family : List SymbolId}

/-- A symbol of the store can be hidden. -/
theorem Nested.exists_hide (nested : s.Nested) (table : SymbolTable)
    (found : s.get? id = some sym) :
    ∃ (t : SymbolStore) (table' : SymbolTable), s.hide? table id = some (t, table') := by
  obtain ⟨family, hFamily, member⟩ := nested.exists_family found
  have known : ∀ x ∈ family, ∃ sym, s.get? x = some sym := fun x inside =>
    nested.exists_get?_of_inFamily found ((member x).mp inside)
  let t := s.modify id fun sym => { sym with visibility := .hidden }
  have erases : ∀ x ∈ family, ∀ u : SymbolTable,
      (do return u.erase (← s.mangled? x) : Option SymbolTable).isSome := by
    intro x inside u
    obtain ⟨sym, hSym⟩ := known x inside
    obtain ⟨name, hName⟩ := Option.isSome_iff_exists.mp (nested.ordered.isSome_mangled? hSym)
    simp [hName]
  have inserts : ∀ x ∈ family, ∀ u : SymbolTable,
      (do return u.insert (← t.mangled? x) x : Option SymbolTable).isSome := by
    intro x inside u
    obtain ⟨sym, hSym⟩ := known x inside
    have inside' : x < t.size := (s.size_modify id _).symm ▸ lt_size_of_get? hSym
    obtain ⟨sym', hSym'⟩ := exists_get? inside'
    obtain ⟨name, hName⟩ :=
      Option.isSome_iff_exists.mp ((nested.hide id).ordered.isSome_mangled? hSym')
    have hName' : t.mangled? x = some name := hName
    simp [hName']
  obtain ⟨erased, hErase⟩ := Option.isSome_iff_exists.mp (Runs.isSome_foldlM erases table)
  obtain ⟨table', hInsert⟩ := Option.isSome_iff_exists.mp (Runs.isSome_foldlM inserts erased)
  exact ⟨t, table', hide?_eq_some.mpr ⟨rfl, family, erased, hFamily, hErase, hInsert⟩⟩

/-- Every entry of the table has the mangled name of its symbol, and no name stands there twice. -/
structure Keys (s : SymbolStore) (table : SymbolTable) : Prop where
  distinct : table.names.Nodup
  mangled : ∀ e ∈ table.entries, s.mangled? e.2 = some e.1

/-- Under the name of a member there is only the member. -/
theorem Keys.apart (keys : s.Keys table)
    (listed : ∀ x ∈ family, ∃ key, (key, x) ∈ table.entries) {e : String × SymbolId}
    (member : e ∈ table.entries) :
    e.2 ∉ family ↔ ∀ x ∈ family, s.mangled? x ≠ some e.1 := by
  constructor
  · intro outside x inside named
    obtain ⟨key, inTable⟩ := listed x inside
    obtain rfl : key = e.1 := Option.some.inj ((keys.mangled _ inTable).symm.trans named)
    have here := NameTable.find?_of_mem keys.distinct inTable
    rw [NameTable.find?_of_mem keys.distinct member, Option.some.injEq] at here
    exact outside (here ▸ inside)
  · intro other inside
    exact other e.2 inside (keys.mangled e member)

section Hide

variable {erased : SymbolTable} (keys : s.Keys table)
  (listed : ∀ x ∈ family, ∃ key, (key, x) ∈ table.entries)
  (hErase : family.foldlM (fun u member => return u.erase (← s.mangled? member)) table =
    some erased)
  (hInsert : family.foldlM (fun u member => return u.insert (← t.mangled? member) member) erased =
    some table')
include keys hErase hInsert

theorem Keys.rekey (same : ∀ x, x ∉ family → t.mangled? x = s.mangled? x) : t.Keys table' := by
  have distinct : table'.names.Nodup :=
    NameTable.names_insertAll_nodup (NameTable.names_eraseAll_nodup keys.distinct hErase) hInsert
  refine ⟨distinct, fun e member => ?_⟩
  have here := NameTable.find?_of_mem distinct member
  by_cases renamed : ∃ x ∈ family, t.mangled? x = some e.1
  · obtain ⟨x, -, named, answer⟩ := (NameTable.find?_insertAll hInsert).1 renamed
    rw [here, Option.some.injEq] at answer
    rw [answer, named]
  · rw [(NameTable.find?_insertAll hInsert).2 fun x inside named => renamed ⟨x, inside, named⟩]
      at here
    have kept := NameTable.mem_of_find? here
    rw [NameTable.entries_eraseAll hErase, List.mem_filter] at kept
    obtain ⟨old, other⟩ := kept
    have outside : e.2 ∉ family := fun inside =>
      of_decide_eq_true other e.2 inside (keys.mangled _ old)
    rw [same _ outside]
    exact keys.mangled _ old

include listed

theorem Keys.filter_rekey : table'.entries.filter (fun e => e.2 ∉ family) =
    table.entries.filter fun e => e.2 ∉ family ∧ ∀ x ∈ family, t.mangled? x ≠ some e.1 := by
  rw [NameTable.filter_insertAll hInsert fun x inside key => by simpa using inside,
    NameTable.entries_eraseAll hErase, List.filter_filter]
  refine List.filter_congr fun e member => ?_
  have apart := keys.apart listed member
  by_cases outside : e.2 ∉ family
  · simpa [outside] using fun _ => apart.mp outside
  · simp [outside]

end Hide

/-- Hiding a symbol changes its visibility and renames its family in a table, and nothing else.  In
a table with the family of the symbol each name is again that of its symbol, and all members are
there.  The other entries are as before and in the same order, but for those whose name a member has
now.  No other symbol gets a new name. -/
theorem hide?_rekeys (grown : s.Grown) (keys : s.Keys table) (id : SymbolId)
    (listed : ∀ x, s.InFamily id x → ∃ key, (key, x) ∈ table.entries) :
    ∃ (t : SymbolStore) (table' : SymbolTable) (family : List SymbolId),
      s.hide? table id = some (t, table') ∧
      t = s.modify id (fun sym => { sym with visibility := .hidden }) ∧
      (∀ x, x ∈ family ↔ s.InFamily id x) ∧
      t.Keys table' ∧
      (∀ x ∈ family, ∃ key ∈ table'.names, t.mangled? x = some key) ∧
      table'.entries.filter (fun e => e.2 ∉ family) =
        table.entries.filter (fun e => e.2 ∉ family ∧ ∀ x ∈ family, t.mangled? x ≠ some e.1) ∧
      ∀ x, x ∉ family → t.mangled? x = s.mangled? x := by
  have nested := grown.nested
  obtain ⟨first, inTable⟩ := listed id .self
  obtain ⟨sym, found⟩ := exists_get?_of_mangled? (keys.mangled _ inTable)
  obtain ⟨t, table', hidden⟩ := nested.exists_hide table found
  obtain ⟨hT, family, erased, hFamily, hErase, hInsert⟩ := hide?_eq_some.mp hidden
  obtain ⟨family', hFamily', member⟩ := nested.exists_family found
  obtain rfl : family = family' := Option.some.inj (hFamily.symm.trans hFamily')
  have inside : ∀ x ∈ family, ∃ key, (key, x) ∈ table.entries := fun x hx =>
    listed x ((member x).mp hx)
  have same : ∀ x, x ∉ family → t.mangled? x = s.mangled? x := fun x outside =>
    hT ▸ nested.mangled?_hide (mt (member x).mpr outside)
  refine ⟨t, table', family, hidden, hT, member, keys.rekey hErase hInsert same, fun x hx => ?_,
    keys.filter_rekey inside hErase hInsert, same⟩
  obtain ⟨sym', found'⟩ := nested.exists_get?_of_inFamily found ((member x).mp hx)
  obtain ⟨later, hLater⟩ : ∃ later, t.get? x = some later := by
    rw [hT]
    exact exists_get? ((s.size_modify id _).symm ▸ lt_size_of_get? found')
  obtain ⟨key, named⟩ := Option.isSome_iff_exists.mp
    ((hT ▸ nested.hide id : t.Nested).ordered.isSome_mangled? hLater)
  obtain ⟨y, -, -, answer⟩ := (NameTable.find?_insertAll hInsert).1 ⟨x, hx, named⟩
  exact ⟨key, List.mem_map_of_mem (NameTable.mem_of_find? answer), named⟩

/-- The store with these symbols, one added after the other. -/
def ofLabels? (labels : List (Place × String × Option SymbolId)) : Option SymbolStore :=
  labels.foldlM (fun s label => (s.add? label.1 label.2.1 label.2.2).map Prod.snd) .empty

theorem grown_of_ofLabels? {labels : List (Place × String × Option SymbolId)}
    (h : ofLabels? labels = some s) : s.Grown := by
  refine Runs.foldlM_some_keeps Grown (fun label _ s t grown step => ?_) .empty h
  obtain ⟨⟨id, t⟩, added, rfl⟩ := Option.map_eq_some_iff.mp step
  exact .add grown added

/-- A symbol with a local of a local, and behind them a global symbol that has the name the first
one gets by being hidden. -/
def stacked : SymbolStore :=
  ⟨[{ name := "main", place := ⟨"a.s", 0⟩, parent := none, visibility := .global, locals := [1] },
    { name := ".loop", place := ⟨"a.s", 1⟩, parent := some 0, visibility := .scoped,
      locals := [2] },
    { name := ".x", place := ⟨"a.s", 2⟩, parent := some 1, visibility := .scoped },
    { name := "a.s$$main", place := ⟨"b.s", 0⟩, parent := none, visibility := .global },
    { name := "end", place := ⟨"b.s", 1⟩, parent := none, visibility := .global }]⟩

theorem grown_stacked : stacked.Grown := by
  have built : ofLabels? [(⟨"a.s", 0⟩, "main", none), (⟨"a.s", 1⟩, ".loop", some 0),
      (⟨"a.s", 2⟩, ".x", some 1), (⟨"b.s", 0⟩, "a.s$$main", none), (⟨"b.s", 1⟩, "end", none)] =
      some stacked := by decide
  exact grown_of_ofLabels? built

/-- The symbols under their names. -/
def stackedTable : SymbolTable :=
  ⟨[("end", 4), ("main", 0), ("a.s$$main", 3), ("main$$.loop", 1), ("main$$.loop$$.x", 2)]⟩

theorem hide?_rekeys_stacked : ∃ (t : SymbolStore) (table : SymbolTable),
    stacked.hide? stackedTable 0 = some (t, table) ∧ t.Keys table ∧
    table.entries = [("end", 4), ("a.s$$main", 0), ("a.s$$main$$.loop", 1),
      ("a.s$$main$$.loop$$.x", 2)] := by
  have keys : stacked.Keys stackedTable := ⟨by decide, by decide +kernel⟩
  have top : ∃ sym, stacked.get? 0 = some sym := ⟨_, rfl⟩
  have inside : ∀ x < 5, ∃ e ∈ stackedTable.entries, e.2 = x := by decide
  obtain ⟨t, table, -, hidden, -, -, keys', -⟩ := hide?_rekeys grown_stacked keys 0
    fun x member => by
      obtain ⟨sym, found⟩ := top
      obtain ⟨sym', found'⟩ := grown_stacked.nested.exists_get?_of_inFamily found member
      obtain ⟨e, listed, rfl⟩ := inside x (lt_size_of_get? found')
      exact ⟨e.1, listed⟩
  have entries : (stacked.hide? stackedTable 0).map (fun result => result.2.entries) =
      some [("end", 4), ("a.s$$main", 0), ("a.s$$main$$.loop", 1),
        ("a.s$$main$$.loop$$.x", 2)] := by
    decide +kernel
  rw [hidden, Option.map_some, Option.some.injEq] at entries
  exact ⟨t, table, hidden, keys', entries⟩

end SymbolStore

end Dcpu16
