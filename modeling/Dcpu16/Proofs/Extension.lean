import Dcpu16.Proofs.SymbolStore

/-! Programs that grow.  A program extends another one if it has the names of the other in front of
its own and all symbols of the other, changed at most in that something refers to them by now. -/

namespace Dcpu16

/-- `later` is `sym`, but something may have come to refer to it. -/
def Symbol.Remains (sym later : Symbol) : Prop :=
  later = { sym with referenced := later.referenced } ∧
    (sym.referenced = true → later.referenced = true)

namespace Symbol.Remains

variable {a b c : Symbol}

theorem refl (a : Symbol) : a.Remains a := ⟨rfl, id⟩

theorem trans (h : a.Remains b) (h' : b.Remains c) : a.Remains c :=
  ⟨by rw [h'.1, h.1], fun marked => h'.2 (h.2 marked)⟩

theorem mark (h : a.Remains b) : a.Remains { b with referenced := true } :=
  ⟨by rw [h.1], fun _ => rfl⟩

theorem unmarked (h : a.Remains b) : b.unmarked = a.unmarked := by
  rw [h.1]
  rfl

theorem definition (h : a.Remains b) : b.definition = a.definition := by rw [h.1]

theorem address (h : a.Remains b) : b.address = a.address := by rw [h.1]

end Symbol.Remains

/-- All symbols of `s` remain in `t`. -/
def SymbolStore.RemainIn (s t : SymbolStore) : Prop :=
  ∀ ⦃id : Nat⦄ ⦃sym : Symbol⦄, s.get? id = some sym →
    ∃ later, t.get? id = some later ∧ sym.Remains later

theorem SymbolStore.get?_markReferenced (ids : List SymbolId) (s : SymbolStore) (x : Nat) :
    (ids.foldl SymbolStore.markReferenced s).get? x =
      if x ∈ ids then (s.get? x).map fun sym => { sym with referenced := true } else s.get? x := by
  induction ids generalizing s with
  | nil => simp
  | cons id ids ih =>
    rw [List.foldl_cons, ih, markReferenced, get?_modify]
    by_cases here : x = id
    · by_cases later : x ∈ ids <;> cases s.get? x <;> simp [here]
    · by_cases later : x ∈ ids <;> simp [here, later]

namespace SymbolStore.RemainIn

variable {s t u : SymbolStore} {id : Nat}

theorem refl (s : SymbolStore) : s.RemainIn s := fun _ _ h => ⟨_, h, .refl _⟩

theorem trans (h : s.RemainIn t) (h' : t.RemainIn u) : s.RemainIn u := by
  intro id sym found
  obtain ⟨mid, hMid, remains⟩ := h found
  obtain ⟨last, hLast, remains'⟩ := h' hMid
  exact ⟨last, hLast, remains.trans remains'⟩

theorem size_le (h : s.RemainIn t) : s.size ≤ t.size := by
  refine Nat.le_of_not_lt fun less => ?_
  obtain ⟨sym, found⟩ := exists_get? less
  obtain ⟨later, found', -⟩ := h found
  exact absurd (lt_size_of_get? found') (Nat.lt_irrefl _)

/-- A symbol of `t` is one of `s` that remains, or it is behind these. -/
theorem get?_cases (h : s.RemainIn t) {x : Nat} {sym : Symbol} (found : t.get? x = some sym) :
    (∃ old, s.get? x = some old ∧ old.Remains sym) ∨ s.size ≤ x := by
  rcases Nat.lt_or_ge x s.size with inside | new
  · obtain ⟨old, hOld⟩ := exists_get? inside
    obtain ⟨later, hLater, remains⟩ := h hOld
    obtain rfl := Option.some.inj (hLater.symm.trans found)
    exact .inl ⟨old, hOld, remains⟩
  · exact .inr new

/-- What holds of all symbols of `s` and does not depend on what refers to them. -/
theorem forall_get? {P : Symbol → Prop} (h : s.RemainIn t)
    (keeps : ∀ sym marked, P sym → P { sym with referenced := marked })
    (old : ∀ ⦃x : Nat⦄ ⦃sym : Symbol⦄, s.get? x = some sym → P sym)
    (new : ∀ ⦃x : Nat⦄ ⦃sym : Symbol⦄, s.size ≤ x → t.get? x = some sym → P sym) :
    ∀ ⦃x : Nat⦄ ⦃sym : Symbol⦄, t.get? x = some sym → P sym := by
  intro x sym found
  rcases h.get?_cases found with ⟨first, hFirst, same, -⟩ | behind
  · rw [same]
    exact keeps first sym.referenced (old hFirst)
  · exact new behind found

/-- A change of a symbol that is not one of `s`. -/
theorem modify_new (h : s.RemainIn t) (new : s.size ≤ id) (f : Symbol → Symbol) :
    s.RemainIn (t.modify id f) := by
  intro x sym found
  have old : x ≠ id := Nat.ne_of_lt (Nat.lt_of_lt_of_le (lt_size_of_get? found) new)
  obtain ⟨later, found', remains⟩ := h found
  exact ⟨later, by rw [get?_modify, if_neg old, found'], remains⟩

theorem markReferenced (h : s.RemainIn t) (ids : List SymbolId) :
    s.RemainIn (ids.foldl SymbolStore.markReferenced t) := by
  intro x sym found
  obtain ⟨later, found', remains⟩ := h found
  rw [get?_markReferenced, found']
  split
  · exact ⟨_, rfl, remains.mark⟩
  · exact ⟨_, rfl, remains⟩

theorem add {place : Place} {name : String} {parent : Option Nat} (h : s.RemainIn t)
    (new : ∀ x, parent = some x → s.size ≤ x)
    (added : t.add? place name parent = some (id, u)) : s.RemainIn u := by
  intro x sym found
  obtain ⟨later, found', remains⟩ := h found
  have inside := lt_size_of_get? found
  have noParent : parent ≠ some x := fun same => by
    have := new x same
    omega
  refine ⟨later, ?_, remains⟩
  rw [get?_add added, if_neg (Nat.ne_of_lt (lt_size_of_get? found')), found']
  simp [noParent]

theorem take (h : s.RemainIn t) : s.RemainIn (t.take s.size) := by
  intro x sym found
  obtain ⟨later, found', remains⟩ := h found
  refine ⟨later, ?_, remains⟩
  rw [SymbolStore.take, get?, List.getElem?_take_of_lt (lt_size_of_get? found)]
  exact found'

end SymbolStore.RemainIn

theorem SymbolStore.remains_of_markReferenced {s : SymbolStore} {ids : List SymbolId} {x : Nat}
    {sym : Symbol} (found : (ids.foldl SymbolStore.markReferenced s).get? x = some sym) :
    ∃ old, s.get? x = some old ∧ old.Remains sym := by
  rw [get?_markReferenced] at found
  split at found
  · obtain ⟨old, hOld, rfl⟩ := Option.map_eq_some_iff.mp found
    exact ⟨old, hOld, (Symbol.Remains.refl old).mark⟩
  · exact ⟨sym, found, .refl sym⟩

/-- `q` has the names of `p` in front, and the symbols of `p` remain in it. -/
structure Program.Extends (p q : Program) : Prop where
  names : p.table.entries <+: q.table.entries
  symbols : p.symbols.RemainIn q.symbols

namespace Program.Extends

variable {p q r : Program}

theorem refl (p : Program) : p.Extends p := ⟨List.prefix_rfl, .refl _⟩

theorem trans (h : p.Extends q) (h' : q.Extends r) : p.Extends r :=
  ⟨h.names.trans h'.names, h.symbols.trans h'.symbols⟩

/-- Dropping what has come since gives the names back as they were, and the symbols up to the notes
that something refers to them. -/
theorem rollback (h : p.Extends q) :
    (q.rollback p.checkpoint).table = p.table ∧
      (q.rollback p.checkpoint).symbols.size = p.symbols.size ∧
      p.symbols.RemainIn (q.rollback p.checkpoint).symbols := by
  refine ⟨?_, ?_, h.symbols.take⟩
  · obtain ⟨es, split⟩ := h.names
    simp [Program.rollback, checkpoint, NameTable.take, NameTable.size, ← split]
  · have size := h.symbols.size_le
    simp only [Program.rollback, checkpoint, SymbolStore.take, SymbolStore.size, List.length_take]
    exact Nat.min_eq_left size

end Program.Extends

end Dcpu16
