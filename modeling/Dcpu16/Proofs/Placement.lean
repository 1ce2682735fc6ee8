import Dcpu16.Image
import Dcpu16.Proofs.Extension
import Dcpu16.Proofs.Operands

/-! Placing and filling a row of records.  Each record starts where the one before it ends, and its
words are as many as it takes room. -/

namespace Dcpu16

theorem Content.measure_eq_ok {c : Content} {size : Nat} (h : c.measure = .ok size) :
    size = c.size := by
  cases c with
  | operation o =>
    simp only [measure] at h
    split at h
    · exact (Except.ok.inj h).symm
    · cases h
  | data words => exact (Except.ok.inj h).symm
  | mark => exact (Except.ok.inj h).symm

namespace SymbolStore

variable {s t : SymbolStore} {ids : List SymbolId} {word : Word}

/-- Give symbols an address. -/
theorem get?_setAddresses (h : ids.foldlM (fun s id => s.setAddress? id word) s = some t)
    (x : Nat) :
    t.get? x =
      if x ∈ ids then (s.get? x).map fun sym => { sym with address := some word }
      else s.get? x := by
  induction ids generalizing s with
  | nil =>
    simp only [List.foldlM_nil, Option.pure_def, Option.some.injEq] at h
    simp [h]
  | cons id ids ih =>
    rw [List.foldlM_cons] at h
    obtain ⟨mid, first, rest⟩ := Option.bind_eq_some_iff.mp h
    simp only [setAddress?, Option.ite_none_right_eq_some, Option.some.injEq] at first
    obtain ⟨-, rfl⟩ := first
    rw [ih rest, get?_modify]
    by_cases here : x = id
    · by_cases later : x ∈ ids <;> cases s.get? x <;> simp [here]
    · by_cases later : x ∈ ids <;> simp [here, later]

theorem unmarked_setAddresses (h : ids.foldlM (fun s id => s.setAddress? id word) s = some t) :
    t.unmarked = s.unmarked := by
  refine Runs.foldlM_some_keeps (fun t => t.unmarked = s.unmarked)
    (fun id _ u v hu step => ?_) rfl h
  simp only [setAddress?, Option.ite_none_right_eq_some, Option.some.injEq] at step
  obtain ⟨-, rfl⟩ := step
  rw [← hu]
  exact unmarked_modify u id fun _ => rfl

end SymbolStore

namespace Record

/-- The record without address and words. -/
def bare (r : Record) : Record := { r with address := none, words := none }

/-- The room that records take. -/
def extent : List Record → Nat
  | [] => 0
  | r :: rs => r.size + extent rs

@[simp] theorem extent_nil : extent [] = 0 := rfl

@[simp] theorem extent_cons (r : Record) (rs : List Record) :
    extent (r :: rs) = r.size + extent rs := rfl

@[simp] theorem extent_append (rs rs' : List Record) :
    extent (rs ++ rs') = extent rs + extent rs' := by
  induction rs with
  | nil => simp
  | cons r rs ih => rw [List.cons_append, extent_cons, extent_cons, ih, Nat.add_assoc]

theorem flatMap_defined_of_bare {rs rs' : List Record} (h : rs'.map bare = rs.map bare) :
    rs'.flatMap defined = rs.flatMap defined := by
  have same := congrArg (List.flatMap defined) h
  rwa [List.flatMap_map, List.flatMap_map] at same

theorem extent_map_bare (rs : List Record) : extent (rs.map bare) = extent rs := by
  induction rs with
  | nil => rfl
  | cons r rs ih =>
    rw [List.map_cons, extent_cons, extent_cons, ih]
    rfl

theorem extent_of_bare {rs rs' : List Record} (h : rs'.map bare = rs.map bare) :
    extent rs' = extent rs := by
  rw [← extent_map_bare rs', h, extent_map_bare]

/-! ### Addresses -/

/-- Records one behind the other from an address on, all of them in memory. -/
inductive InRow : Nat → List Record → Prop
  | nil (address : Nat) : InRow address []
  | cons {address : Nat} {word : Word} {r : Record} {rs : List Record}
      (placed : r.address = some word) (start : word.toNat = address)
      (fits : address + r.size ≤ addressSpace) (rest : InRow (address + r.size) rs) :
      InRow address (r :: rs)

theorem InRow.append {address : Nat} {rs rs' : List Record} (h : InRow address rs)
    (h' : InRow (address + extent rs) rs') : InRow address (rs ++ rs') := by
  induction h with
  | nil address => exact h'
  | cons placed start fits _ ih =>
    refine .cons placed start fits (ih ?_)
    rwa [extent_cons, ← Nat.add_assoc] at h'

theorem InRow.front {address : Nat} {rs rs' : List Record} (h : InRow address (rs ++ rs')) :
    InRow address rs := by
  induction rs generalizing address with
  | nil => exact .nil _
  | cons r rs ih =>
    cases h with
    | cons placed start fits rest => exact .cons placed start fits (ih rest)

/-- A record stands behind the room that all records before it take. -/
theorem InRow.split {address : Nat} {before after : List Record} {r : Record}
    (h : InRow address (before ++ r :: after)) :
    ∃ word : Word, r.address = some word ∧ word.toNat = address + extent before := by
  induction before generalizing address with
  | nil =>
    cases h with
    | cons placed start _ _ => exact ⟨_, placed, start⟩
  | cons first before ih =>
    cases h with
    | cons _ _ _ rest =>
      rw [extent_cons, ← Nat.add_assoc]
      exact ih rest

/-- Of two rows of the same records, each record of the second is as far from that of the first as
the second row is from the first. -/
theorem InRow.moved {address address' : Nat} {distance : Int} {rs rs' : List Record}
    (h : InRow address rs) (h' : InRow address' rs') (same : rs'.map bare = rs.map bare)
    (apart : (address' : Int) = address + distance) :
    List.Forall₂ (fun r r' => r'.bare = r.bare ∧ ∃ word word' : Word, r.address = some word ∧
      r'.address = some word' ∧ (word'.toNat : Int) = word.toNat + distance) rs rs' := by
  induction h generalizing address' rs' with
  | nil address =>
    rw [List.map_nil, List.map_eq_nil_iff] at same
    rw [same]
    exact .nil
  | @cons address word r rs placed start fits rest ih =>
    obtain ⟨r', rs', rfl, bare, bares⟩ := List.map_eq_cons_iff.mp same
    cases h' with
    | cons placed' start' fits' rest' =>
      have size : r'.size = r.size := by
        show r'.bare.size = r.bare.size
        rw [bare]
      exact .cons ⟨bare, _, _, placed, placed', by omega⟩ (ih rest' bares (by omega))

/-- Steps of placing records that ended well: each starts in memory and ends in it, and gives its
address to its symbols. -/
inductive Placed : SymbolStore → Nat → List Record → List Record → SymbolStore → Prop
  | nil (symbols : SymbolStore) (address : Nat) : Placed symbols address [] [] symbols
  | cons {symbols mid last : SymbolStore} {address : Nat} {r : Record} {rs placed : List Record}
      (starts : address < addressSpace) (fits : address + r.size ≤ addressSpace)
      (set : r.defined.foldlM (fun s id => s.setAddress? id (UInt16.ofNat address)) symbols =
        some mid)
      (rest : Placed mid (address + r.size) rs placed last) :
      Placed symbols address (r :: rs)
        ({ r with address := some (UInt16.ofNat address) } :: placed) last

variable {symbols last : SymbolStore} {address next x : Nat} {r : Record} {rs placed : List Record}

theorem endFrom_eq_ok (h : r.endFrom address = .ok next) :
    address < addressSpace ∧ address + r.size ≤ addressSpace ∧ next = address + r.size := by
  unfold endFrom at h
  split at h
  · cases h
  · next starts =>
    cases measured : r.content.measure with
    | error f => simp [measured] at h
    | ok size =>
      obtain rfl : size = r.size := Content.measure_eq_ok measured
      simp only [measured] at h
      split at h
      · cases h
      · next fits => exact ⟨by omega, by omega, (Except.ok.inj h).symm⟩

theorem placeAt?_eq_some {r' : Record}
    (h : r.placeAt? symbols address = some (r', last)) :
    r' = { r with address := some (UInt16.ofNat address) } ∧
      r.defined.foldlM (fun s id => s.setAddress? id (UInt16.ofNat address)) symbols =
        some last := by
  simp only [placeAt?, Option.bind_eq_bind, Option.bind_eq_some_iff, Option.pure_def,
    Option.some.injEq, Prod.mk.injEq] at h
  obtain ⟨_, set, rfl, rfl⟩ := h
  exact ⟨rfl, set⟩

theorem placed_of_placeAll (h : (placeAll symbols address rs).result = .ok next) :
    Placed symbols address rs (placeAll symbols address rs).records
      (placeAll symbols address rs).symbols ∧ next = address + extent rs := by
  induction rs generalizing symbols address with
  | nil =>
    simp only [placeAll, Except.ok.injEq] at h
    exact ⟨.nil _ _, by simp [h]⟩
  | cons r rs ih =>
    unfold placeAll at h ⊢
    cases hEnd : r.endFrom address with
    | error e => simp [hEnd] at h
    | ok next' =>
      obtain ⟨starts, fits, rfl⟩ := endFrom_eq_ok hEnd
      cases hPlace : r.placeAt? symbols address with
      | none => simp [hEnd, hPlace] at h
      | some result =>
        obtain ⟨r', mid⟩ := result
        obtain ⟨rfl, set⟩ := placeAt?_eq_some hPlace
        simp only [hEnd, hPlace] at h ⊢
        obtain ⟨rest, total⟩ := ih h
        exact ⟨.cons starts fits set rest, by rw [total, extent_cons, Nat.add_assoc]⟩

namespace Placed

theorem map_bare (h : Placed symbols address rs placed last) :
    placed.map bare = rs.map bare := by
  induction h with
  | nil => rfl
  | cons _ _ _ _ ih => rw [List.map_cons, List.map_cons, ih]; rfl

theorem inRow (h : Placed symbols address rs placed last) : InRow address placed := by
  induction h with
  | nil => exact .nil _
  | cons starts fits _ _ ih =>
    exact .cons rfl (UInt16.toNat_ofNat_of_lt' starts) fits ih

theorem end_le (h : Placed symbols address rs placed last) (start : address ≤ addressSpace) :
    address + extent rs ≤ addressSpace := by
  induction h with
  | nil => exact start
  | cons _ fits _ _ ih =>
    rw [extent_cons, ← Nat.add_assoc]
    exact ih fits

theorem unmarked (h : Placed symbols address rs placed last) :
    last.unmarked = symbols.unmarked := by
  induction h with
  | nil => rfl
  | cons _ _ set _ ih => exact ih.trans (SymbolStore.unmarked_setAddresses set)

/-- Symbols that no record binds keep their addresses. -/
theorem get?_of_not_mem (h : Placed symbols address rs placed last)
    (free : x ∉ rs.flatMap defined) : last.get? x = symbols.get? x := by
  induction h with
  | nil => rfl
  | cons _ _ set _ ih =>
    rw [List.flatMap_cons, List.mem_append, not_or] at free
    rw [ih free.2, SymbolStore.get?_setAddresses set, if_neg free.1]

/-- A symbol has the address of the record that binds it. -/
theorem get?_of_mem (h : Placed symbols address rs placed last)
    (distinct : (rs.flatMap defined).Nodup) (member : r ∈ placed) (bound : x ∈ r.defined) :
    last.get? x = (symbols.get? x).map fun sym => { sym with address := r.address } := by
  induction h with
  | nil => cases member
  | cons _ _ set rest ih =>
    rw [List.flatMap_cons, List.nodup_append] at distinct
    obtain ⟨-, distinct', apart⟩ := distinct
    rcases List.mem_cons.mp member with rfl | later
    · rw [rest.get?_of_not_mem fun inside => apart x bound x inside rfl,
        SymbolStore.get?_setAddresses set, if_pos bound]
    · -- The first record does not bind the symbol, since no two records do.
      have inside := List.mem_flatMap.mpr ⟨r, later, bound⟩
      rw [flatMap_defined_of_bare rest.map_bare] at inside
      rw [ih distinct' later, SymbolStore.get?_setAddresses set,
        if_neg fun here => apart x here x inside rfl]

end Placed

end Record

end Dcpu16
