import Dcpu16.Proofs.Invariant
import Dcpu16.Proofs.KeepGoing

/-! Placing an image as a function of its records.  If there is room for all of them, the addresses
of records and symbols follow from the sizes of the records alone, so placing the image again
changes nothing.  Whether there is room does not depend on addresses and words from before. -/

namespace Dcpu16

/-! ### Addresses as functions -/

namespace SymbolStore

variable {s : SymbolStore} {f : SymbolId → Option Word}

/-- The symbols with the addresses that `f` gives.  Where it gives none they keep theirs. -/
def assign (f : SymbolId → Option Word) (s : SymbolStore) : SymbolStore :=
  ⟨s.symbols.mapIdx fun x sym => { sym with address := (f x).or sym.address }⟩

theorem get?_assign (x : Nat) :
    (s.assign f).get? x =
      (s.get? x).map fun sym => { sym with address := (f x).or sym.address } := by
  simp [get?, assign]

theorem unmarked_assign : (s.assign f).unmarked = s.unmarked := by
  refine ext_get? fun x => ?_
  rw [get?_unmarked, get?_unmarked, get?_assign, Option.map_map]
  rfl

theorem assign_assign : (s.assign f).assign f = s.assign f := by
  refine ext_get? fun x => ?_
  rw [get?_assign, get?_assign, Option.map_map]
  cases f x <;> rfl

theorem assign_markReferenced (ids : List SymbolId) :
    (ids.foldl markReferenced s).assign f = ids.foldl markReferenced (s.assign f) := by
  refine ext_get? fun x => ?_
  rw [get?_assign, get?_markReferenced, get?_markReferenced, get?_assign]
  split <;> cases s.get? x <;> rfl

/-- Notes that are taken anyway need not be taken before. -/
theorem markReferenced_append_of_subset {ids more : List SymbolId} (h : ids ⊆ more) :
    (ids ++ more).foldl markReferenced s = more.foldl markReferenced s := by
  refine ext_get? fun x => ?_
  rw [get?_markReferenced, get?_markReferenced]
  have same : x ∈ ids ++ more ↔ x ∈ more := by
    rw [List.mem_append, or_iff_right_of_imp fun member => h member]
  simp only [same]

end SymbolStore

namespace Record

variable {symbols last : SymbolStore} {address : Nat} {r r' : Record} {rs rs' placed : List Record}

theorem exists_of_bare (h : r'.bare = r.bare) :
    ∃ address words, r' = { r with address := address, words := words } := by
  cases r
  cases r'
  simp only [bare, mk.injEq] at h
  simp [h]

theorem exists_of_unfilled (h : r'.unfilled = r.unfilled) :
    ∃ words, r' = { r with words := words } := by
  cases r
  cases r'
  simp only [unfilled, mk.injEq] at h
  simp [h]

/-- The address that placing records gives to a symbol.  The last record that binds it counts. -/
def assigned (address : Nat) : List Record → SymbolId → Option Word
  | [], _ => none
  | r :: rs, x =>
    (assigned (address + r.size) rs x).or
      (if x ∈ r.defined then some (UInt16.ofNat address) else none)

/-- The records with their addresses. -/
def addressed (address : Nat) : List Record → List Record
  | [] => []
  | r :: rs => { r with address := some (UInt16.ofNat address) } :: addressed (address + r.size) rs

theorem Placed.eq_addressed (h : Placed symbols address rs placed last) :
    placed = addressed address rs := by
  induction h with
  | nil => rfl
  | cons _ _ _ _ ih => rw [addressed, ih]

theorem assign_nil (symbols : SymbolStore) (address : Nat) :
    symbols.assign (assigned address []) = symbols := by
  refine SymbolStore.ext_get? fun x => ?_
  rw [SymbolStore.get?_assign]
  simp [assigned]

/-- The addresses that the later records give come after those of the first. -/
theorem assign_cons {mid : SymbolStore}
    (set : r.defined.foldlM (fun s id => s.setAddress? id (UInt16.ofNat address)) symbols =
      some mid) :
    mid.assign (assigned (address + r.size) rs) = symbols.assign (assigned address (r :: rs)) := by
  refine SymbolStore.ext_get? fun x => ?_
  rw [SymbolStore.get?_assign, SymbolStore.get?_assign, SymbolStore.get?_setAddresses set,
    assigned]
  split
  · rw [Option.map_map]
    cases assigned _ _ x <;> rfl
  · rw [Option.or_none]

theorem Placed.eq_assign (h : Placed symbols address rs placed last) :
    last = symbols.assign (assigned address rs) := by
  induction h with
  | nil => rw [assign_nil]
  | cons _ _ set _ ih => rw [ih, assign_cons set]

theorem assigned_of_bare (h : rs'.map bare = rs.map bare) :
    assigned address rs' = assigned address rs := by
  funext x
  induction rs generalizing rs' address with
  | nil =>
    rw [List.map_nil, List.map_eq_nil_iff] at h
    rw [h]
  | cons r rs ih =>
    obtain ⟨r', rs', rfl, same, rest⟩ := List.map_eq_cons_iff.mp h
    obtain ⟨address', words, rfl⟩ := exists_of_bare same
    rw [assigned, assigned, ih rest]
    rfl

theorem map_bare_addressed (address : Nat) (rs : List Record) :
    (addressed address rs).map bare = rs.map bare := by
  induction rs generalizing address with
  | nil => rfl
  | cons r rs ih => rw [addressed, List.map_cons, List.map_cons, ih]; rfl

theorem addressed_addressed (address : Nat) (rs : List Record) :
    addressed address (addressed address rs) = addressed address rs := by
  induction rs generalizing address with
  | nil => rfl
  | cons r rs ih => simp only [addressed, size, ih]

theorem map_unfilled_addressed (h : rs'.map unfilled = rs.map unfilled) :
    (addressed address rs').map unfilled = (addressed address rs).map unfilled := by
  induction rs generalizing rs' address with
  | nil =>
    rw [List.map_nil, List.map_eq_nil_iff] at h
    rw [h]
  | cons r rs ih =>
    obtain ⟨r', rs', rfl, same, rest⟩ := List.map_eq_cons_iff.mp h
    obtain ⟨words, rfl⟩ := exists_of_unfilled same
    rw [addressed, addressed, List.map_cons, List.map_cons, ih rest]
    rfl

end Record

namespace Image

variable {image now : Image}

/-- The address behind the last record. -/
def behind (image : Image) : Nat := image.baseAddress.toNat + Record.extent image.records

/-- The address that placing the image gives to a symbol. -/
def assigned (image : Image) (x : SymbolId) : Option Word :=
  (if image.behind < addressSpace ∧ x ∈ image.sentinel.defined then
      some (UInt16.ofNat image.behind) else none).or
    (Record.assigned image.baseAddress.toNat image.records x)

/-- The image with all its addresses. -/
def settle (image : Image) : Image :=
  { image with
    program := { image.program with symbols := image.program.symbols.assign image.assigned }
    records := Record.addressed image.baseAddress.toNat image.records
    sentinel :=
      if image.behind < addressSpace then
        { image.sentinel with address := some (UInt16.ofNat image.behind) }
      else image.sentinel }

theorem place_of_ok (h : image.place.1 = .ok ()) : image.place.2 = image.settle := by
  unfold place at h ⊢
  dsimp only at h ⊢
  cases result :
      (Record.placeAll image.program.symbols image.baseAddress.toNat image.records).result with
  | error e => simp [result] at h
  | ok address =>
    simp only [result] at h ⊢
    obtain ⟨row, rfl⟩ := Record.placed_of_placeAll result
    rw [row.eq_addressed, row.eq_assign] at h ⊢
    rw [← behind] at h ⊢
    -- The sentinel is placed like one more record, unless memory ends there.
    unfold placeSentinel at h ⊢
    by_cases fits : image.behind < addressSpace
    · rw [if_neg (Nat.not_le.mpr fits)] at h ⊢
      dsimp only at h ⊢
      cases hPlace : image.sentinel.placeAt?
          (image.program.symbols.assign (Record.assigned image.baseAddress.toNat image.records))
          image.behind with
      | none => simp [hPlace] at h
      | some result =>
        obtain ⟨sentinel, symbols⟩ := result
        obtain ⟨rfl, set⟩ := Record.placeAt?_eq_some hPlace
        have last : symbols = image.program.symbols.assign image.assigned := by
          refine SymbolStore.ext_get? fun x => ?_
          rw [SymbolStore.get?_setAddresses set, SymbolStore.get?_assign, SymbolStore.get?_assign,
            assigned]
          by_cases bound : x ∈ image.sentinel.defined <;> cases image.program.symbols.get? x <;>
            simp [bound, fits]
        simp only [settle, last, if_pos fits]
    · have last : Record.assigned image.baseAddress.toNat image.records = image.assigned := by
        funext x
        simp [assigned, fits]
      rw [if_pos (Nat.le_of_not_lt fits)]
      simp only [settle, last, if_neg fits]

theorem behind_settle : image.settle.behind = image.behind := by
  rw [behind, behind, settle]
  exact congrArg (_ + ·) (Record.extent_of_bare (Record.map_bare_addressed _ _))

theorem assigned_settle : image.settle.assigned = image.assigned := by
  have sentinel : image.settle.sentinel.defined = image.sentinel.defined := by
    unfold settle
    dsimp only
    split <;> rfl
  have records : Record.assigned image.settle.baseAddress.toNat image.settle.records =
      Record.assigned image.baseAddress.toNat image.records :=
    Record.assigned_of_bare (Record.map_bare_addressed _ _)
  funext x
  rw [assigned, assigned, behind_settle, sentinel, records]

theorem settle_settle : image.settle.settle = image.settle := by
  rw [settle, assigned_settle, behind_settle]
  simp only [settle, SymbolStore.assign_assign, Record.addressed_addressed]
  split <;> rfl

end Image

/-! ### The result of placing -/

namespace Image

/-- The second image has the records of the first, perhaps with other addresses and words, and as
many symbols. -/
structure SameShape (image now : Image) : Prop where
  records : now.records.map Record.bare = image.records.map Record.bare
  sentinel : now.sentinel.bare = image.sentinel.bare
  base : now.baseAddress = image.baseAddress
  size : now.program.symbols.size = image.program.symbols.size

end Image

namespace Record

variable {symbols symbols' : SymbolStore} {program : Program} {keepGoing : Bool} {address : Nat}
  {r r' : Record} {rs rs' : List Record}

theorem isSome_placeAt? (r : Record) (symbols : SymbolStore) (address : Nat) :
    (r.placeAt? symbols address).isSome = r.defined.all fun x => x < symbols.size := by
  have set (ids : List SymbolId) (word : Word) (s : SymbolStore) :
      (ids.foldlM (fun (s : SymbolStore) id => s.setAddress? id word) s).isSome =
        ids.all fun x => x < s.size := by
    induction ids generalizing s with
    | nil => rfl
    | cons id ids ih =>
      rw [List.foldlM_cons, List.all_cons, SymbolStore.setAddress?]
      by_cases inside : id < s.size
      · simp only [inside, if_true, Option.bind_eq_bind, Option.bind_some, ih,
          SymbolStore.size_modify, decide_true, Bool.true_and]
      · simp [inside]
  rw [← set r.defined (UInt16.ofNat address) symbols, placeAt?]
  cases r.defined.foldlM (fun s id => s.setAddress? id (UInt16.ofNat address)) symbols <;> rfl

/-- Whether records can be placed depends on what they are and on how many symbols there are. -/
theorem result_placeAll (h : rs'.map bare = rs.map bare) (size : symbols'.size = symbols.size) :
    (placeAll symbols' address rs').result = (placeAll symbols address rs).result := by
  induction rs generalizing rs' symbols symbols' address with
  | nil =>
    rw [List.map_nil, List.map_eq_nil_iff] at h
    rw [h]
    rfl
  | cons r rs ih =>
    obtain ⟨r', rs', rfl, same, rest⟩ := List.map_eq_cons_iff.mp h
    obtain ⟨address', words, rfl⟩ := exists_of_bare same
    have ends : endFrom { r with address := address', words := words } address =
      r.endFrom address := rfl
    have both : (placeAt? { r with address := address', words := words } symbols' address).isSome =
        (r.placeAt? symbols address).isSome := by
      rw [isSome_placeAt?, isSome_placeAt?, size]
    unfold placeAll
    rw [ends]
    cases r.endFrom address with
    | error e => rfl
    | ok next =>
      cases placed : r.placeAt? symbols address with
      | none =>
        rw [placed, Option.isSome_none, Option.isSome_eq_false_iff,
          Option.isNone_iff_eq_none] at both
        rw [both]
      | some result =>
        rw [placed, Option.isSome_some] at both
        obtain ⟨result', placed'⟩ := Option.isSome_iff_exists.mp both
        rw [placed']
        obtain ⟨-, set⟩ := placeAt?_eq_some placed
        obtain ⟨-, set'⟩ := placeAt?_eq_some placed'
        refine ih rest ?_
        rw [SymbolStore.size_of_unmarked (SymbolStore.unmarked_setAddresses set),
          SymbolStore.size_of_unmarked (SymbolStore.unmarked_setAddresses set'), size]

theorem map_bare_placeAll (symbols : SymbolStore) (address : Nat) (rs : List Record) :
    (placeAll symbols address rs).records.map bare = rs.map bare := by
  induction rs generalizing symbols address with
  | nil => rfl
  | cons r rs ih =>
    unfold placeAll
    split
    · rfl
    · split
      · rfl
      · next placed =>
        obtain ⟨rfl, -⟩ := placeAt?_eq_some placed
        exact congrArg (r.bare :: ·) (ih _ _)

theorem map_unfilled_fillAll (program : Program) (keepGoing : Bool) (rs : List Record) :
    (fillAll program keepGoing rs).records.map unfilled = rs.map unfilled := by
  induction rs with
  | nil => rfl
  | cons r rs ih =>
    unfold fillAll
    dsimp only
    split
    · exact congrArg (r.unfilled :: ·) ih
    · rfl
    · split
      · split
        · rfl
        · next zeros =>
          obtain rfl := zeroed_eq_ok zeros
          exact congrArg (r.unfilled :: ·) ih
      · rfl

theorem map_bare_of_unfilled (h : rs'.map unfilled = rs.map unfilled) :
    rs'.map bare = rs.map bare := by
  have same := congrArg (List.map bare) h
  rwa [List.map_map, List.map_map] at same

end Record

namespace Image

variable {image now : Image}

theorem SameShape.refl (image : Image) : image.SameShape image := ⟨rfl, rfl, rfl, rfl⟩

theorem SameShape.trans {mid : Image} (h : image.SameShape mid) (h' : mid.SameShape now) :
    image.SameShape now :=
  ⟨h'.records.trans h.records, h'.sentinel.trans h.sentinel, h'.base.trans h.base,
    h'.size.trans h.size⟩

theorem sameShape_place (image : Image) : image.SameShape image.place.2 := by
  obtain ⟨-, same⟩ := image.settled_of_place
  have size := SymbolStore.size_of_unmarked same.unmarked
  have records := Record.map_bare_placeAll image.program.symbols image.baseAddress.toNat
    image.records
  refine ⟨?_, ?_, ?_, size⟩
  all_goals
    unfold place
    dsimp only
    split
  · exact records
  · next address _ =>
    unfold placeSentinel
    split
    · exact records
    · split <;> exact records
  · rfl
  · unfold placeSentinel
    split
    · rfl
    · split
      · next placed =>
        obtain ⟨rfl, -⟩ := Record.placeAt?_eq_some placed
        rfl
      · rfl
  · rfl
  · unfold placeSentinel
    split
    · rfl
    · split <;> rfl

theorem sameShape_fill (image : Image) : image.SameShape image.fill.2.2 := by
  obtain ⟨-, same⟩ := image.settled_of_fill
  have size := SymbolStore.size_of_unmarked same.unmarked
  have records := Record.map_bare_of_unfilled
    (Record.map_unfilled_fillAll image.program image.keepGoing image.records)
  unfold fill at size ⊢
  dsimp only at size ⊢
  split at size <;> exact ⟨records, rfl, rfl, size⟩

theorem result_placeSentinel (image : Image) (address : Nat) :
    (image.placeSentinel address).1 =
      if addressSpace ≤ address ∨
          image.sentinel.defined.all fun x => x < image.program.symbols.size then .ok ()
      else .error (.fault .missingSymbol) := by
  rw [← Record.isSome_placeAt? image.sentinel image.program.symbols address]
  unfold placeSentinel
  split
  · next full => rw [if_pos (Or.inl full)]
  · next fits =>
    cases placed : image.sentinel.placeAt? image.program.symbols address <;> simp [fits]

/-- Placing has the same result for images of the same shape. -/
theorem SameShape.result_place (h : image.SameShape now) : now.place.1 = image.place.1 := by
  have size (image : Image) := SymbolStore.size_of_unmarked (Record.settled_of_placeAll
    image.program.symbols image.baseAddress.toNat image.records).unmarked
  obtain ⟨address, words, same⟩ := Record.exists_of_bare h.sentinel
  unfold place
  dsimp only
  rw [h.base, Record.result_placeAll h.records h.size]
  cases (Record.placeAll image.program.symbols image.baseAddress.toNat image.records).result with
  | error e => rfl
  | ok address =>
    dsimp only
    rw [result_placeSentinel, result_placeSentinel, size image, ← h.base, size now, h.size, same]

end Image

end Dcpu16
