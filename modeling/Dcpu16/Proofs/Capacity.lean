import Dcpu16.Proofs.LiteralSums
import Dcpu16.Proofs.Printing
import Dcpu16.Proofs.Resolution
import Dcpu16.Proofs.Settling

/-! Room in memory.  An image can be placed exactly if each of its records fits behind the records
before it; otherwise placing stops at the first that does not.  Once an image has been placed, every
name that stands for a symbol has an address, but for the end of an image that fills memory up to
the last word. -/

namespace Dcpu16

/-! ### Records in a row -/

namespace Record

variable {symbols : SymbolStore} {address : Nat} {r : Record} {rs before after : List Record}
  {stop : Stop LocatedError}

/-- The record has room at an address. -/
structure FitsAt (r : Record) (address : Nat) : Prop where
  starts : address < addressSpace
  ends : address + r.size ≤ addressSpace
  -- The literals of its operands can be added up, so that its size can be told.
  sums : ∀ o, r.content = .operation o → o.sumsFit = true

/-- What placing stops with at a record that has no room at an address. -/
inductive Misfit (r : Record) (address : Nat) : Stop LocatedError → Prop
  | behind (full : address = addressSpace) :
      Misfit r address (.error (r.locate (.addressOverflow address)))
  | past (starts : address < addressSpace) (sums : ∀ o, r.content = .operation o → o.sumsFit = true)
      (past : addressSpace < address + r.size) :
      Misfit r address (.error (r.locate (.addressOverflow (address + r.size - 1))))
  | sums {o : Operation} (starts : address < addressSpace) (operation : r.content = .operation o)
      (overflow : o.sumsFit = false) : Misfit r address (.fault .overflow)

theorem measure_of_sums (h : ∀ o, r.content = .operation o → o.sumsFit = true) :
    r.content.measure = .ok r.size := by
  unfold size
  cases content : r.content with
  | operation o => simp [Content.measure, Content.size, h o content]
  | data words => rfl
  | mark => rfl

theorem FitsAt.endFrom (h : r.FitsAt address) : r.endFrom address = .ok (address + r.size) := by
  unfold Record.endFrom
  rw [if_neg (Nat.not_le.mpr h.starts), measure_of_sums h.sums]
  exact if_neg (Nat.not_lt.mpr h.ends)

theorem Misfit.endFrom (h : r.Misfit address stop) : r.endFrom address = .error stop := by
  unfold Record.endFrom
  cases h with
  | behind full => rw [if_pos (Nat.le_of_eq full.symm)]
  | past starts sums past =>
    rw [if_neg (Nat.not_le.mpr starts), measure_of_sums sums]
    exact if_pos past
  | sums starts operation overflow =>
    rw [if_neg (Nat.not_le.mpr starts), operation]
    simp [Content.measure, overflow]

theorem exists_misfit (within : address ≤ addressSpace) (h : ¬ r.FitsAt address) :
    ∃ stop, r.Misfit address stop := by
  by_cases starts : address < addressSpace
  · by_cases sums : ∀ o, r.content = .operation o → o.sumsFit = true
    · exact ⟨_, .past starts sums (Nat.lt_of_not_le fun ends => h ⟨starts, ends, sums⟩)⟩
    · obtain ⟨o, operation, overflow⟩ : ∃ o, r.content = .operation o ∧ o.sumsFit = false := by
        simpa using sums
      exact ⟨_, .sums starts operation overflow⟩
  · exact ⟨_, .behind (by omega)⟩

/-- Every record has room behind the records before it. -/
def RowFits (address : Nat) (rs : List Record) : Prop :=
  ∀ before r after, rs = before ++ r :: after → r.FitsAt (address + extent before)

theorem rowFits_nil (address : Nat) : RowFits address [] := by
  intro before r after split
  cases before <;> cases split

theorem rowFits_cons :
    RowFits address (r :: rs) ↔ r.FitsAt address ∧ RowFits (address + r.size) rs := by
  constructor
  · intro h
    refine ⟨h [] r rs rfl, fun before r' after split => ?_⟩
    have later := h (r :: before) r' after (congrArg (r :: ·) split)
    rwa [extent_cons, ← Nat.add_assoc] at later
  · rintro ⟨first, rest⟩ before r' after split
    cases before with
    | nil =>
      cases split
      exact first
    | cons r'' before =>
      cases split
      rw [extent_cons, ← Nat.add_assoc]
      exact rest before r' after rfl

theorem RowFits.end_le (h : RowFits address rs) (within : address ≤ addressSpace) :
    address + extent rs ≤ addressSpace := by
  induction rs generalizing address with
  | nil => exact within
  | cons r rs ih =>
    obtain ⟨first, rest⟩ := rowFits_cons.mp h
    rw [extent_cons, ← Nat.add_assoc]
    exact ih rest first.ends

/-- In a row without room for all, there is a first record that has none. -/
theorem exists_first_misfit (within : address ≤ addressSpace) (h : ¬ RowFits address rs) :
    ∃ before r after stop, rs = before ++ r :: after ∧ RowFits address before ∧
      r.Misfit (address + extent before) stop := by
  induction rs generalizing address with
  | nil => exact absurd (rowFits_nil address) h
  | cons r rs ih =>
    by_cases first : r.FitsAt address
    · obtain ⟨before, r', after, stop, rfl, fits, misfit⟩ :=
        ih first.ends fun rest => h (rowFits_cons.mpr ⟨first, rest⟩)
      refine ⟨r :: before, r', after, stop, rfl, rowFits_cons.mpr ⟨first, fits⟩, ?_⟩
      rwa [extent_cons, ← Nat.add_assoc]
    · obtain ⟨stop, misfit⟩ := exists_misfit within first
      exact ⟨[], r, rs, stop, rfl, rowFits_nil address, misfit⟩

/-- Records that have room are placed, and placing goes on behind them. -/
theorem placeAll_append (fits : RowFits address before)
    (inRange : ∀ r ∈ before, ∀ x ∈ r.defined, x < symbols.size) (rest : List Record) :
    placeAll symbols address (before ++ rest) =
      let later :=
        placeAll (symbols.assign (assigned address before)) (address + extent before) rest
      ⟨addressed address before ++ later.records, later.symbols, later.result⟩ := by
  induction before generalizing symbols address with
  | nil => rw [assign_nil]; rfl
  | cons r before ih =>
    obtain ⟨first, others⟩ := rowFits_cons.mp fits
    have present : (r.placeAt? symbols address).isSome := by
      rw [isSome_placeAt?, List.all_eq_true]
      exact fun x bound => decide_eq_true (inRange r List.mem_cons_self x bound)
    obtain ⟨⟨r', mid⟩, placed⟩ := Option.isSome_iff_exists.mp present
    obtain ⟨rfl, set⟩ := placeAt?_eq_some placed
    have size : mid.size = symbols.size :=
      SymbolStore.size_of_unmarked (SymbolStore.unmarked_setAddresses set)
    have inRange' : ∀ r' ∈ before, ∀ x ∈ r'.defined, x < mid.size := by
      intro r' member x bound
      rw [size]
      exact inRange r' (List.mem_cons_of_mem r member) x bound
    rw [List.cons_append, placeAll, first.endFrom]
    dsimp only
    rw [placed]
    dsimp only
    rw [ih others inRange', assign_cons set, extent_cons, Nat.add_assoc]
    rfl

theorem isSome_assigned {x : SymbolId} :
    (assigned address rs x).isSome ↔ x ∈ rs.flatMap defined := by
  induction rs generalizing address with
  | nil => simp [assigned]
  | cons r rs ih =>
    rw [assigned, List.flatMap_cons, List.mem_append, Option.isSome_or, Bool.or_eq_true, ih,
      or_comm]
    simp

end Record

/-! ### The files of a session -/

namespace Session

/-- The files that are assembled, each in the session that the files before it leave.  Those that
fail are left out. -/
def objects (s : Session) : List Job → List ObjectFile
  | [] => []
  | job :: jobs => (job.object? s).toList ++ (s.next job).objects jobs

theorem object_cases (s : Session) (job : Job) :
    (∃ o, job.object? s = some o ∧ o.Made s.program (s.next job).program) ∨
      (job.object? s = none ∧ (s.next job).program.symbols.size = s.program.symbols.size) := by
  cases object : job.object? s with
  | some o =>
    obtain ⟨-, made⟩ := ObjectFile.made_of_assemble (Job.assemble_of_object? object)
    exact .inl ⟨o, rfl, made⟩
  | none =>
    unfold next
    unfold Job.object? at object
    cases run : ObjectFile.assemble job.options job.file job.text s with
    | ok o t => simp [run] at object
    | error e t =>
      obtain ⟨-, size, -⟩ := ObjectFile.restored_of_error run
      exact .inr ⟨rfl, size⟩

theorem made_of_mem_objects {s : Session} {jobs : List Job} {o : ObjectFile}
    (member : o ∈ s.objects jobs) : ∃ p q, o.Made p q := by
  induction jobs generalizing s with
  | nil => cases member
  | cons job jobs ih =>
    rcases List.mem_append.mp member with here | later
    · rcases s.object_cases job with ⟨o', object, made⟩ | ⟨none, -⟩
      · rw [object, Option.mem_toList, Option.some.injEq] at here
        exact ⟨_, _, here ▸ made⟩
      · rw [none] at here
        cases here
    · exact ih later

/-- The records of the files bind the symbols that the session has got since. -/
theorem bound_objects (s : Session) (jobs : List Job) :
    s.program.symbols.size ≤ (s.after jobs).program.symbols.size ∧
      ∀ x : Nat, x ∈ ((s.objects jobs).flatMap ObjectFile.records).flatMap Record.defined ↔
        s.program.symbols.size ≤ x ∧ x < (s.after jobs).program.symbols.size := by
  induction jobs generalizing s with
  | nil => exact ⟨Nat.le_refl _, by simp [objects, after]⟩
  | cons job jobs ih =>
    obtain ⟨grown, bound⟩ := ih (s.next job)
    have step : s.after (job :: jobs) = (s.next job).after jobs := rfl
    rw [step]
    simp only [objects, List.flatMap_append, List.mem_append, bound]
    rcases s.object_cases job with ⟨o, object, made⟩ | ⟨none, size⟩
    · have first := made.extends_.symbols.size_le
      refine ⟨by omega, fun x => ?_⟩
      rw [object, Option.toList_some, List.flatMap_singleton, made.mem_bound x]
      omega
    · rw [none, size]
      rw [size] at grown
      exact ⟨grown, by simp⟩

end Session

namespace Image

variable {image : Image}

/-- The records of the image bind all symbols of the program but the last, which is its end. -/
structure Complete (image : Image) : Prop where
  sound : image.program.Sound
  defined : image.program.AllDefined
  size : image.program.symbols.size = image.endSymbol + 1
  bound : ∀ x : Nat, x ∈ image.records.flatMap Record.defined ↔ x < image.endSymbol
  sentinel : image.sentinel = endRecord image.endSymbol
  last : image.program.symbols.get? image.endSymbol = some endMark
  unplaced : ∀ r ∈ image.records, r.address = none

theorem complete_of_link {jobs : List Job} {objects : List ObjectFile} {options : Options}
    (all : objects.Perm (Session.empty.objects jobs))
    (hLink : link (Session.empty.after jobs).program objects options = .ok image) :
    image.Complete := by
  obtain ⟨sound, defined⟩ := sound_of_stage (.linked hLink) (Session.sound_after jobs)
  obtain ⟨free, id, q, first, hEnd, hFirst, rfl⟩ := link_eq_ok hLink
  obtain ⟨rfl, -, symbols⟩ := addEnd_eq_some hEnd
  have last : q.symbols.get? (Session.empty.after jobs).program.symbols.size = some endMark := by
    rw [symbols, if_pos rfl]
  refine ⟨sound, defined, ?_, fun x => ?_, rfl, last, fun r member => ?_⟩
  · have inside : (Session.empty.after jobs).program.symbols.size < q.symbols.size :=
      SymbolStore.lt_size_of_get? last
    by_contra more
    -- A symbol behind the end would be one of the session.
    obtain ⟨sym, found⟩ := SymbolStore.exists_get? (s := q.symbols)
      (x := (Session.empty.after jobs).program.symbols.size + 1) (by dsimp only at more; omega)
    rw [symbols, if_neg (by omega)] at found
    have := SymbolStore.lt_size_of_get? found
    omega
  · have bound := (Session.bound_objects .empty jobs).2 x
    have same := (all.flatMap_right ObjectFile.records).flatMap_right Record.defined
    dsimp only
    rw [List.flatMap_append, defined_leading hFirst, List.nil_append, same.mem_iff, bound]
    exact and_iff_right (Nat.zero_le x)
  · rcases mem_unplaced hFirst member with ⟨entry, -, jump⟩ | ⟨o, inside, inFile⟩
    · obtain ⟨target, -, rfl⟩ := entryJump_eq_ok jump
      rfl
    · obtain ⟨p, q, made⟩ := Session.made_of_mem_objects (all.mem_iff.mp inside)
      exact (made.records r inFile).address

end Image

/-! ### Placing -/

namespace Image

variable {image : Image}

/-- Every record of the image has room. -/
def Fits (image : Image) : Prop :=
  Record.RowFits image.baseAddress.toNat image.records

/-- The image with `before` placed and the records `rest` behind it as they were. -/
def placedUpTo (image : Image) (before rest : List Record) : Image :=
  { image with
    records := Record.addressed image.baseAddress.toNat before ++ rest
    program := { image.program with
      symbols := image.program.symbols.assign
        (Record.assigned image.baseAddress.toNat before) } }

namespace Complete

theorem inRange (h : image.Complete) {r : Record} (member : r ∈ image.records) {x : SymbolId}
    (bound : x ∈ r.defined) : x < image.program.symbols.size := by
  have below := (h.bound x).mp (List.mem_flatMap.mpr ⟨r, member, bound⟩)
  rw [h.size]
  exact Nat.lt_succ_of_lt below

theorem place_of_fits (h : image.Complete) (fits : image.Fits) :
    image.place = (.ok (), image.settle) := by
  have placing := Record.placeAll_append fits (fun r member x => h.inRange member) []
  rw [List.append_nil] at placing
  have ok : image.place.1 = .ok () := by
    unfold place
    dsimp only
    rw [placing]
    dsimp only [Record.placeAll]
    rw [result_placeSentinel, if_pos]
    refine .inr (List.all_eq_true.mpr fun x bound => decide_eq_true ?_)
    rw [SymbolStore.size_of_unmarked SymbolStore.unmarked_assign, h.size]
    rw [h.sentinel] at bound
    exact Nat.lt_succ_of_le (Nat.le_of_eq (List.mem_singleton.mp bound))
  exact Prod.ext ok (place_of_ok ok)

theorem place_of_misfit (h : image.Complete) {before after : List Record} {r : Record}
    {stop : Stop LocatedError} (split : image.records = before ++ r :: after)
    (fits : Record.RowFits image.baseAddress.toNat before)
    (misfit : r.Misfit (image.baseAddress.toNat + Record.extent before) stop) :
    image.place = (.error stop, image.placedUpTo before (r :: after)) := by
  have inRange : ∀ r ∈ before, ∀ x ∈ r.defined, x < image.program.symbols.size := by
    intro r member x
    exact h.inRange (by rw [split]; exact List.mem_append_left _ member)
  unfold place
  dsimp only
  rw [split, Record.placeAll_append fits inRange]
  simp only [Record.placeAll, misfit.endFrom]
  rfl

end Complete

end Image

/-! ### Addresses of names -/

namespace Scope

variable {scope : Scope} {name : String}

/-- A name that stands for no symbol is reported as such. -/
theorem error_of_find {e : AsmError} (h : scope.find name = .error (.error e)) :
    e = .undefinedSymbol name ∨ e = .noScope name := by
  unfold find at h
  cases found : scope.program.resolve scope.file name scope.global with
  | ok x =>
    rw [found] at h
    cases x with
    | some x => cases h
    | none =>
      cases h
      exact .inl rfl
  | error stop =>
    rw [found] at h
    cases h
    unfold Program.resolve SymbolStore.resolve at found
    dsimp only at found
    split at found
    · cases found
    · split at found
      · split at found
        · cases found
          exact .inr rfl
        · next id _ =>
          cases named : scope.program.symbols.mangled? id <;>
            simp [named, orFault, bind, Except.bind, pure, Except.pure] at found
      · split at found <;> cases found

theorem exists_get?_of_find (sound : scope.program.Sound) {x : SymbolId}
    (found : scope.find name = .ok x) : ∃ sym, scope.program.symbols.get? x = some sym := by
  obtain ⟨key, inTable, -⟩ := SymbolStore.exists_key_of_resolve (find_eq_ok.mp found)
  exact SymbolStore.exists_get?_of_mangled? (sound.named key x inTable)

/-- Where all symbols are defined, a lookup ends behind memory exactly if the name stands for a
symbol without an address. -/
theorem lookup_eq_addressOverflow (sound : scope.program.Sound)
    (defined : scope.program.AllDefined) :
    (∃ n, scope.lookup name = .error (.error (.addressOverflow n))) ↔
      ∃ x sym, scope.find name = .ok x ∧ scope.program.symbols.get? x = some sym ∧
        sym.address = none := by
  cases found : scope.find name with
  | error stop =>
    have same : scope.lookup name = .error stop := by rw [lookup, found]; rfl
    rw [same]
    refine iff_of_false ?_ (by simp)
    rintro ⟨n, h⟩
    cases h
    rcases error_of_find found with h | h <;> cases h
  | ok x =>
    obtain ⟨sym, hSym⟩ := exists_get?_of_find sound found
    obtain ⟨place, isDefined⟩ := Option.isSome_iff_exists.mp (defined hSym)
    rw [lookup_of_find found, addressOf_of_get? hSym, isDefined]
    cases address : sym.address <;> simp [hSym, address]

end Scope

namespace Image

variable {image : Image}

/-- Of an image that has been placed, only the end has no address, if memory ends there. -/
theorem Complete.address_eq_none (h : image.Complete) (fits : image.Fits) {x : SymbolId}
    {sym : Symbol} (found : image.settle.program.symbols.get? x = some sym) :
    sym.address = none ↔ x = image.endSymbol ∧ image.behind = addressSpace := by
  have within : image.behind ≤ addressSpace :=
    fits.end_le (Nat.le_of_lt image.baseAddress.toNat_lt)
  simp only [settle, SymbolStore.get?_assign, Option.map_eq_some_iff] at found
  obtain ⟨old, hOld, rfl⟩ := found
  rw [Option.or_eq_none_iff, assigned, Option.or_eq_none_iff, h.sentinel]
  by_cases last : x = image.endSymbol
  · subst last
    cases hOld.symm.trans h.last
    have free : Record.assigned image.baseAddress.toNat image.records image.endSymbol = none := by
      rw [← Option.not_isSome_iff_eq_none, Record.isSome_assigned, h.bound]
      exact Nat.lt_irrefl _
    have behind : ¬ image.behind < addressSpace ↔ image.behind = addressSpace := by omega
    simp [free, endRecord, endMark, ← behind]
  · have inside : x < image.endSymbol := by
      have below := SymbolStore.lt_size_of_get? hOld
      rw [h.size] at below
      exact Nat.lt_of_le_of_ne (Nat.le_of_lt_succ below) last
    have bound : (Record.assigned image.baseAddress.toNat image.records x).isSome :=
      Record.isSome_assigned.mpr ((h.bound x).mpr inside)
    refine iff_of_false ?_ fun both => last both.1
    rintro ⟨⟨-, none⟩, -⟩
    rw [none] at bound
    cases bound

/-- Placing an image changes neither its names nor what is defined. -/
theorem Complete.sound_settle (h : image.Complete) (fits : image.Fits) :
    image.settle.program.Sound ∧ image.settle.program.AllDefined := by
  obtain ⟨table, same⟩ := image.settled_of_place
  rw [h.place_of_fits fits] at table same
  exact ⟨h.sound.of_settled table same, h.defined.of_settled same⟩

theorem Complete.lookup_settle (h : image.Complete) (fits : image.Fits) {scope : Scope}
    (same : scope.program = image.settle.program) (name : String) :
    (∃ n, scope.lookup name = .error (.error (.addressOverflow n))) ↔
      scope.find name = .ok image.endSymbol ∧ image.behind = addressSpace := by
  obtain ⟨sound, defined⟩ := h.sound_settle fits
  rw [← same] at sound defined
  rw [Scope.lookup_eq_addressOverflow sound defined]
  constructor
  · rintro ⟨x, sym, found, hSym, none⟩
    rw [same] at hSym
    obtain ⟨rfl, full⟩ := (h.address_eq_none fits hSym).mp none
    exact ⟨found, full⟩
  · rintro ⟨found, full⟩
    obtain ⟨sym, hSym⟩ := Scope.exists_get?_of_find sound found
    refine ⟨_, sym, found, hSym, ?_⟩
    rw [same] at hSym
    exact (h.address_eq_none fits hSym).mpr ⟨rfl, full⟩

/-- An image of all files of a session can be placed exactly if every record has room.  Otherwise
placing stops at the first that has none, and only the records before it have got addresses.  Once
the image has been placed, the sentinel has the address behind the last record, if that is in
memory, and a lookup ends behind memory only for the end symbol, and only if it is not. -/
theorem place_ok_iff_fits {jobs : List Job} {objects : List ObjectFile} {options : Options}
    (all : objects.Perm (Session.empty.objects jobs))
    (hLink : link (Session.empty.after jobs).program objects options = .ok image) :
    (image.place.1 = .ok () ↔ image.Fits) ∧
      (¬ image.Fits → ∃ before r after stop, image.records = before ++ r :: after ∧
        Record.RowFits image.baseAddress.toNat before ∧
        r.Misfit (image.baseAddress.toNat + Record.extent before) stop ∧
        image.place = (.error stop, image.placedUpTo before (r :: after)) ∧
        ∀ r' ∈ r :: after, r'.address = none) ∧
      (image.Fits →
        image.place.2.endAddress =
          (if image.behind < addressSpace then some (UInt16.ofNat image.behind) else none) ∧
        ∀ scope : Scope, scope.program = image.place.2.program → ∀ name,
          ((∃ n, scope.lookup name = .error (.error (.addressOverflow n))) ↔
            scope.find name = .ok image.endSymbol ∧ image.behind = addressSpace) ∧
          ∀ x, scope.find name = .ok x → ∃ sym, scope.program.symbols.get? x = some sym ∧
            sym.definition.isSome) := by
  have complete := complete_of_link all hLink
  have within : image.baseAddress.toNat ≤ addressSpace := Nat.le_of_lt image.baseAddress.toNat_lt
  refine ⟨⟨fun ok => ?_, fun fits => by rw [complete.place_of_fits fits]⟩, fun misfits => ?_,
    fun fits => ?_⟩
  · by_contra misfits
    obtain ⟨_, _, _, stop, split, fits, misfit⟩ := Record.exists_first_misfit within misfits
    rw [complete.place_of_misfit split fits misfit] at ok
    cases ok
  · obtain ⟨before, r, after, stop, split, fits, misfit⟩ :=
      Record.exists_first_misfit within misfits
    refine ⟨before, r, after, stop, split, fits, misfit,
      complete.place_of_misfit split fits misfit, fun r' later => ?_⟩
    exact complete.unplaced r' (by rw [split]; exact List.mem_append_right _ later)
  · rw [complete.place_of_fits fits]
    refine ⟨?_, fun scope same name => ⟨complete.lookup_settle fits same name, ?_⟩⟩
    · unfold endAddress settle
      dsimp only
      rw [complete.sentinel]
      split <;> rfl
    · intro x found
      obtain ⟨sound, defined⟩ := complete.sound_settle fits
      rw [← same] at sound defined
      obtain ⟨sym, hSym⟩ := Scope.exists_get?_of_find sound found
      exact ⟨sym, hSym, defined hSym⟩

/-- Three words up to the last of memory, from files that are linked in another order than they were
assembled.  The end cannot be looked up, and one address higher the last record has no room. -/
theorem place_ok_iff_fits_top_of_memory :
    let a : Job := ⟨{}, "a.s", ":first set a, _end"⟩
    let b : Job := ⟨{}, "b.s", ":second set pc"⟩
    let c : Job := ⟨{}, "c.s", ":third .word 7"⟩
    let jobs := [a, b, c]
    let objects := (Session.empty.objects jobs).reverse
    objects.Perm (Session.empty.objects jobs) ∧
      (∃ image, link (Session.empty.after jobs).program objects { baseAddress := 0xFFFD } =
          .ok image ∧ image.Fits ∧ image.place.2.endAddress = none ∧
        ∃ n, (Scope.mk image.place.2.program "a.s" none).lookup "_end" =
          .error (.error (.addressOverflow n))) ∧
      ∃ image, link (Session.empty.after jobs).program objects { baseAddress := 0xFFFE } =
        .ok image ∧ ¬ image.Fits := by
  intro a b c jobs objects
  have all : objects.Perm (Session.empty.objects jobs) := List.reverse_perm _
  let linkAt (base : Word) :=
    link (Session.empty.after jobs).program objects { baseAddress := base }
  have low : (linkAt 0xFFFD).toOption.map (fun image =>
      (image.place.1.toOption, image.behind, image.endSymbol,
        ((Scope.mk image.place.2.program "a.s" none).find "_end").toOption)) =
      some (some (), 0x10000, 2, some 2) := by
    decide +kernel
  have high : (linkAt 0xFFFE).toOption.map (fun image => image.place.1.toOption) = some none := by
    decide +kernel
  obtain ⟨image, hLink, same⟩ := Option.map_eq_some_iff.mp low
  obtain ⟨image', hLink', same'⟩ := Option.map_eq_some_iff.mp high
  have hLink := Runs.eq_ok_of_toOption hLink
  have hLink' := Runs.eq_ok_of_toOption hLink'
  simp only [Prod.mk.injEq] at same
  obtain ⟨placed, full, isEnd, found⟩ := same
  obtain ⟨ok, -, after⟩ := place_ok_iff_fits all hLink
  have fits := ok.mp (Runs.eq_ok_of_toOption placed)
  obtain ⟨address, lookups⟩ := after fits
  rw [full] at address
  have found := Runs.eq_ok_of_toOption found
  rw [← isEnd] at found
  obtain ⟨ok', -, -⟩ := place_ok_iff_fits all hLink'
  refine ⟨all, ⟨image, hLink, fits, address, ((lookups _ rfl "_end").1).mpr ⟨found, full⟩⟩, image',
    hLink', fun fits' => ?_⟩
  rw [ok'.mpr fits'] at same'
  cases same'

end Image

/-! ### Sums that are too long -/

namespace Expr

/-- The sum of `n` equal literals, and of as many with a minus sign.  It is zero. -/
def cancelling (n : Nat) : Expr :=
  ⟨List.replicate n ⟨some .plus, .literal 0xFFFF⟩ ++
    List.replicate n ⟨some .minus, .literal 0xFFFF⟩, false⟩

theorem parse_cancelling {n : Nat} (some : 0 < n) :
    parse (cancelling n).render.toList = .ok (cancelling n) := by
  have literal : ∀ t ∈ (cancelling n).terms, t.sign.isSome ∧ t.atom = .literal 0xFFFF := by
    intro t member
    rcases List.mem_append.mp member with member | member
    · rw [List.eq_of_mem_replicate member]
      exact ⟨rfl, rfl⟩
    · rw [List.eq_of_mem_replicate member]
      exact ⟨rfl, rfl⟩
  have bases : (cancelling n).terms.filter (fun t => t.atom.isBase) = [] := by
    rw [List.filter_eq_nil_iff]
    intro t member
    simp [(literal t member).2, Atom.isBase]
  refine parse_render ⟨?_, fun t member => ?_, by simp [bases], fun t member => ?_⟩
  · simp [cancelling, Nat.ne_of_gt some]
  · exact (literal t (List.mem_of_mem_tail member)).1
  · rw [(literal t member).2]
    exact Atom.spells_spelling trivial

theorem literalSum_replicate (n : Nat) (t : Term) (indirect : Bool) :
    literalSum ⟨List.replicate n t, indirect⟩ = n * t.literalValue := by
  induction n with
  | zero => exact (Int.zero_mul _).symm
  | succ n ih =>
    rw [literalSum] at ih ⊢
    rw [List.replicate_succ, List.foldr_cons, ih, Int.natCast_succ, Int.add_mul, Int.one_mul,
      Int.add_comm]

theorem sumFits_cancelling {n : Nat} (many : sumMax < n * 0xFFFF) :
    (cancelling n).sumFits = false := by
  rw [sumFits_eq_false]
  intro inRange
  have half : (cancelling n).sumUpTo n = n * 0xFFFF := by
    rw [sumUpTo, cancelling, List.take_left' (List.length_replicate ..), literalSum_replicate]
    rfl
  have within := (inRange n).2
  omega

end Expr

namespace Image

/-- A jump has room at the start of memory.  It cannot be placed if the sum of its literals leaves
the 32 bits on the way. -/
theorem place_of_entry {entry : Expr} (read : Expr.parse entry.render.toList = .ok entry)
    (overflow : entry.sumFits = false) :
    ∃ image r, link Session.empty.program [] { entry := some entry.render } = .ok image ∧
      image.records = [r] ∧ image.baseAddress.toNat + r.size ≤ addressSpace ∧
      image.place.1 = .error (.fault .overflow) := by
  let o : Operation := ⟨.basic .set, [⟨[⟨none, .special .pc⟩], false⟩, entry]⟩
  let r : Record :=
    { file := linkerFile, line := 0, text := "set pc, " ++ entry.render, scope := none,
      content := .operation o }
  have jump : entryJump entry.render = .ok r := by
    unfold entryJump
    rw [read]
  obtain ⟨image, hLink, records, base⟩ : ∃ image,
      link (Session.empty.after []).program [] { entry := some entry.render } = .ok image ∧
        image.records = [r] ∧ image.baseAddress = 0 := by
    unfold link
    simp only [jump]
    exact ⟨_, rfl, rfl, rfl⟩
  have complete : image.Complete :=
    complete_of_link (.refl (Session.empty.objects [])) hLink
  have sums : o.sumsFit = false := by
    simp [o, Operation.sumsFit, Operation.placed, Operation.slots, overflow]
  have misfit : r.Misfit (image.baseAddress.toNat + Record.extent []) (.fault .overflow) := by
    rw [base]
    exact .sums (by decide) rfl sums
  refine ⟨image, r, hLink, records, ?_, ?_⟩
  · rw [base]
    have operands : (o.placed.filter fun p => p.2.needsWord p.1).length ≤ 2 :=
      List.length_filter_le _ _
    show 0 + (1 + _) ≤ 0x10000
    omega
  · rw [complete.place_of_misfit records (Record.rowFits_nil _) misfit]

/-- The jump to the sum of 65538 literals, which is zero, cannot be placed. -/
theorem place_overflowing_entry :
    ∃ image r, link Session.empty.program [] { entry := some (Expr.cancelling 32769).render } =
        .ok image ∧
      image.records = [r] ∧ image.baseAddress.toNat + r.size ≤ addressSpace ∧
      image.place.1 = .error (.fault .overflow) :=
  place_of_entry (Expr.parse_cancelling (by decide)) (Expr.sumFits_cancelling (by decide))

end Image

end Dcpu16
