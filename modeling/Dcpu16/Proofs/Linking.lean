import Dcpu16.Proofs.Filling
import Dcpu16.Proofs.Objects

/-! The steps from assembled files to an image: linking, placing and filling. -/

namespace Dcpu16

namespace Image

variable {p q : Program} {objects : List ObjectFile} {options : Options} {image placed : Image}

/-- The records in front of those of the files. -/
def leading (options : Options) : Except LocatedError (List Record) :=
  match options.entry with
  | some entry => (entryJump entry).map fun r => [r]
  | none => .ok []

theorem leading_eq_ok {first : List Record} (h : leading options = .ok first) :
    first = [] ∨ ∃ entry r, options.entry = some entry ∧ entryJump entry = .ok r ∧ first = [r] := by
  unfold leading at h
  cases entry : options.entry with
  | none =>
    rw [entry] at h
    exact .inl (Except.ok.inj h).symm
  | some name =>
    rw [entry] at h
    cases jump : entryJump name with
    | error e => simp [jump, Except.map] at h
    | ok r =>
      simp only [jump, Except.map, Except.ok.injEq] at h
      exact .inr ⟨name, r, rfl, jump, h.symm⟩

theorem entryJump_eq_ok {entry : String} {r : Record} (h : entryJump entry = .ok r) :
    ∃ target, Expr.parse entry.toList = .ok target ∧ r =
      { file := linkerFile, line := 0, text := "set pc, " ++ entry, scope := none,
        content := .operation ⟨.basic .set, [⟨[⟨none, .special .pc⟩], false⟩, target]⟩ } := by
  unfold entryJump at h
  cases parsed : Expr.parse entry.toList with
  | error e => simp [parsed] at h
  | ok target =>
    simp only [parsed, Except.ok.injEq] at h
    exact ⟨target, rfl, h.symm⟩

/-- The jump to the entry binds no symbol. -/
theorem defined_leading {first : List Record} (hFirst : leading options = .ok first) :
    first.flatMap Record.defined = [] := by
  rcases leading_eq_ok hFirst with rfl | ⟨entry, r, -, jump, rfl⟩
  · rfl
  · obtain ⟨target, -, rfl⟩ := entryJump_eq_ok jump
    rfl

/-- A record that has not been placed is the jump to the entry, or a record of a file. -/
theorem mem_unplaced {first : List Record} {r : Record} (hFirst : leading options = .ok first)
    (member : r ∈ first ++ objects.flatMap ObjectFile.records) :
    (∃ entry, options.entry = some entry ∧ entryJump entry = .ok r) ∨
      ∃ o ∈ objects, r ∈ o.records := by
  rcases List.mem_append.mp member with front | inFile
  · rcases leading_eq_ok hFirst with rfl | ⟨entry, jump, named, made, rfl⟩
    · cases front
    · exact .inl ⟨entry, named, List.mem_singleton.mp front ▸ made⟩
  · exact .inr (List.mem_flatMap.mp inFile)

/-- The symbol behind the last word, before it has an address. -/
def endMark : Symbol :=
  { name := endName, place := ⟨linkerFile, 0⟩, parent := none, visibility := .global,
    definition := some ⟨linkerFile, 0⟩ }

/-- The record behind the last one, before it has an address. -/
def endRecord (id : SymbolId) : Record :=
  { file := linkerFile, line := 0, text := endName, scope := none, content := .mark,
    defined := [id] }

theorem addEnd_eq_some {id : Nat} (h : addEnd p = some (id, q)) :
    id = p.symbols.size ∧ q.table = p.table.insert endName id ∧
      ∀ x : Nat, q.symbols.get? x =
        if x = p.symbols.size then some endMark else p.symbols.get? x := by
  simp only [addEnd, Option.bind_eq_bind, Option.bind_eq_some_iff, Option.pure_def,
    Option.some.injEq, Prod.exists] at h
  obtain ⟨_, added, hAdd, _, _, hDefine, last⟩ := h
  obtain ⟨rfl, -⟩ := SymbolStore.size_add hAdd
  obtain ⟨rfl, rfl⟩ := Prod.mk.inj last
  refine ⟨rfl, rfl, fun x => ?_⟩
  have new := SymbolStore.get?_add hAdd
  rcases SymbolStore.define?_eq_some.mp hDefine with ⟨-, -, sym, found, isDefined⟩ | ⟨-, rfl, -⟩
  · rw [new, if_pos rfl] at found
    cases found
    cases isDefined
  · rw [SymbolStore.get?_modify, new]
    by_cases last : x = p.symbols.size
    · simp [last, endMark]
    · simp [last]

theorem link_eq_ok (h : link p objects options = .ok image) :
    p.table.find? endName = none ∧ ∃ id q first, addEnd p = some (id, q) ∧
      leading options = .ok first ∧ image =
        { program := q
          objects := objects
          records := first ++ objects.flatMap ObjectFile.records
          sentinel := endRecord id
          closing := none
          endSymbol := id
          baseAddress := options.baseAddress
          keepGoing := options.keepGoing } := by
  unfold link at h
  cases free : p.table.find? endName with
  | some id =>
    rw [free] at h
    cases found : p.symbols.get? id <;> simp [found, orFault, bind, Except.bind] at h
  | none =>
    rw [free] at h
    cases hEnd : addEnd p with
    | none => simp [hEnd, orFault, bind, Except.bind] at h
    | some result =>
      obtain ⟨id, q⟩ := result
      unfold leading
      cases entry : options.entry with
      | none =>
        simp only [hEnd, entry] at h
        exact ⟨rfl, id, q, [], rfl, rfl, (Except.ok.inj h).symm⟩
      | some name =>
        cases jump : entryJump name with
        | error e =>
          simp only [hEnd, entry, jump] at h
          cases h
        | ok r =>
          simp only [hEnd, entry, jump] at h
          exact ⟨rfl, id, q, [r], rfl, congrArg (Except.map _) jump, (Except.ok.inj h).symm⟩

/-- Placing the end of an image whose records have been placed: the sentinel comes behind the last
record, or memory ends there. -/
inductive EndPlaced (image : Image) (symbols : SymbolStore) : Record → SymbolStore → Prop
  | inside {sentinel : Record} {last : SymbolStore}
      (fits : image.baseAddress.toNat + Record.extent image.records < addressSpace)
      (h : Record.Placed symbols (image.baseAddress.toNat + Record.extent image.records)
        [image.sentinel] [sentinel] last) :
      EndPlaced image symbols sentinel last
  | outside (full : image.baseAddress.toNat + Record.extent image.records = addressSpace) :
      EndPlaced image symbols image.sentinel symbols

theorem place_eq_ok (mark : image.sentinel.content = .mark) (h : image.place = (.ok (), placed)) :
    ∃ records mid sentinel symbols,
      Record.Placed image.program.symbols image.baseAddress.toNat image.records records mid ∧
      image.EndPlaced mid sentinel symbols ∧ placed =
        { image with program := ⟨symbols, image.program.table⟩, records, sentinel } := by
  unfold place at h
  dsimp only at h
  cases result :
      (Record.placeAll image.program.symbols image.baseAddress.toNat image.records).result with
  | error e => simp [result] at h
  | ok address =>
    simp only [result] at h
    obtain ⟨row, rfl⟩ := Record.placed_of_placeAll result
    unfold placeSentinel at h
    dsimp only at h
    split at h
    · next full =>
      cases h
      have inside : image.baseAddress.toNat ≤ addressSpace :=
        Nat.le_of_lt image.baseAddress.toNat_lt
      exact ⟨_, _, _, _, row, .outside (Nat.le_antisymm (row.end_le inside) full), rfl⟩
    · next fits =>
      have starts := Nat.lt_of_not_le fits
      cases hPlace : image.sentinel.placeAt?
          (Record.placeAll image.program.symbols image.baseAddress.toNat image.records).symbols
          (image.baseAddress.toNat + Record.extent image.records) with
      | none => simp [hPlace] at h
      | some result =>
        obtain ⟨sentinel, symbols⟩ := result
        simp only [hPlace] at h
        cases h
        obtain ⟨rfl, set⟩ := Record.placeAt?_eq_some hPlace
        have size : image.sentinel.size = 0 := by rw [Record.size, mark]; rfl
        refine ⟨_, _, _, _, row, .inside starts (.cons starts ?_ set (.nil _ _)), rfl⟩
        rw [size]
        exact Nat.le_of_lt starts

namespace EndPlaced

variable {mid last : SymbolStore} {sentinel : Record} {id x : Nat}

theorem unmarked (h : image.EndPlaced mid sentinel last) : last.unmarked = mid.unmarked := by
  cases h with
  | inside _ h => exact h.unmarked
  | outside => rfl

theorem get?_of_ne (h : image.EndPlaced mid sentinel last)
    (mark : image.sentinel = endRecord id) (other : x ≠ id) : last.get? x = mid.get? x := by
  cases h with
  | inside _ h =>
    refine h.get?_of_not_mem ?_
    rw [mark]
    simpa [endRecord] using other
  | outside => rfl

/-- The sentinel and its symbol have the same address, if they have one. -/
theorem address (h : image.EndPlaced mid sentinel last) (mark : image.sentinel = endRecord id)
    (found : mid.get? id = some endMark) :
    sentinel = { endRecord id with address := sentinel.address } ∧
      last.get? id = some { endMark with address := sentinel.address } ∧
      ((∃ word : Word, sentinel.address = some word ∧
        word.toNat = image.baseAddress.toNat + Record.extent image.records) ∨
      sentinel.address = none ∧
        image.baseAddress.toNat + Record.extent image.records = addressSpace) := by
  cases h with
  | inside fits h =>
    rw [mark] at h
    have bound := h.get?_of_mem (r := sentinel) (x := id) (by simp [endRecord]) (by simp)
    cases h with
    | cons starts _ _ rest =>
      refine ⟨rfl, ?_, .inl ⟨_, rfl, UInt16.toNat_ofNat_of_lt' starts⟩⟩
      rw [bound (by simp [endRecord]), found]
      rfl
  | outside full =>
    rw [mark]
    exact ⟨rfl, found, .inr ⟨rfl, full⟩⟩

end EndPlaced

theorem fill_eq_ok {filled : Image} {log : Log} (h : image.fill = (.ok (), log, filled)) :
    ∃ records closing,
      List.Forall₂ (Record.FilledAs image.program image.keepGoing log) image.records records ∧
      closing = (if filled.endIsReferenced then some { image.sentinel with words := some [] }
        else none) ∧
      filled =
        { image with
          program := image.program.markReferenced
            (image.records.flatMap fun r => r.content.touched (r.scopeIn image.program))
          records := records
          sentinel := { image.sentinel with words := some [] }
          closing := closing } := by
  unfold fill at h
  dsimp only at h
  cases result : (Record.fillAll image.program image.keepGoing image.records).result with
  | error e => simp [result] at h
  | ok u =>
    simp only [result] at h
    obtain ⟨filled, touched⟩ := Record.filled_of_fillAll result
    cases h
    refine ⟨_, _, filled, rfl, ?_⟩
    rw [← touched]
    rfl

/-- What refers to the end has been noted. -/
theorem mem_of_endIsReferenced {ids : List SymbolId} {sym : Symbol}
    (program : image.program = p.markReferenced ids)
    (found : p.symbols.get? image.endSymbol = some sym) (new : sym.referenced = false)
    (h : image.endIsReferenced) : image.endSymbol ∈ ids := by
  by_contra other
  have same : image.program.symbols.get? image.endSymbol = some sym := by
    rw [program, ← found]
    exact (SymbolStore.get?_markReferenced ids p.symbols image.endSymbol).trans (if_neg other)
  simp [endIsReferenced, same, new] at h

theorem endIsReferenced_of_mem {ids : List SymbolId} {sym : Symbol}
    (program : image.program = p.markReferenced ids)
    (found : p.symbols.get? image.endSymbol = some sym) (member : image.endSymbol ∈ ids) :
    image.endIsReferenced := by
  have marked : image.program.symbols.get? image.endSymbol =
      some { sym with referenced := true } := by
    rw [program]
    exact (SymbolStore.get?_markReferenced ids p.symbols image.endSymbol).trans
      (by rw [if_pos member, found]; rfl)
  rw [endIsReferenced, marked]
  rfl

end Image

/-- Steps of assembling and linking a program that ended well. -/
theorem assemble_eq_ok {sources : List (String × String)} {options : Options} {image : Image}
    (h : (assemble sources options).result = .ok image) :
    ∃ objects s linked placed log, assembleFiles sources options .empty = .ok objects s ∧
      Image.link s.program objects options = .ok linked ∧ linked.place = (.ok (), placed) ∧
      placed.fill = (.ok (), log, image) ∧ (assemble sources options).log = s.log ++ log := by
  unfold assemble at h ⊢
  cases files : assembleFiles sources options .empty with
  | error e s => simp [files] at h
  | ok objects s =>
    cases hLink : Image.link s.program objects options with
    | error e => simp [files, hLink] at h
    | ok linked =>
      simp only [files, hLink] at h ⊢
      cases hPlace : linked.place with
      | mk result placed =>
        cases result with
        | error e => simp [hPlace] at h
        | ok u =>
          simp only [hPlace] at h ⊢
          cases hFill : placed.fill with
          | mk result rest =>
            obtain ⟨log, filled⟩ := rest
            cases result with
            | error e => simp [hFill, Except.map] at h
            | ok u =>
              simp only [hFill, Except.map, Except.ok.injEq] at h ⊢
              subst h
              exact ⟨objects, s, linked, placed, log, rfl, hLink, hPlace, hFill, rfl⟩

/-- What is known of the image of a program once it has addresses and words.  `s` is the state after
the files have been assembled. -/
structure Image.Finished (sources : List (String × String)) (options : Options) (s : Session)
    (image : Image) : Prop where
  files : Assembled .empty sources image.objects s.program
  unnamed : s.program.table.find? endName = none
  endSymbol : image.endSymbol = s.program.symbols.size
  base : image.baseAddress = options.baseAddress
  keepGoing : image.keepGoing = options.keepGoing
  table : image.program.table = s.program.table.insert endName image.endSymbol
  identity : s.program.symbols.IdentityIn image.program.symbols
  records : ∃ first, leading options = .ok first ∧
    image.records.map Record.bare =
      (first ++ image.objects.flatMap ObjectFile.records).map Record.bare
  row : Record.InRow image.baseAddress.toNat image.records
  filled : ∀ r ∈ image.records,
    r.FilledAs image.program image.keepGoing (assemble sources options).log r
  bound : ∀ r ∈ image.records, ∀ x ∈ r.defined, ∃ sym,
    image.program.symbols.get? x = some sym ∧ sym.address = r.address
  /-- The sentinel has the address behind the last record, and the end symbol has it too. -/
  endMark : ∃ sym, image.program.symbols.get? image.endSymbol = some sym ∧
    sym.identity = endMark.identity ∧ sym.definition.isSome ∧ sym.address = image.endAddress
  sentinel : image.sentinel =
    { endRecord image.endSymbol with address := image.endAddress, words := some [] }
  endAddress : (∃ word : Word, image.endAddress = some word ∧
      word.toNat = image.baseAddress.toNat + Record.extent image.records) ∨
    image.endAddress = none ∧
      image.baseAddress.toNat + Record.extent image.records = addressSpace
  closing : ∀ r, image.closing = some r → r = image.sentinel ∧
    ∃ r ∈ image.records, image.endSymbol ∈ r.content.touched (r.scopeIn image.program)
  closed : ∀ r ∈ image.records, image.endSymbol ∈ r.content.touched (r.scopeIn image.program) →
    image.closing = some image.sentinel

/-- The records of a linked image bind the symbols of all files, each once. -/
theorem Image.bound_records {options : Options} {first : List Record}
    {sources : List (String × String)} {objects : List ObjectFile} {p : Program}
    (hFirst : leading options = .ok first) (files : Assembled .empty sources objects p) :
    ((first ++ objects.flatMap ObjectFile.records).flatMap Record.defined).Nodup ∧
      ∀ x ∈ (first ++ objects.flatMap ObjectFile.records).flatMap Record.defined,
        x < p.symbols.size := by
  rw [List.flatMap_append, defined_leading hFirst, List.nil_append]
  exact ⟨files.bound.1, fun x member => ((files.bound.2 x).mp member).2⟩

theorem Image.finished_of_assemble {sources : List (String × String)} {options : Options}
    {image : Image} (h : (assemble sources options).result = .ok image) :
    ∃ s, assembleFiles sources options .empty = .ok image.objects s ∧
      Finished sources options s image := by
  obtain ⟨objects, s, linked, placed, log, hFiles, hLink, hPlace, hFill, hLog⟩ := assemble_eq_ok h
  have files := assembled_of_assembleFiles hFiles
  obtain ⟨free, id, q, first, hEnd, hFirst, rfl⟩ := link_eq_ok hLink
  obtain ⟨distinct, below⟩ := bound_records hFirst files
  obtain ⟨rfl, hTable, symbols⟩ := addEnd_eq_some hEnd
  obtain ⟨records, mid, sentinel, last, row, ending, rfl⟩ := place_eq_ok rfl hPlace
  obtain ⟨records', closing, filled, hClosing, rfl⟩ := fill_eq_ok hFill
  dsimp only at row filled
  -- No record binds the end symbol, so placing the records has left it alone.
  have endFound : mid.get? s.program.symbols.size = some endMark := by
    rw [row.get?_of_not_mem fun member => Nat.lt_irrefl _ (below _ member), symbols, if_pos rfl]
  obtain ⟨hSentinel, endLast, endAddress⟩ := ending.address rfl endFound
  have unmarked : last.unmarked = q.symbols.unmarked := ending.unmarked.trans row.unmarked
  refine ⟨s, hFiles, files, free, rfl, rfl, rfl, hTable, ?_, ⟨first, hFirst, ?_⟩,
    row.inRow.of_filled filled, fun f member => ?_, fun f member x inside => ?_, ?_, ?_, ?_, ?_,
    fun f member touched => ?_⟩
  · -- identity
    refine SymbolStore.IdentityIn.trans (fun x sym found => ⟨sym, ?_, rfl⟩)
      (SymbolStore.identityIn_of_unmarked
        ((SymbolStore.unmarked_markReferenced _ last).trans unmarked))
    rw [symbols, if_neg (Nat.ne_of_lt (SymbolStore.lt_size_of_get? found)), found]
  · -- records
    exact (Record.map_bare_of_filled filled).trans row.map_bare
  · -- filled
    obtain ⟨r, -, made⟩ := Runs.exists_left_of_forall₂ filled member
    rw [hLog]
    exact (made.self.markReferenced _).mono (List.subset_append_right _ _)
  · -- bound
    obtain ⟨r, member', made⟩ := Runs.exists_left_of_forall₂ filled member
    have inside' : x ∈ r.defined := by cases made <;> exact inside
    have listed := List.mem_flatMap.mpr ⟨r, member', inside'⟩
    rw [Record.flatMap_defined_of_bare row.map_bare] at listed
    have old := below x listed
    obtain ⟨sym, hSym⟩ := SymbolStore.exists_get? old
    have placed := row.get?_of_mem distinct member' inside'
    rw [symbols, if_neg (Nat.ne_of_lt old), hSym,
      ← ending.get?_of_ne rfl (Nat.ne_of_lt old)] at placed
    obtain ⟨later, hLater, remains⟩ := (SymbolStore.RemainIn.refl last).markReferenced _ placed
    exact ⟨later, hLater, by rw [remains.address, made.address_eq]⟩
  · -- end symbol
    obtain ⟨later, hLater, remains⟩ := (SymbolStore.RemainIn.refl last).markReferenced _ endLast
    refine ⟨later, hLater, (Symbol.unmarked_eq_iff.mp remains.unmarked).1, ?_, remains.address⟩
    rw [remains.definition]
    rfl
  · -- sentinel
    exact congrArg (fun r : Record => { r with words := some [] }) hSentinel
  · -- its address
    have extent := Record.extent_of_bare ((Record.map_bare_of_filled filled).trans row.map_bare)
    rw [extent]
    exact endAddress
  · -- closing
    intro r present
    rw [hClosing] at present
    split at present
    · next referenced =>
      refine ⟨(Option.some.inj present).symm, ?_⟩
      have listed := mem_of_endIsReferenced rfl endLast rfl referenced
      obtain ⟨r, member, inside⟩ := List.mem_flatMap.mp listed
      obtain ⟨f, member', made⟩ := Runs.exists_right_of_forall₂ filled member
      refine ⟨f, member', ?_⟩
      rw [made.touched_eq]
      exact inside
    · cases present
  · -- closed
    obtain ⟨r, member', made⟩ := Runs.exists_left_of_forall₂ filled member
    rw [made.touched_eq] at touched
    rw [hClosing, if_pos (endIsReferenced_of_mem rfl endLast (List.mem_flatMap.mpr
      ⟨r, member', touched⟩))]

/-- The file of an image when it was assembled. -/
theorem Image.Finished.made_of_mem {sources : List (String × String)} {options : Options}
    {s : Session} {image : Image} (h : Finished sources options s image) {o : ObjectFile}
    (inside : o ∈ image.objects) :
    ∃ p q, o.Made p q ∧ q.Named ∧ q.table.entries <+: image.program.table.entries ∧
      q.symbols.IdentityIn image.program.symbols := by
  obtain ⟨p, q, made, named, later⟩ := h.files.made_of_mem inside
  refine ⟨p, q, made, named ?_, later.names.trans ?_, later.symbols.identityIn.trans h.identity⟩
  · intro key x found
    cases found
  · rw [h.table, NameTable.insert_new h.unnamed]
    exact List.prefix_append _ _

end Dcpu16
