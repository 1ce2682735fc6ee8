import Dcpu16.Proofs.Linking

/-! The layout of an image.  Its records stand in a row from the base address on, each with as many
words as it takes room, and every symbol has the address of the record that binds it. -/

namespace Dcpu16

namespace Record

variable {before after rs : List Record} {r : Record}

theorem length_flatMap_wordList (h : ∀ r ∈ rs, r.wordList.length = r.size) :
    (rs.flatMap wordList).length = extent rs := by
  induction rs with
  | nil => rfl
  | cons r rs ih =>
    rw [List.flatMap_cons, List.length_append, extent_cons, h r (by simp),
      ih fun r' member => h r' (List.mem_cons_of_mem _ member)]

/-- Behind the room of the records before it come the words of a record. -/
theorem drop_flatMap_wordList (h : ∀ r ∈ before, r.wordList.length = r.size) :
    ((before ++ r :: after).flatMap wordList).drop (extent before) =
      r.wordList ++ after.flatMap wordList := by
  rw [List.flatMap_append, List.flatMap_cons, ← length_flatMap_wordList h, List.drop_left]

end Record

theorem Word.bytes_flatMap (ws : List Word) {i : Nat} {w : Word} (h : ws[i]? = some w) :
    (ws.flatMap bytes)[2 * i]? = some (UInt8.ofNat (w.toNat / 256)) ∧
      (ws.flatMap bytes)[2 * i + 1]? = some (UInt8.ofNat (w.toNat % 256)) := by
  induction ws generalizing i with
  | nil => simp at h
  | cons w' ws ih =>
    cases i with
    | zero =>
      obtain rfl : w' = w := by simpa using h
      exact ⟨rfl, rfl⟩
    | succ i => exact ih (by simpa using h)

theorem Word.length_flatMap_bytes (ws : List Word) :
    (ws.flatMap bytes).length = 2 * ws.length := by
  induction ws with
  | nil => rfl
  | cons w ws ih =>
    rw [List.flatMap_cons, List.length_append, ih, List.length_cons]
    show 2 + _ = _
    omega

namespace Image.Finished

variable {sources : List (String × String)} {options : Options} {s : Session} {image : Image}
  {r : Record}

theorem bare_eq_of_unplaced (h : Finished sources options s image) {first : List Record}
    (hFirst : leading options = .ok first)
    (member : r ∈ first ++ image.objects.flatMap ObjectFile.records) : r.bare = r := by
  rcases mem_unplaced hFirst member with ⟨entry, -, jump⟩ | ⟨o, inside, listed⟩
  · obtain ⟨target, -, rfl⟩ := entryJump_eq_ok jump
    rfl
  · obtain ⟨p, q, made, -⟩ := h.made_of_mem inside
    have record := made.records r listed
    rw [Record.bare, ← record.address, ← record.words]

theorem map_bare (h : Finished sources options s image) :
    ∃ first, leading options = .ok first ∧
      image.records.map Record.bare = first ++ image.objects.flatMap ObjectFile.records := by
  obtain ⟨first, hFirst, same⟩ := h.records
  refine ⟨first, hFirst, same.trans ?_⟩
  exact (List.map_congr_left fun r => h.bare_eq_of_unplaced hFirst).trans (List.map_id _)

theorem complete (h : Finished sources options s image) (member : r ∈ image.records) :
    r.content.Complete := by
  obtain ⟨first, hFirst, same⟩ := h.map_bare
  have listed : r.bare ∈ first ++ image.objects.flatMap ObjectFile.records :=
    same ▸ List.mem_map_of_mem member
  show r.bare.content.Complete
  rcases mem_unplaced hFirst listed with ⟨entry, -, jump⟩ | ⟨o, inside, listed⟩
  · obtain ⟨target, -, bare⟩ := entryJump_eq_ok jump
    rw [bare]
    exact rfl
  · obtain ⟨p, q, made, -⟩ := h.made_of_mem inside
    rcases (made.records _ listed).content with
      mark | ⟨before, line, after, split, -, -, -, content⟩
    · rw [mark]
      trivial
    · exact content.complete (made.read.statement line (by rw [split]; simp))

/-- If memory ends behind the last record, no record refers to the end symbol. -/
theorem not_touched (h : Finished sources options s image) (full : image.endAddress = none)
    (member : r ∈ image.records) :
    image.endSymbol ∉ r.content.touched (r.scopeIn image.program) := by
  obtain ⟨sym, found, -, isDefined, address⟩ := h.endMark
  obtain ⟨place, hPlace⟩ := Option.isSome_iff_exists.mp isDefined
  refine (h.filled r member).not_touched (e := .addressOverflow 0x10000) (fun name => ?_) rfl
  rw [Scope.addressOf_of_get? found, address, full, hPlace]

/-- The closing record stands behind the last one and takes no room. -/
theorem closing_eq (h : Finished sources options s image) (present : image.closing = some r) :
    ∃ word : Word, r = { endRecord image.endSymbol with address := some word, words := some [] } ∧
      word.toNat = image.baseAddress.toNat + Record.extent image.records := by
  obtain ⟨rfl, r', member, touched⟩ := h.closing r present
  rcases h.endAddress with ⟨word, address, behind⟩ | ⟨full, -⟩
  · exact ⟨word, h.sentinel.trans (by rw [address]), behind⟩
  · exact absurd touched (h.not_touched full member)

theorem end_le (h : Finished sources options s image) :
    image.baseAddress.toNat + Record.extent image.records ≤ addressSpace := by
  rcases h.endAddress with ⟨word, -, behind⟩ | ⟨-, full⟩
  · rw [← behind]
    exact Nat.le_of_lt word.toNat_lt
  · exact Nat.le_of_eq full

theorem extent_allRecords (h : Finished sources options s image) :
    Record.extent image.allRecords = Record.extent image.records := by
  unfold allRecords
  rw [Record.extent_append]
  cases closing : image.closing with
  | none => rfl
  | some r =>
    obtain ⟨word, rfl, -⟩ := h.closing_eq closing
    rfl

theorem row_allRecords (h : Finished sources options s image) :
    Record.InRow image.baseAddress.toNat image.allRecords := by
  refine h.row.append ?_
  cases closing : image.closing with
  | none => exact .nil _
  | some r =>
    obtain ⟨word, rfl, behind⟩ := h.closing_eq closing
    exact .cons rfl behind h.end_le (.nil _)

theorem exists_words (h : Finished sources options s image) (member : r ∈ image.allRecords) :
    ∃ words, r.words = some words ∧ words.length = r.size := by
  rcases List.mem_append.mp member with inside | closing
  · exact (h.filled r inside).length_words
  · obtain ⟨word, rfl, -⟩ := h.closing_eq (Option.mem_toList.mp closing)
    exact ⟨[], rfl, rfl⟩

theorem length_wordList (h : Finished sources options s image) (member : r ∈ image.allRecords) :
    r.wordList.length = r.size := by
  obtain ⟨words, present, length⟩ := h.exists_words member
  rw [Record.wordList, present]
  exact length

theorem length_words (h : Finished sources options s image) :
    image.words.length = Record.extent image.allRecords :=
  Record.length_flatMap_wordList fun _ member => h.length_wordList member

/-- What stands in the image from the address of a record on. -/
theorem drop_words (h : Finished sources options s image) {before after : List Record}
    (split : image.allRecords = before ++ r :: after) {word : Word}
    (address : r.address = some word) :
    image.words.drop (word.toNat - image.baseAddress.toNat) =
      r.wordList ++ after.flatMap Record.wordList := by
  obtain ⟨word', address', start⟩ := (split ▸ h.row_allRecords).split
  obtain rfl : word = word' := Option.some.inj (address.symm.trans address')
  rw [start, Nat.add_sub_cancel_left, words, split]
  exact Record.drop_flatMap_wordList fun r' member =>
    h.length_wordList (by rw [split]; exact List.mem_append_left _ member)

/-- No two records bind a symbol. -/
theorem bound_allRecords (h : Finished sources options s image) :
    (image.allRecords.flatMap Record.defined).Nodup := by
  obtain ⟨first, hFirst, same⟩ := h.records
  obtain ⟨distinct, below⟩ := bound_records hFirst h.files
  rw [← Record.flatMap_defined_of_bare same] at distinct below
  rw [allRecords, List.flatMap_append]
  refine List.nodup_append.mpr ⟨distinct, ?_, fun x inside y last same => ?_⟩
  · cases closing : image.closing with
    | none => simp
    | some r =>
      obtain ⟨word, rfl, -⟩ := h.closing_eq closing
      simp [endRecord]
  · obtain ⟨r, closing, bound⟩ := List.mem_flatMap.mp last
    obtain ⟨word, rfl, -⟩ := h.closing_eq (Option.mem_toList.mp closing)
    obtain rfl := List.mem_singleton.mp bound
    have := below x inside
    rw [same, h.endSymbol] at this
    exact Nat.lt_irrefl _ this

/-- A symbol in the table of a file is bound by one record, and has its address. -/
theorem record_of_symbol (h : Finished sources options s image) {o : ObjectFile}
    (inside : o ∈ image.objects) {e : String × SymbolId} (entry : e ∈ o.table.entries) :
    ∃ before r after, image.allRecords = before ++ r :: after ∧ e.2 ∈ r.defined ∧
      (∀ r' ∈ before ++ after, e.2 ∉ r'.defined) ∧
      ∃ sym, image.program.symbols.get? e.2 = some sym ∧ sym.address = r.address := by
  obtain ⟨p, q, made, -⟩ := h.made_of_mem inside
  have named := NameTable.find?_of_mem made.distinct entry
  obtain ⟨new, -⟩ := (made.key _ _).mp named
  obtain ⟨sym, hSym⟩ := SymbolStore.exists_get?_of_mangled? (made.mangled _ _ named)
  obtain ⟨r', listed, bound'⟩ := List.mem_flatMap.mp
    ((made.mem_bound e.2).mpr ⟨new, SymbolStore.lt_size_of_get? hSym⟩)
  obtain ⟨first, -, same⟩ := h.records
  have bound : e.2 ∈ image.records.flatMap Record.defined := by
    rw [Record.flatMap_defined_of_bare same]
    exact List.mem_flatMap.mpr
      ⟨r', List.mem_append_right _ (List.mem_flatMap.mpr ⟨o, inside, listed⟩), bound'⟩
  obtain ⟨r, member, bound⟩ := List.mem_flatMap.mp bound
  have listed : r ∈ image.allRecords := List.mem_append_left _ member
  obtain ⟨before, after, split⟩ := List.append_of_mem listed
  refine ⟨before, r, after, split, bound, fun other member' bound' => ?_, h.bound r member _ bound⟩
  have distinct := h.bound_allRecords
  rw [split, List.flatMap_append, List.flatMap_cons] at distinct
  obtain ⟨-, rest, front⟩ := List.nodup_append.mp distinct
  rcases List.mem_append.mp member' with earlier | later
  · exact front _ (List.mem_flatMap.mpr ⟨other, earlier, bound'⟩) _
      (List.mem_append_left _ bound) rfl
  · exact (List.nodup_append.mp rest).2.2 _ bound _
      (List.mem_flatMap.mpr ⟨other, later, bound'⟩) rfl

/-- The address of the end symbol, if it is in memory. -/
theorem lookup_end (h : Finished sources options s image) {name : String}
    (found : (r.scopeIn image.program).find name = .ok image.endSymbol) :
    (∃ word : Word, (r.scopeIn image.program).lookup name = .ok word ∧
      word.toNat = image.baseAddress.toNat + Record.extent image.records) ∨
    image.endAddress = none ∧
      (r.scopeIn image.program).lookup name = .error (.error (.addressOverflow 0x10000)) := by
  obtain ⟨sym, hSym, -, isDefined, address⟩ := h.endMark
  obtain ⟨place, hPlace⟩ := Option.isSome_iff_exists.mp isDefined
  rw [Scope.lookup_of_find found, Scope.addressOf_of_get? hSym, address, hPlace]
  rcases h.endAddress with ⟨word, inside, behind⟩ | ⟨full, -⟩
  · exact .inl ⟨word, by rw [inside], behind⟩
  · exact .inr ⟨full, by rw [full]⟩

end Image.Finished

/-- An image in memory.  `image.allRecords` are the jump to the entry, the records of the files in
their order, and the closing record. -/
structure Image.LaidOut (sources : List (String × String)) (options : Options) (image : Image) :
    Prop where
  base : image.baseAddress = options.baseAddress
  objects : ∃ s, assembleFiles sources options .empty = .ok image.objects s
  files : image.objects.map ObjectFile.file = sources.map Prod.fst
  order : ∃ first, leading options = .ok first ∧
    image.records.map Record.bare = first ++ image.objects.flatMap ObjectFile.records
  closing : ∀ r, image.closing = some r → r.bare = endRecord image.endSymbol
  /-- A record stands behind the room of those before it. -/
  address : ∀ before r after, image.allRecords = before ++ r :: after → ∃ word : Word,
    r.address = some word ∧ word.toNat = image.baseAddress.toNat + Record.extent before
  size : ∀ r ∈ image.allRecords, ∃ words, r.words = some words ∧ words.length = r.size
  length : image.words.length = Record.extent image.allRecords
  end_le : image.baseAddress.toNat + Record.extent image.allRecords ≤ addressSpace
  /-- The words of a record are where its address says. -/
  slice : ∀ r ∈ image.allRecords, ∀ word, r.address = some word →
    (image.words.drop (word.toNat - image.baseAddress.toNat)).take r.size = r.wordList
  /-- A symbol has the address of the one record that binds it. -/
  symbol : ∀ o ∈ image.objects, ∀ e ∈ o.table.entries, ∃ before r after,
    image.allRecords = before ++ r :: after ∧ e.2 ∈ r.defined ∧
      (∀ r' ∈ before ++ after, e.2 ∉ r'.defined) ∧
      ∃ sym, image.program.symbols.get? e.2 = some sym ∧ sym.address = r.address
  endSymbol : image.program.table.find? endName = some image.endSymbol
  /-- A name in an operand that stands for the end symbol has the address behind the last word, if
  the instruction could be made or at least this name was looked up. -/
  endReference : ∀ r ∈ image.records, ∀ o, r.content = .operation o → ∀ e ∈ o.operands,
    ∀ name ∈ e.references, (r.scopeIn image.program).find name = .ok image.endSymbol →
      (∃ i, o.assemble (r.scopeIn image.program) = .ok i) ∨
        image.endSymbol ∈ r.content.touched (r.scopeIn image.program) →
      ∃ word : Word, (r.scopeIn image.program).lookup name = .ok word ∧
        word.toNat = image.baseAddress.toNat + Record.extent image.allRecords
  bytes : 0 < Record.extent image.allRecords → ∃ bytes, image.bytes = .ok bytes ∧
    bytes.length = 2 * Record.extent image.allRecords ∧ ∀ (i : Nat) (word : Word),
      image.words[i]? = some word →
        bytes[2 * i]? = some (UInt8.ofNat (word.toNat / 256)) ∧
        bytes[2 * i + 1]? = some (UInt8.ofNat (word.toNat % 256))

theorem Image.laidOut_of_assemble {sources : List (String × String)} {options : Options}
    {image : Image} (h : (assemble sources options).result = .ok image) :
    image.LaidOut sources options := by
  obtain ⟨s, hFiles, finished⟩ := finished_of_assemble h
  have length := finished.length_words
  refine ⟨finished.base, ⟨s, hFiles⟩, finished.files.files, finished.map_bare,
    fun r present => ?_, fun before r after split => (split ▸ finished.row_allRecords).split,
    fun r member => finished.exists_words member, length, ?_, fun r member word address => ?_,
    fun o inside e entry => finished.record_of_symbol inside entry, ?_, ?_, fun some => ?_⟩
  · -- closing
    obtain ⟨word, rfl, -⟩ := finished.closing_eq present
    rfl
  · rw [finished.extent_allRecords]
    exact finished.end_le
  · -- slice
    obtain ⟨before, after, split⟩ := List.append_of_mem member
    rw [finished.drop_words split address, ← finished.length_wordList member, List.take_left]
  · -- endSymbol
    simp [finished.table]
  · -- endReference
    intro r member o content e operand name refers found reached
    rw [finished.extent_allRecords]
    rcases finished.lookup_end found with known | ⟨full, failed⟩
    · exact known
    · rcases reached with ⟨i, made⟩ | touched
      · have complete := finished.complete member
        rw [content] at complete
        obtain ⟨word, known⟩ :=
          (Operation.evaluates_of_assemble complete made).lookup operand refers
        rw [failed] at known
        cases known
      · exact absurd touched (finished.not_touched full member)
  · -- bytes
    have nonempty : image.words ≠ [] := List.ne_nil_of_length_pos (length ▸ some)
    refine ⟨image.words.flatMap Word.bytes, ?_, ?_, fun i word => Word.bytes_flatMap image.words⟩
    · simp [Image.bytes, nonempty]
    · rw [Word.length_flatMap_bytes, length]

/-- A jump to the entry, an instruction that refers to the end, a call of a later file, and data. -/
theorem Image.laidOut_two_files :
    let sources := [("a.s", ":main set a, _end\n jsr work"), ("b.s", ":work .short 1, 2")]
    let options : Options := { baseAddress := 0x10, entry := some "main" }
    ∃ image, (assemble sources options).result = .ok image ∧
      image.words = [0x7f81, 0x12, 0x7c01, 0x18, 0x7c20, 0x16, 1, 2] ∧
      image.LaidOut sources options := by
  intro sources options
  have evaluated : (assemble sources options).result.toOption.map Image.words =
      some [0x7f81, 0x12, 0x7c01, 0x18, 0x7c20, 0x16, 1, 2] := by
    decide +kernel
  obtain ⟨image, present, words⟩ := Option.map_eq_some_iff.mp evaluated
  have made := Runs.eq_ok_of_toOption present
  exact ⟨image, made, words, laidOut_of_assemble made⟩

end Dcpu16
