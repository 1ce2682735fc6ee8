import Dcpu16.Proofs.Layout

/-! Decoding an image.  If nothing was reported, the words at the address of an operation are
decoded as the operation with its operands evaluated, whatever comes after them. -/

namespace Dcpu16

namespace Record

variable {program : Program} {keepGoing : Bool} {log : Log} {r : Record} {rs : List Record}

/-- Is the record an operation? -/
def isOperation (r : Record) : Bool :=
  match r.content with
  | .operation _ => true
  | .data _ | .mark => false

/-- Is the record data? -/
def isData (r : Record) : Bool :=
  match r.content with
  | .data _ => true
  | .operation _ | .mark => false

theorem size_eq_zero (noOperation : r.isOperation = false) (noData : r.isData = false) :
    r.size = 0 := by
  unfold isOperation at noOperation
  unfold isData at noData
  rw [size]
  cases content : r.content with
  | mark => rfl
  | operation o => simp [content] at noOperation
  | data words => simp [content] at noData

/-- The record is an operation, and `i` is that operation with its operands evaluated. -/
def Evaluates (program : Program) (r : Record) (i : Instruction) : Prop :=
  ∃ o, r.content = .operation o ∧ o.Evaluates (r.scopeIn program) i

theorem evaluates_of_words {words : List Word} (present : r.words = some words)
    (made : r.content.words (r.scopeIn program) = .ok words) (complete : r.content.Complete)
    (isOperation : r.isOperation) : ∃ i, r.Evaluates program i ∧ r.wordList = i.encode := by
  unfold Record.isOperation at isOperation
  cases content : r.content with
  | operation o =>
    rw [content] at made complete
    obtain ⟨i, assembled, rfl⟩ := Content.words_operation.mp made
    refine ⟨i, ⟨o, content, Operation.evaluates_of_assemble complete assembled⟩, ?_⟩
    rw [wordList, present]
    rfl
  | data words => simp [content] at isOperation
  | mark => simp [content] at isOperation

theorem FilledAs.evaluates (h : r.FilledAs program keepGoing log r) (quiet : log.hasError = false)
    (complete : r.content.Complete) (isOperation : r.isOperation) :
    ∃ i, r.Evaluates program i ∧ r.wordList = i.encode := by
  obtain ⟨words, present, made⟩ := h.words_eq quiet
  exact evaluates_of_words present made complete isOperation

/-- Without data, the words of records are those of the operations among them. -/
theorem flatMap_wordList_eq
    (made : ∀ r ∈ rs, r.isOperation → ∃ i, r.Evaluates program i ∧ r.wordList = i.encode)
    (others : ∀ r ∈ rs, r.isOperation = false → r.wordList = []) :
    ∃ is, List.Forall₂ (Evaluates program) (rs.filter isOperation) is ∧
      rs.flatMap wordList = is.flatMap Instruction.encode := by
  induction rs with
  | nil => exact ⟨[], .nil, rfl⟩
  | cons r rs ih =>
    obtain ⟨is, evaluated, words⟩ := ih (fun r' member => made r' (List.mem_cons_of_mem _ member))
      (fun r' member => others r' (List.mem_cons_of_mem _ member))
    rw [List.flatMap_cons, words]
    cases here : r.isOperation with
    | true =>
      obtain ⟨i, evaluates, wordList⟩ := made r (by simp) here
      refine ⟨i :: is, ?_, by rw [wordList, List.flatMap_cons]⟩
      rw [List.filter_cons_of_pos here]
      exact .cons evaluates evaluated
    | false =>
      refine ⟨is, ?_, by rw [others r (by simp) here, List.nil_append]⟩
      rw [List.filter_cons_of_neg (by simp [here])]
      exact evaluated

end Record

namespace Image

variable {sources : List (String × String)} {options : Options} {s : Session} {image : Image}

namespace Finished

variable (h : Finished sources options s image)
  (quiet : (assemble sources options).log.hasError = false) {r : Record}

include h quiet

theorem evaluates (member : r ∈ image.allRecords) (isOperation : r.isOperation) :
    ∃ i, r.Evaluates image.program i ∧ r.wordList = i.encode := by
  rcases List.mem_append.mp member with inside | closing
  · exact (h.filled r inside).evaluates quiet (h.complete inside) isOperation
  · obtain ⟨word, rfl, -⟩ := h.closing_eq (Option.mem_toList.mp closing)
    cases isOperation

/-- The words at the address of an operation. -/
theorem decode?_drop (member : r ∈ image.allRecords) (isOperation : r.isOperation) :
    ∃ (word : Word) (i : Instruction), r.address = some word ∧ r.Evaluates image.program i ∧
      word.toNat - image.baseAddress.toNat + r.size ≤ image.words.length ∧
      Instruction.decode? (image.words.drop (word.toNat - image.baseAddress.toNat)) =
        some (i, image.words.drop (word.toNat - image.baseAddress.toNat + r.size)) := by
  obtain ⟨i, evaluates, encoded⟩ := h.evaluates quiet member isOperation
  obtain ⟨before, after, split⟩ := List.append_of_mem member
  obtain ⟨word, address, start⟩ := (split ▸ h.row_allRecords).split
  have suffix := h.drop_words split address
  have size := h.length_wordList member
  have rest : image.words.drop (word.toNat - image.baseAddress.toNat + r.size) =
      after.flatMap Record.wordList := by
    rw [← List.drop_drop, suffix, ← size, List.drop_left]
  refine ⟨word, i, address, evaluates, ?_, ?_⟩
  · have length := h.length_words
    rw [split, Record.extent_append, Record.extent_cons] at length
    omega
  · obtain ⟨o, -, evaluated⟩ := evaluates
    rw [suffix, rest, encoded]
    exact Instruction.decode?_encode_append evaluated.wellFormed _

end Finished

/-- The words of an operation, in an image that nothing was reported about, are decoded as the
operation with its operands evaluated.  If there is no data, all words are decoded so, one operation
after the other. -/
theorem decode_of_assemble (h : (assemble sources options).result = .ok image)
    (quiet : (assemble sources options).log.hasError = false) :
    (∀ r ∈ image.allRecords, r.isOperation → ∃ (word : Word) (i : Instruction),
      r.address = some word ∧ r.Evaluates image.program i ∧
      word.toNat - image.baseAddress.toNat + r.size ≤ image.words.length ∧
      Instruction.decode? (image.words.drop (word.toNat - image.baseAddress.toNat)) =
        some (i, image.words.drop (word.toNat - image.baseAddress.toNat + r.size))) ∧
    ((∀ r ∈ image.allRecords, r.isData = false) → ∃ is,
      Instruction.decodeAll image.words = (is, []) ∧
      List.Forall₂ (Record.Evaluates image.program) (image.allRecords.filter Record.isOperation)
        is) := by
  obtain ⟨s, -, finished⟩ := finished_of_assemble h
  refine ⟨fun r member => finished.decode?_drop quiet member, fun noData => ?_⟩
  have others : ∀ r ∈ image.allRecords, r.isOperation = false → r.wordList = [] := by
    intro r member other
    rw [← List.length_eq_zero_iff, finished.length_wordList member]
    exact Record.size_eq_zero other (noData r member)
  obtain ⟨is, evaluated, words⟩ :=
    Record.flatMap_wordList_eq (fun r member => finished.evaluates quiet member) others
  refine ⟨is, ?_, evaluated⟩
  rw [Image.words, words]
  -- Evaluated operands fit their slots, so what was encoded can be decoded.
  refine Instruction.decodeAll_encode fun i member => ?_
  obtain ⟨r, -, o, -, evaluates⟩ := Runs.exists_left_of_forall₂ evaluated member
  exact evaluates.wellFormed

/-- Extra words in both slots, an instruction without a destination, and a short literal. -/
theorem decode_two_files :
    let sources := [("a.s", ":main set [a + 4], main\n jsr work"), ("b.s", ":work sub b, 30")]
    ∃ image is, (assemble sources {}).result = .ok image ∧
      (assemble sources {}).log.hasError = false ∧
      image.words = [0x7e01, 0, 4, 0x7c20, 5, 0xfc23] ∧
      Instruction.decodeAll image.words = (is, []) ∧
      List.Forall₂ (Record.Evaluates image.program) (image.allRecords.filter Record.isOperation)
        is := by
  intro sources
  have evaluated : (assemble sources {}).log.hasError = false ∧
      (assemble sources {}).result.toOption.map
        (fun image => (image.words, image.allRecords.all fun r => !r.isData)) =
        some ([0x7e01, 0, 4, 0x7c20, 5, 0xfc23], true) := by
    decide +kernel
  obtain ⟨quiet, made⟩ := evaluated
  obtain ⟨image, present, same⟩ := Option.map_eq_some_iff.mp made
  obtain ⟨words, noData⟩ := Prod.mk.inj same
  have ok := Runs.eq_ok_of_toOption present
  obtain ⟨is, decoded, evaluates⟩ :=
    (decode_of_assemble ok quiet).2 (by simpa using noData)
  exact ⟨image, is, ok, quiet, words, decoded, evaluates⟩

end Image

end Dcpu16
