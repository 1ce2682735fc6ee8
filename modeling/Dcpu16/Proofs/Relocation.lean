import Dcpu16.Proofs.Invariant
import Dcpu16.Proofs.Layout
import Dcpu16.Proofs.Shifting

/-! Relocation.  Two images of the same files at different base addresses have the same records.
All addresses differ by the distance of the bases, and so do the words that come from addresses. -/

namespace Dcpu16

/-! ### Words -/

/-- A row of words with the distance added to each as often as its weight says. -/
def Word.shiftAll (distance : Int) (words : List Word) (weights : List Int) : List Word :=
  List.zipWith (fun w k => w + ofInt (k * distance)) words weights

theorem Word.shiftAll_append {distance : Int} {words words' : List Word}
    {weights weights' : List Int} (length : words.length = weights.length) :
    shiftAll distance (words ++ words') (weights ++ weights') =
      shiftAll distance words weights ++ shiftAll distance words' weights' :=
  List.zipWith_append length

theorem Word.shiftAll_zeros (distance : Int) (words : List Word) :
    shiftAll distance words (List.replicate words.length 0) = words := by
  induction words with
  | nil => rfl
  | cons w words ih =>
    show (w + ofInt (0 * distance)) :: shiftAll distance words (List.replicate words.length 0) = _
    rw [ih, Int.zero_mul]
    exact congrArg (· :: words) (UInt16.add_zero w)

/-- The weights of the words of an instruction: the first word has none, an extra word has that of
its operand. -/
def Instruction.weights (i : Instruction) (o : Operation) : List Int :=
  0 :: ((i.source.word.map fun _ => o.weight .source).toList ++
    ((i.destination.bind Operand.word).map fun _ => o.weight .destination).toList)

theorem Instruction.length_weights (i : Instruction) (o : Operation) :
    (i.weights o).length = i.encode.length := by
  unfold weights encode
  cases i.source.word <;> cases i.destination.bind Operand.word <;> rfl

theorem Instruction.encode_relocate (i : Instruction) (o : Operation) (distance : Int) :
    (i.relocate o distance).encode = Word.shiftAll distance i.encode (i.weights o) := by
  obtain ⟨op, destination, ⟨mode, word⟩⟩ := i
  cases destination with
  | none =>
    cases word <;> simp [relocate, encode, weights, Operand.shift, Word.shiftAll, Word.ofInt]
  | some destination =>
    obtain ⟨mode', word'⟩ := destination
    cases word <;> cases word' <;>
      simp [relocate, encode, weights, Operand.shift, Word.shiftAll, Word.ofInt]

/-- The weights of the words of a record: those of its instruction, if that can be made. -/
def Record.weights (program : Program) (r : Record) : List Int :=
  match r.content with
  | .operation o =>
    match o.assemble (r.scopeIn program) with
    | .ok i => i.weights o
    | .error _ => List.replicate r.size 0
  | .data _ | .mark => List.replicate r.size 0

/-- The same record in the second of two images whose addresses differ by `distance`. -/
structure Record.Relocated (distance : Int) (p p' : Program) (r r' : Record) : Prop where
  bare : r'.bare = r.bare
  address : ∃ a a' : Word, r.address = some a ∧ r'.address = some a' ∧
    (a'.toNat : Int) = a.toNat + distance
  /-- The instructions have the same opcode and the same modes. -/
  made : ∀ o i, r.content = .operation o → o.assemble (r.scopeIn p) = .ok i →
    o.assemble (r'.scopeIn p') = .ok (i.relocate o distance)
  failed : ∀ o e, r.content = .operation o → o.assemble (r.scopeIn p) = .error e →
    o.assemble (r'.scopeIn p') = .error e
  length : r.wordList.length = (r.weights p).length
  words : r'.wordList = Word.shiftAll distance r.wordList (r.weights p)

namespace Record.Relocated

variable {distance : Int} {p p' : Program} {r r' : Record}

theorem of_made {o : Operation} {i : Instruction} (bare : r'.bare = r.bare)
    (address : ∃ a a' : Word, r.address = some a ∧ r'.address = some a' ∧
      (a'.toNat : Int) = a.toNat + distance)
    (content : r.content = .operation o) (made : o.assemble (r.scopeIn p) = .ok i)
    (made' : o.assemble (r'.scopeIn p') = .ok (i.relocate o distance))
    (words : r.words = some i.encode) (words' : r'.words = some (i.relocate o distance).encode) :
    r.Relocated distance p p' r' := by
  have weights : r.weights p = i.weights o := by simp only [Record.weights, content, made]
  refine ⟨bare, address, fun o₁ i₁ same run => ?_, fun o₁ e same run => ?_, ?_, ?_⟩
  · cases content.symm.trans same
    cases made.symm.trans run
    exact made'
  · cases content.symm.trans same
    cases made.symm.trans run
  · rw [wordList, words, weights]
    exact (i.length_weights o).symm
  · rw [wordList, wordList, words, words', weights]
    exact i.encode_relocate o distance

/-- A record that is not an instruction, or one that fails in both images. -/
theorem of_fixed {words : List Word} (bare : r'.bare = r.bare)
    (address : ∃ a a' : Word, r.address = some a ∧ r'.address = some a' ∧
      (a'.toNat : Int) = a.toNat + distance)
    (failed : ∀ o, r.content = .operation o → ∃ e, o.assemble (r.scopeIn p) = .error e ∧
      o.assemble (r'.scopeIn p') = .error e)
    (present : r.words = some words) (present' : r'.words = some words)
    (length : words.length = r.size) : r.Relocated distance p p' r' := by
  have weights : r.weights p = List.replicate words.length 0 := by
    rw [length]
    unfold Record.weights
    split
    · next o content =>
      obtain ⟨e, run, -⟩ := failed o content
      rw [run]
    · rfl
    · rfl
  refine ⟨bare, address, fun o i content made => ?_, fun o e content run => ?_, ?_, ?_⟩
  · obtain ⟨e, run, -⟩ := failed o content
    cases made.symm.trans run
  · obtain ⟨e', run', same⟩ := failed o content
    cases run.symm.trans run'
    exact same
  · rw [wordList, present, weights]
    simp
  · rw [wordList, wordList, present, present', weights]
    exact (Word.shiftAll_zeros distance words).symm

end Record.Relocated

namespace Record.FilledAs

variable {p : Program} {keepGoing : Bool} {log : Log} {r f : Record}

theorem words_of_made {words : List Word} (h : FilledAs p keepGoing log r f)
    (made : r.content.words (r.scopeIn p) = .ok words) : f.words = some words := by
  rcases h.words_cases with ⟨words', made', present⟩ | ⟨e, failed, -, -⟩
  · cases made.symm.trans made'
    exact present
  · cases made.symm.trans failed

theorem zeros_of_failed {e : Stop AsmError} (h : FilledAs p keepGoing log r f)
    (failed : r.content.words (r.scopeIn p) = .error e) :
    f.words = some (List.replicate r.size 0) := by
  rcases h.words_cases with ⟨words, made, -⟩ | ⟨e, -, -, zeros⟩
  · cases failed.symm.trans made
  · exact zeros

theorem kind_of_failed {e : AsmError} (h : FilledAs p keepGoing log r f)
    (failed : r.content.words (r.scopeIn p) = .error (.error e)) : e.kind ≠ .encode := by
  rcases h.words_cases with ⟨words, made, -⟩ | ⟨e', failed', kind, -⟩
  · cases failed.symm.trans made
  · cases failed.symm.trans failed'
    exact kind

end Record.FilledAs

/-- The words of an operation come from its machine instruction. -/
theorem Record.words_of_operation {r : Record} {o : Operation} (content : r.content = .operation o)
    (scope : Scope) : r.content.words scope = (o.assemble scope).map Instruction.encode := by
  rw [content]
  rfl

/-- The place of a symbol in memory.  One without an address lies behind the last word. -/
def Symbol.position (sym : Symbol) : Nat :=
  (sym.address.map UInt16.toNat).getD addressSpace

/-! ### Two images of the same files -/

/-- The symbols of an image are those of its files and the end symbol, but for their addresses. -/
theorem Image.settled_of_assemble {sources : List (String × String)} {options : Options}
    {image : Image} {objects : List ObjectFile} {s : Session}
    (h : (assemble sources options).result = .ok image)
    (files : assembleFiles sources options .empty = .ok objects s) :
    ∃ q, addEnd s.program = some (s.program.symbols.size, q) ∧
      q.symbols.SameSettled image.program.symbols := by
  obtain ⟨objects', s', linked, placed, log, files', hLink, hPlace, hFill, -⟩ := assemble_eq_ok h
  rw [files] at files'
  cases files'
  have placing := (settled_of_place linked).2
  rw [hPlace] at placing
  have filling := (settled_of_fill placed).2
  rw [hFill] at filling
  obtain ⟨-, id, q, first, hEnd, -, rfl⟩ := link_eq_ok hLink
  obtain ⟨rfl, -, -⟩ := addEnd_eq_some hEnd
  exact ⟨q, hEnd, placing.trans filling⟩

/-- A symbol of an image that is not the end symbol comes from the files. -/
theorem Image.lt_size_of_get? {sources : List (String × String)} {options : Options}
    {image : Image} {objects : List ObjectFile} {s : Session}
    (h : (assemble sources options).result = .ok image)
    (files : assembleFiles sources options .empty = .ok objects s) {x : Nat} {sym : Symbol}
    (found : image.program.symbols.get? x = some sym) (other : x ≠ s.program.symbols.size) :
    x < s.program.symbols.size := by
  obtain ⟨q, hEnd, settled⟩ := settled_of_assemble h files
  have old := settled x
  rw [found, (addEnd_eq_some hEnd).2.2, if_neg other] at old
  obtain ⟨before, hBefore, -⟩ := Option.map_eq_some_iff.mp old.symm
  exact SymbolStore.lt_size_of_get? hBefore

namespace Image.Finished

variable {sources : List (String × String)} {options : Options} {s : Session} {image : Image}

theorem position_end (h : Finished sources options s image) {sym : Symbol}
    (found : image.program.symbols.get? image.endSymbol = some sym) :
    sym.position = image.baseAddress.toNat + Record.extent image.records := by
  obtain ⟨sym', found', -, -, address⟩ := h.endMark
  rw [found] at found'
  obtain rfl := Option.some.inj found'
  unfold Symbol.position
  rw [address]
  rcases h.endAddress with ⟨word, inside, behind⟩ | ⟨full, behind⟩
  · rw [inside]
    exact behind
  · rw [full]
    exact behind.symm

/-- Looking up the end symbol where it has no address is an error of its own. -/
theorem addressOf_end (h : Finished sources options s image) {sym : Symbol} {x : Nat}
    (found : image.program.symbols.get? x = some sym) (missing : sym.address = none)
    (isEnd : x = image.endSymbol) (r : Record) (name : String) :
    (r.scopeIn image.program).addressOf name x = .error (.error (.addressOverflow 0x10000)) := by
  subst isEnd
  obtain ⟨sym', found', -, isDefined, -⟩ := h.endMark
  rw [found] at found'
  obtain rfl := Option.some.inj found'
  obtain ⟨place, hPlace⟩ := Option.isSome_iff_exists.mp isDefined
  rw [Scope.addressOf_of_get? found, missing, hPlace]

/-- Every symbol of the files is bound by a record. -/
theorem exists_record (h : Finished sources options s image) {x : Nat}
    (inside : x < s.program.symbols.size) : ∃ r ∈ image.records, x ∈ r.defined := by
  obtain ⟨first, -, same⟩ := h.records
  have listed := (h.files.bound.2 x).mpr ⟨Nat.zero_le x, inside⟩
  have bound : x ∈ (first ++ image.objects.flatMap ObjectFile.records).flatMap Record.defined := by
    rw [List.flatMap_append]
    exact List.mem_append_right _ listed
  rw [← Record.flatMap_defined_of_bare same] at bound
  exact List.mem_flatMap.mp bound

end Image.Finished

/-- Two finished images of the same files whose base addresses differ by `distance`. -/
structure Image.Twins (distance : Int) (sources : List (String × String))
    (options options' : Options) (s : Session) (image image' : Image) : Prop where
  finished : Finished sources options s image
  finished' : Finished sources options' s image'
  base : (image'.baseAddress.toNat : Int) = image.baseAddress.toNat + distance
  entry : options'.entry = options.entry
  objects : image'.objects = image.objects
  settled : image.program.symbols.SameSettled image'.program.symbols
  inside : ∀ x sym, image.program.symbols.get? x = some sym → x ≠ image.endSymbol →
    x < s.program.symbols.size

namespace Image.Twins

variable {distance : Int} {sources : List (String × String)} {options options' : Options}
  {s : Session} {image image' : Image} {r r' : Record}

theorem of_assemble {base : Word} (h : (assemble sources options).result = .ok image)
    (h' : (assemble sources { options with baseAddress := base }).result = .ok image') :
    ∃ s, Twins ((base.toNat : Int) - options.baseAddress.toNat) sources options
      { options with baseAddress := base } s image image' := by
  obtain ⟨s, files, finished⟩ := finished_of_assemble h
  obtain ⟨s', files', finished'⟩ := finished_of_assemble h'
  have same : assembleFiles sources { options with baseAddress := base } .empty =
      assembleFiles sources options .empty := rfl
  rw [same, files] at files'
  obtain ⟨objects, rfl⟩ : image.objects = image'.objects ∧ s = s' := by simpa using files'
  obtain ⟨q, hEnd, settled⟩ := settled_of_assemble h files
  obtain ⟨q', hEnd', settled'⟩ := settled_of_assemble h' (same.trans files)
  rw [hEnd] at hEnd'
  obtain rfl : q = q' := by simpa using hEnd'
  refine ⟨s, finished, finished', ?_, rfl, objects.symm, fun x => ?_, fun x sym found other => ?_⟩
  · rw [finished.base, finished'.base]
    show (base.toNat : Int) = _
    omega
  · exact (settled' x).trans (settled x).symm
  · exact lt_size_of_get? h files found (finished.endSymbol ▸ other)

theorem endSymbol (h : Twins distance sources options options' s image image') :
    image'.endSymbol = image.endSymbol :=
  h.finished'.endSymbol.trans h.finished.endSymbol.symm

theorem map_bare (h : Twins distance sources options options' s image image') :
    image'.records.map Record.bare = image.records.map Record.bare := by
  obtain ⟨first, hFirst, same⟩ := h.finished.map_bare
  obtain ⟨first', hFirst', same'⟩ := h.finished'.map_bare
  have leading : leading options' = leading options := by
    unfold Image.leading
    rw [h.entry]
  rw [leading, hFirst] at hFirst'
  cases hFirst'
  rw [same, same', h.objects]

theorem moved (h : Twins distance sources options options' s image image') :
    List.Forall₂ (fun r r' : Record => r'.bare = r.bare ∧ ∃ a a' : Word, r.address = some a ∧
      r'.address = some a' ∧ (a'.toNat : Int) = a.toNat + distance) image.records image'.records :=
  h.finished.row.moved h.finished'.row h.map_bare h.base

/-- The two addresses of a symbol. -/
theorem position (h : Twins distance sources options options' s image image') {x : Nat}
    {sym sym' : Symbol} (found : image.program.symbols.get? x = some sym)
    (found' : image'.program.symbols.get? x = some sym') :
    (sym'.position : Int) = sym.position + distance ∧
      (x ≠ image.endSymbol → sym.address.isSome ∧ sym'.address.isSome) := by
  by_cases last : x = image.endSymbol
  · -- The end symbol lies behind the records, also if memory ends there.
    subst last
    refine ⟨?_, fun other => absurd rfl other⟩
    have extent := Record.extent_of_bare h.map_bare
    have apart := h.base
    rw [h.finished.position_end found, h.finished'.position_end (h.endSymbol.symm ▸ found'), extent]
    omega
  · obtain ⟨r, member, bound⟩ := h.finished.exists_record (h.inside x sym found last)
    obtain ⟨r', member', bare, a, a', address, address', apart⟩ :=
      Runs.exists_right_of_forall₂ h.moved member
    have bound' : x ∈ r'.defined := by
      show x ∈ r'.bare.defined
      rw [bare]
      exact bound
    obtain ⟨sym₁, found₁, same⟩ := h.finished.bound r member x bound
    obtain ⟨sym₂, found₂, same'⟩ := h.finished'.bound r' member' x bound'
    rw [found] at found₁
    rw [found'] at found₂
    obtain rfl := Option.some.inj found₁
    obtain rfl := Option.some.inj found₂
    rw [address] at same
    rw [address'] at same'
    refine ⟨?_, fun _ => by simp [same, same']⟩
    rw [Symbol.position, Symbol.position, same, same']
    exact apart

theorem find_eq (h : Twins distance sources options options' s image image')
    (bare : r'.bare = r.bare) (name : String) :
    (r'.scopeIn image'.program).find name = (r.scopeIn image.program).find name := by
  have table : image'.program.table = image.program.table := by
    rw [h.finished'.table, h.finished.table, h.endSymbol]
  have file : r'.file = r.file := by
    show r'.bare.file = r.bare.file
    rw [bare]
  have scope : r'.scope = r.scope := by
    show r'.bare.scope = r.bare.scope
    rw [bare]
  unfold Scope.find Program.resolve
  simp only [Record.scopeIn, table, file, scope, SymbolStore.resolve_of_unmarked h.settled.unmarked]

theorem shiftsAt (h : Twins distance sources options options' s image image')
    (bare : r'.bare = r.bare) (name : String) :
    (r.scopeIn image.program).ShiftsAt distance (r'.scopeIn image'.program) name := by
  refine ⟨h.find_eq bare name, fun x _ => ?_⟩
  have settled := h.settled x
  cases found : image.program.symbols.get? x with
  | none =>
    rw [found] at settled
    have found' := Option.map_eq_none_iff.mp settled
    simp only [Scope.addressOf, Record.scopeIn, found, found']
    exact .error _ _
  | some sym =>
    rw [found] at settled
    obtain ⟨sym', found', -⟩ := Option.map_eq_some_iff.mp settled
    obtain ⟨position, inside⟩ := h.position found found'
    cases address : sym.address with
    | none =>
      have isEnd : x = image.endSymbol := by
        by_contra other
        simpa [address] using (inside other).1
      rw [h.finished.addressOf_end found address isEnd]
      exact .left rfl
    | some a =>
      cases address' : sym'.address with
      | none =>
        have isEnd : x = image.endSymbol := by
          by_contra other
          simpa [address'] using (inside other).2
        rw [h.finished'.addressOf_end found' address' (isEnd.trans h.endSymbol.symm)]
        exact .right rfl
      | some a' =>
        rw [Scope.addressOf_of_get? found, Scope.addressOf_of_get? found', address, address']
        rw [Symbol.position, Symbol.position, address, address'] at position
        exact .ok position

/-- A record of the first image and the same of the second. -/
theorem relocated (h : Twins distance sources options options' s image image')
    (member : r ∈ image.records) (member' : r' ∈ image'.records) (bare : r'.bare = r.bare)
    (address : ∃ a a' : Word, r.address = some a ∧ r'.address = some a' ∧
      (a'.toNat : Int) = a.toNat + distance) :
    r.Relocated distance image.program image'.program r' ∧
      r'.content.touched (r'.scopeIn image'.program) =
        r.content.touched (r.scopeIn image.program) := by
  have content' : r'.content = r.content := by
    show r'.bare.content = r.bare.content
    rw [bare]
  have size : r'.size = r.size := congrArg Content.size content'
  have filled := h.finished.filled r member
  have filled' := h.finished'.filled r' member'
  cases content : r.content with
  | operation o =>
    rw [content] at content'
    have complete : o.Complete := by
      have := h.finished.complete member
      rwa [content] at this
    have words := Record.words_of_operation content (r.scopeIn image.program)
    have words' := Record.words_of_operation content' (r'.scopeIn image'.program)
    obtain ⟨touched, ⟨i, i', made, made', moved⟩ | ⟨e, failed, failed'⟩⟩ :=
      (Operation.assemble_shifted complete fun _ _ name _ => h.shiftsAt bare name).cases_of_fit
        (fun e failed => filled.kind_of_failed (by rw [words, failed]; rfl))
        (fun e failed => filled'.kind_of_failed (by rw [words', failed]; rfl))
    · subst moved
      rw [made] at words
      rw [made'] at words'
      refine ⟨.of_made bare address content made made' (filled.words_of_made words)
        (filled'.words_of_made words'), ?_⟩
      rw [content']
      exact touched
    · rw [failed] at words
      rw [failed'] at words'
      refine ⟨.of_fixed bare address (fun o' same => ?_) (filled.zeros_of_failed words)
        (size ▸ filled'.zeros_of_failed words') List.length_replicate, ?_⟩
      · cases content.symm.trans same
        exact ⟨e, failed, failed'⟩
      · rw [content']
        exact touched
  | data words =>
    rw [content] at content'
    have made : r.content.words (r.scopeIn image.program) = .ok words := by rw [content]; rfl
    have made' : r'.content.words (r'.scopeIn image'.program) = .ok words := by rw [content']; rfl
    refine ⟨.of_fixed bare address (fun o' same => ?_) (filled.words_of_made made)
      (filled'.words_of_made made') (by rw [Record.size, content]; rfl), ?_⟩
    · cases content.symm.trans same
    · rw [content']
      rfl
  | mark =>
    rw [content] at content'
    have made : r.content.words (r.scopeIn image.program) = .ok [] := by rw [content]; rfl
    have made' : r'.content.words (r'.scopeIn image'.program) = .ok [] := by rw [content']; rfl
    refine ⟨.of_fixed bare address (fun o' same => ?_) (filled.words_of_made made)
      (filled'.words_of_made made') (by rw [Record.size, content]; rfl), ?_⟩
    · cases content.symm.trans same
    · rw [content']
      rfl

theorem relocated_records (h : Twins distance sources options options' s image image') :
    List.Forall₂ (fun r r' => r.Relocated distance image.program image'.program r' ∧
      r'.content.touched (r'.scopeIn image'.program) =
        r.content.touched (r.scopeIn image.program)) image.records image'.records := by
  have members : List.Forall₂ (fun r r' : Record => r ∈ image.records ∧ _) _ _ :=
    (List.forall₂_and_left _ _).mpr ⟨fun _ member => member, h.moved⟩
  exact Runs.forall₂_imp_of_mem members fun r r' member' ⟨member, bare, address⟩ =>
    h.relocated member member' bare address

/-- Either both images refer to their end, or neither does. -/
theorem relocated_closing (h : Twins distance sources options options' s image image') :
    List.Forall₂ (Record.Relocated distance image.program image'.program)
      image.closing.toList image'.closing.toList := by
  cases closing : image.closing with
  | none =>
    cases closing' : image'.closing with
    | none => exact .nil
    | some r' =>
      obtain ⟨-, r', member', touched'⟩ := h.finished'.closing r' closing'
      obtain ⟨r, member, -, same⟩ := Runs.exists_left_of_forall₂ h.relocated_records member'
      rw [same, h.endSymbol] at touched'
      cases closing.symm.trans (h.finished.closed r member touched')
  | some r =>
    obtain ⟨-, r₁, member, touched⟩ := h.finished.closing r closing
    obtain ⟨r₂, member', -, same⟩ := Runs.exists_right_of_forall₂ h.relocated_records member
    rw [← same, ← h.endSymbol] at touched
    have closing' := h.finished'.closed r₂ member' touched
    rw [closing']
    obtain ⟨word, rfl, behind⟩ := h.finished.closing_eq closing
    obtain ⟨word', isEnd, behind'⟩ := h.finished'.closing_eq closing'
    rw [isEnd, h.endSymbol]
    have extent := Record.extent_of_bare h.map_bare
    have apart := h.base
    refine .cons (.of_fixed rfl ⟨word, word', rfl, rfl, by omega⟩ (fun o content => ?_) rfl rfl rfl)
      .nil
    cases content

end Image.Twins

/-- The second of two images of the same files, whose base addresses differ by `distance`.  The
words of `image'` are those of `image`, with the distance added to each extra word as often as
references are added in its operand, less those that are taken off. -/
structure Image.Relocated (distance : Int) (image image' : Image) : Prop where
  base : (image'.baseAddress.toNat : Int) = image.baseAddress.toNat + distance
  table : image'.program.table = image.program.table
  size : image'.program.symbols.size = image.program.symbols.size
  /-- Symbols differ in their addresses only.  All of them have one but the end symbol, which may
  lie behind the last word of memory. -/
  symbols : ∀ x sym, image.program.symbols.get? x = some sym →
    ∃ sym', image'.program.symbols.get? x = some sym' ∧ sym'.settled = sym.settled ∧
      (sym'.position : Int) = sym.position + distance ∧
      (x ≠ image.endSymbol → sym.address.isSome ∧ sym'.address.isSome)
  records : List.Forall₂ (Record.Relocated distance image.program image'.program)
    image.allRecords image'.allRecords
  words : image'.words = Word.shiftAll distance image.words
    (image.allRecords.flatMap (Record.weights image.program))

theorem Record.shiftAll_of_relocated {distance : Int} {p p' : Program} {rs rs' : List Record}
    (h : List.Forall₂ (Relocated distance p p') rs rs') :
    rs'.flatMap wordList =
      Word.shiftAll distance (rs.flatMap wordList) (rs.flatMap (weights p)) := by
  induction h with
  | nil => rfl
  | cons first _ ih =>
    rw [List.flatMap_cons, List.flatMap_cons, List.flatMap_cons, Word.shiftAll_append first.length,
      ← first.words, ih]

/-- Relocation: assembling the same files at another base address moves everything by the distance
of the bases. -/
theorem Image.relocated_of_assemble {sources : List (String × String)} {options : Options}
    {base : Word} {image image' : Image} (h : (assemble sources options).result = .ok image)
    (h' : (assemble sources { options with baseAddress := base }).result = .ok image') :
    image.Relocated ((base.toNat : Int) - options.baseAddress.toNat) image' := by
  obtain ⟨s, twins⟩ := Twins.of_assemble h h'
  have records := List.rel_append (twins.relocated_records.imp fun _ _ both => both.1)
    twins.relocated_closing
  refine ⟨twins.base, ?_, ?_, fun x sym found => ?_, records, Record.shiftAll_of_relocated records⟩
  · rw [twins.finished'.table, twins.finished.table, twins.endSymbol]
  · exact SymbolStore.size_of_unmarked twins.settled.unmarked
  · have settled := twins.settled x
    rw [found] at settled
    obtain ⟨sym', found', same⟩ := Option.map_eq_some_iff.mp settled
    exact ⟨sym', found', same, twins.position found found'⟩

/-- References that cancel each other, one that is taken off, and two that are added. -/
theorem Image.relocated_up :
    let sources := [("a.s",
      ":main set a, _end - main\n set [b + main], 0x200 - main\n jsr main\n .short 1")]
    ∃ image image', (assemble sources { baseAddress := 0x10 }).result = .ok image ∧
      (assemble sources { baseAddress := 0x100 }).result = .ok image' ∧
      image.words = [0x7c01, 8, 0x7e21, 0x1f0, 0x10, 0x7c20, 0x10, 1] ∧
      image'.words = [0x7c01, 8, 0x7e21, 0x100, 0x100, 0x7c20, 0x100, 1] ∧
      image.allRecords.flatMap (Record.weights image.program) = [0, 0, 0, -1, 1, 0, 1, 0] ∧
      image.Relocated 0xf0 image' := by
  intro sources
  have evaluated : (assemble sources { baseAddress := 0x10 }).result.toOption.map
      (fun image => (image.words, image.allRecords.flatMap (Record.weights image.program))) =
      some ([0x7c01, 8, 0x7e21, 0x1f0, 0x10, 0x7c20, 0x10, 1], [0, 0, 0, -1, 1, 0, 1, 0]) := by
    decide +kernel
  have evaluated' : (assemble sources { baseAddress := 0x100 }).result.toOption.map Image.words =
      some [0x7c01, 8, 0x7e21, 0x100, 0x100, 0x7c20, 0x100, 1] := by
    decide +kernel
  obtain ⟨image, present, both⟩ := Option.map_eq_some_iff.mp evaluated
  obtain ⟨words, weights⟩ := Prod.mk.inj both
  obtain ⟨image', present', words'⟩ := Option.map_eq_some_iff.mp evaluated'
  have made := Runs.eq_ok_of_toOption present
  have made' := Runs.eq_ok_of_toOption present'
  exact ⟨image, image', made, made', words, words', weights, relocated_of_assemble made made'⟩

end Dcpu16
