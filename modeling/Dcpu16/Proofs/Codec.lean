import Dcpu16.Isa.Instruction

/-! Decoding gives back the instruction that was encoded, whatever words follow it.  This asks that
each operand has a mode that its slot can hold, and an extra word exactly if that mode takes one.
Nothing else can be decoded. -/

namespace Dcpu16

/-- Can an operand field of the slot hold the mode?  A source does not push, and a destination
neither pops nor is a short literal. -/
def Mode.fits : Mode → Slot → Bool
  | .push, .source => false
  | .pop, .destination => false
  | .short _, .destination => false
  | _, _ => true

/-- The number of operand fields that a slot can tell apart. -/
def Slot.width : Slot → Nat
  | .source => 64
  | .destination => 32

namespace Mode

variable {mode : Mode} {slot : Slot}

theorem bits_lt (fits : mode.fits slot) : mode.bits < slot.width := by
  cases mode with
  | register r | atRegister r | atRegisterPlus r => cases r <;> cases slot <;> decide
  | short n =>
    cases slot with
    | source =>
      have := n.isLt
      simp only [bits, Slot.width]
      omega
    | destination => simp [Mode.fits] at fits
  | _ => cases slot <;> decide

theorem ofBits?_bits (fits : mode.fits slot) : ofBits? mode.bits slot = some mode := by
  cases mode with
  | register r | atRegister r | atRegisterPlus r => cases r <;> rfl
  | short n =>
    cases slot with
    | source =>
      revert n
      decide
    | destination => simp [Mode.fits] at fits
  | push =>
    cases slot with
    | source => simp [Mode.fits] at fits
    | destination => rfl
  | pop =>
    cases slot with
    | source => rfl
    | destination => simp [Mode.fits] at fits
  | _ => rfl

/-- The mode of a field fits the slot and has that field. -/
theorem of_ofBits? {bits : Nat} (small : bits < 64) (h : ofBits? bits slot = some mode) :
    mode.fits slot ∧ mode.bits = bits := by
  have all : ∀ bits : Fin 64, ∀ slot ∈ [Slot.source, .destination],
      ∀ mode ∈ ofBits? bits slot, mode.fits slot ∧ mode.bits = bits := by
    decide
  exact all ⟨bits, small⟩ slot (by cases slot <;> simp) mode h

end Mode

namespace Word

variable {opcode b a : Nat}

theorem toNat_pack (hOpcode : opcode < 32) (hb : b < 32) (ha : a < 64) :
    (pack opcode b a).toNat = opcode + 32 * b + 1024 * a := by
  rw [pack, UInt16.toNat_ofNat', Nat.mod_eq_of_lt hOpcode, Nat.mod_eq_of_lt hb,
    Nat.mod_eq_of_lt ha, Nat.mod_eq_of_lt (by omega)]

theorem opcodeField_pack (hOpcode : opcode < 32) (hb : b < 32) (ha : a < 64) :
    (pack opcode b a).opcodeField = opcode := by
  rw [opcodeField, toNat_pack hOpcode hb ha]
  omega

theorem bField_pack (hOpcode : opcode < 32) (hb : b < 32) (ha : a < 64) :
    (pack opcode b a).bField = b := by
  rw [bField, toNat_pack hOpcode hb ha]
  omega

theorem aField_pack (hOpcode : opcode < 32) (hb : b < 32) (ha : a < 64) :
    (pack opcode b a).aField = a := by
  rw [aField, toNat_pack hOpcode hb ha]
  omega

/-- A word is made of its fields. -/
theorem pack_fields (w : Word) : pack w.opcodeField w.bField w.aField = w := by
  have size := w.toNat_lt
  have opcode : w.opcodeField < 32 := Nat.mod_lt _ (by decide)
  have b : w.bField < 32 := Nat.mod_lt _ (by decide)
  have a : w.aField < 64 := Nat.mod_lt _ (by decide)
  apply UInt16.toNat_inj.mp
  rw [toNat_pack opcode b a, opcodeField, bField, aField]
  omega

end Word

namespace Opcode

variable {b a : Nat}

theorem ofWord?_basic (op : BasicOp) (hb : b < 32) (ha : a < 64) :
    ofWord? ((basic op).toWord b a) = some (basic op, b, a) := by
  have small : op.code < 32 := by cases op <;> decide
  have nonzero : op.code ≠ 0 := by cases op <;> decide
  have found : BasicOp.ofCode? op.code = some op := by cases op <;> rfl
  rw [toWord, ofWord?, Word.opcodeField_pack small hb ha, Word.bField_pack small hb ha,
    Word.aField_pack small hb ha, if_neg nonzero, found]
  rfl

theorem ofWord?_extended (op : ExtendedOp) (b : Nat) (ha : a < 64) :
    ofWord? ((extended op).toWord b a) = some (extended op, 0, a) := by
  have small : op.code < 32 := by cases op <;> decide
  have found : ExtendedOp.ofCode? op.code = some op := by cases op <;> rfl
  rw [toWord, ofWord?, Word.opcodeField_pack (by decide) small ha,
    Word.bField_pack (by decide) small ha, Word.aField_pack (by decide) small ha, if_pos rfl, found]
  rfl

/-- A first word is that of its operation and its fields. -/
theorem of_ofWord? {w : Word} {op : Opcode} (h : ofWord? w = some (op, b, a)) :
    b < 32 ∧ a < 64 ∧ op.toWord b a = w := by
  have hb : w.bField < 32 := Nat.mod_lt _ (by decide)
  have ha : w.aField < 64 := Nat.mod_lt _ (by decide)
  unfold ofWord? at h
  split at h
  · next zero =>
    obtain ⟨op, found, ends⟩ := Option.map_eq_some_iff.mp h
    cases ends
    have code : op.code = w.bField := by simpa using List.find?_some found
    refine ⟨by decide, ha, ?_⟩
    rw [toWord, code, ← zero]
    exact Word.pack_fields w
  · obtain ⟨op, found, ends⟩ := Option.map_eq_some_iff.mp h
    cases ends
    have code : op.code = w.opcodeField := by simpa using List.find?_some found
    refine ⟨hb, ha, ?_⟩
    rw [toWord, code]
    exact Word.pack_fields w

end Opcode

namespace Operand

/-- The slot can hold the operand, and its extra word is there exactly if the mode takes one. -/
structure Fits (operand : Operand) (slot : Slot) : Prop where
  mode : operand.mode.fits slot
  word : operand.word.isSome = operand.mode.needsWord

variable {operand : Operand} {slot : Slot}

theorem Fits.read?_append (fits : operand.Fits slot) (rest : List Word) :
    read? operand.mode (operand.word.toList ++ rest) = some (operand, rest) := by
  obtain ⟨mode, word⟩ := operand
  have present := fits.word
  cases word with
  | none =>
    simp only [Option.isSome_none] at present
    simp [read?, ← present]
  | some w =>
    simp only [Option.isSome_some] at present
    simp [read?, ← present]

theorem of_read? {mode : Mode} {words rest : List Word}
    (h : read? mode words = some (operand, rest)) :
    operand.mode = mode ∧ operand.word.isSome = mode.needsWord ∧
      words = operand.word.toList ++ rest := by
  unfold read? at h
  split at h
  · next takes =>
    split at h
    · cases h
    · cases h
      exact ⟨rfl, takes.symm, rfl⟩
  · next takes =>
    cases h
    exact ⟨rfl, (Bool.eq_false_iff.mpr takes).symm, rfl⟩

/-- An operand that has been read for a field fits the slot and has that field. -/
theorem of_decoded {bits : Nat} {mode : Mode} {words rest : List Word} (small : bits < 64)
    (hMode : Mode.ofBits? bits slot = some mode) (hRead : read? mode words = some (operand, rest)) :
    operand.Fits slot ∧ operand.mode.bits = bits ∧ words = operand.word.toList ++ rest := by
  obtain ⟨rfl, word, split⟩ := of_read? hRead
  obtain ⟨fits, same⟩ := Mode.of_ofBits? small hMode
  exact ⟨⟨fits, word⟩, same, split⟩

end Operand

namespace Instruction

/-- The instruction has the operands that its operation takes, and they fit their slots. -/
structure WellFormed (i : Instruction) : Prop where
  source : i.source.Fits .source
  destination : ∀ operand, i.destination = some operand → operand.Fits .destination
  arity : i.op.arity = if i.destination.isSome then 2 else 1

variable {i : Instruction}

/-- Decoding reads one instruction, as it was encoded, and leaves the words behind it. -/
theorem decode?_encode_append (h : i.WellFormed) (rest : List Word) :
    decode? (i.encode ++ rest) = some (i, rest) := by
  obtain ⟨op, destination, source⟩ := i
  have hSource : source.Fits .source := h.source
  have ha := Mode.bits_lt hSource.mode
  cases op with
  | basic op =>
    cases destination with
    | none => exact absurd h.arity (by simp [Opcode.arity])
    | some destination =>
      have hDestination := h.destination destination rfl
      have hb := Mode.bits_lt hDestination.mode
      simp only [encode, List.cons_append, List.append_assoc, decode?, Option.bind_some,
        Opcode.ofWord?_basic op hb ha, Option.bind_eq_bind, Mode.ofBits?_bits hSource.mode,
        Mode.ofBits?_bits hDestination.mode, hSource.read?_append, hDestination.read?_append,
        Option.pure_def]
  | extended op =>
    cases destination with
    | some destination => exact absurd h.arity (by simp [Opcode.arity])
    | none =>
      simp only [encode, List.cons_append, List.append_assoc, decode?, Option.bind_some,
        Option.bind_none, Option.toList_none, List.nil_append,
        Opcode.ofWord?_extended op _ ha, Option.bind_eq_bind, Mode.ofBits?_bits hSource.mode,
        hSource.read?_append, Option.pure_def]

/-- An instruction that was decoded is well formed, and its words are those that were read. -/
theorem of_decode? {words rest : List Word} (h : decode? words = some (i, rest)) :
    i.WellFormed ∧ words = i.encode ++ rest := by
  cases words with
  | nil => cases h
  | cons first after =>
    obtain ⟨⟨op, b, a⟩, hOp, h⟩ := Option.bind_eq_some_iff.mp h
    obtain ⟨mode, hMode, h⟩ := Option.bind_eq_some_iff.mp h
    obtain ⟨⟨source, left⟩, hSource, h⟩ := Option.bind_eq_some_iff.mp h
    obtain ⟨hb, ha, word⟩ := Opcode.of_ofWord? hOp
    obtain ⟨fits, bits, split⟩ := Operand.of_decoded ha hMode hSource
    cases op with
    | extended op =>
      cases h
      refine ⟨⟨fits, fun operand present => (by cases present), rfl⟩, ?_⟩
      simp [encode, bits, split, ← word, Opcode.toWord]
    | basic op =>
      obtain ⟨mode', hMode', h⟩ := Option.bind_eq_some_iff.mp h
      obtain ⟨⟨destination, left'⟩, hDestination, h⟩ := Option.bind_eq_some_iff.mp h
      obtain ⟨fits', bits', split'⟩ := Operand.of_decoded (by omega) hMode' hDestination
      cases h
      refine ⟨⟨fits, fun operand present => ?_, rfl⟩, ?_⟩
      · obtain rfl := Option.some.inj present
        exact fits'
      · simp [encode, bits, bits', split, split', word]

/-- Instructions one after the other are decoded one after the other. -/
theorem decodeUpTo_encode {is : List Instruction} (h : ∀ i ∈ is, i.WellFormed) {fuel : Nat}
    (enough : is.length ≤ fuel) : decodeUpTo fuel (is.flatMap encode) = (is, []) := by
  induction is generalizing fuel with
  | nil => cases fuel <;> rfl
  | cons i is ih =>
    cases fuel with
    | zero => cases enough
    | succ fuel =>
      have rest := ih (fun j member => h j (List.mem_cons_of_mem _ member))
        (Nat.le_of_succ_le_succ enough)
      simp only [decodeUpTo, List.flatMap_cons, decode?_encode_append (h i (by simp)), rest]

theorem decodeAll_encode {is : List Instruction} (h : ∀ i ∈ is, i.WellFormed) :
    decodeAll (is.flatMap encode) = (is, []) := by
  refine decodeUpTo_encode h ?_
  clear h
  induction is with
  | nil => exact Nat.zero_le _
  | cons i is ih =>
    rw [List.flatMap_cons, List.length_append, List.length_cons, Nat.add_comm]
    exact Nat.add_le_add (Nat.succ_le_succ (Nat.zero_le _)) ih

end Instruction

/-! ### Words that cannot be decoded -/

/-- The number of extra words that the mode takes. -/
def Mode.extraWords (mode : Mode) : Nat := if mode.needsWord then 1 else 0

namespace Mode

variable {mode : Mode} {slot : Slot} {bits : Nat}

theorem lt_of_ofBits? (h : ofBits? bits slot = some mode) : bits < 64 := by
  apply Nat.lt_of_not_le
  intro large
  unfold ofBits? at h
  rw [if_neg (by omega), if_neg (by omega), if_neg (by omega), dif_neg (by omega)] at h
  obtain ⟨n, rfl⟩ := Nat.exists_eq_add_of_le' large
  have missing : none = some mode := h
  cases missing

/-- The modes that fit a slot are those that a field can stand for there. -/
theorem fits_iff : mode.fits slot ↔ ∃ bits, ofBits? bits slot = some mode :=
  ⟨fun fits => ⟨_, ofBits?_bits fits⟩, fun ⟨_, h⟩ => (of_ofBits? (lt_of_ofBits? h) h).1⟩

theorem exists_ofBits? (slot : Slot) (small : bits < slot.width) :
    ∃ mode, ofBits? bits slot = some mode := by
  have source : ∀ bits : Fin 64, (ofBits? bits .source).isSome := by decide
  have destination : ∀ bits : Fin 32, (ofBits? bits .destination).isSome := by decide
  cases slot with
  | source => exact Option.isSome_iff_exists.mp (source ⟨bits, small⟩)
  | destination => exact Option.isSome_iff_exists.mp (destination ⟨bits, small⟩)

end Mode

namespace Word

/-- The opcode field of a first word is that of an operation; below a zero opcode the `b` field
is. -/
def IsAssigned (w : Word) : Prop :=
  if w.opcodeField = 0 then ∃ op : ExtendedOp, op.code = w.bField
  else ∃ op : BasicOp, op.code = w.opcodeField

/-- The number of extra words that an operand field asks for. -/
def fieldWords (bits : Nat) (slot : Slot) : Nat :=
  ((Mode.ofBits? bits slot).map Mode.extraWords).getD 0

/-- The number of extra words that the modes of a first word ask for. -/
def extraWords (w : Word) : Nat :=
  fieldWords w.aField .source +
    if w.opcodeField = 0 then 0 else fieldWords w.bField .destination

end Word

namespace Opcode

theorem ofWord?_eq_none_iff {w : Word} : ofWord? w = none ↔ ¬ w.IsAssigned := by
  have basic (op : BasicOp) : op ∈ BasicOp.all := by cases op <;> decide
  have extended (op : ExtendedOp) : op ∈ ExtendedOp.all := by cases op <;> decide
  unfold ofWord? Word.IsAssigned
  split
  · simp [ExtendedOp.ofCode?, extended]
  · simp [BasicOp.ofCode?, basic]

/-- The fields of a first word, by the kind of its operation. -/
theorem fields_of_ofWord? {w : Word} {op : Opcode} {b a : Nat} (h : ofWord? w = some (op, b, a)) :
    a = w.aField ∧ ((w.opcodeField = 0 ∧ ∃ e, op = extended e) ∨
      (w.opcodeField ≠ 0 ∧ b = w.bField ∧ ∃ e, op = basic e)) := by
  unfold ofWord? at h
  split at h
  · next zero =>
    obtain ⟨e, -, ends⟩ := Option.map_eq_some_iff.mp h
    cases ends
    exact ⟨rfl, .inl ⟨zero, e, rfl⟩⟩
  · next nonzero =>
    obtain ⟨e, -, ends⟩ := Option.map_eq_some_iff.mp h
    cases ends
    exact ⟨rfl, .inr ⟨nonzero, rfl, e, rfl⟩⟩

end Opcode

namespace Operand

variable {operand : Operand} {mode : Mode} {words rest : List Word}

theorem read?_eq_none_iff (mode : Mode) (words : List Word) :
    read? mode words = none ↔ words.length < mode.extraWords := by
  unfold read? Mode.extraWords
  split
  · cases words <;> simp
  · simp

theorem length_of_read? (h : read? mode words = some (operand, rest)) :
    words.length = mode.extraWords + rest.length := by
  obtain ⟨-, word, rfl⟩ := of_read? h
  unfold Mode.extraWords
  cases present : operand.word <;> simp_all [Nat.add_comm]

end Operand

namespace Instruction

variable {i : Instruction}

/-- Decoding fails for want of an operation, or for want of words. -/
theorem decode?_cons_eq_none_iff {first : Word} {rest : List Word} :
    decode? (first :: rest) = none ↔ ¬ first.IsAssigned ∨ rest.length < first.extraWords := by
  have ha : first.aField < 64 := Nat.mod_lt _ (by decide)
  have hb : first.bField < 32 := Nat.mod_lt _ (by decide)
  obtain ⟨mode, hMode⟩ := Mode.exists_ofBits? .source ha
  obtain ⟨mode', hMode'⟩ := Mode.exists_ofBits? .destination hb
  rw [← Opcode.ofWord?_eq_none_iff, decode?, Word.extraWords, Word.fieldWords, hMode]
  cases hOp : Opcode.ofWord? first with
  | none => exact ⟨fun _ => .inl rfl, fun _ => rfl⟩
  | some fields =>
    obtain ⟨op, b, a⟩ := fields
    obtain ⟨rfl, ⟨zero, e, rfl⟩ | ⟨nonzero, rfl, e, rfl⟩⟩ := Opcode.fields_of_ofWord? hOp
    · have source := Operand.read?_eq_none_iff mode rest
      cases hSource : Operand.read? mode rest <;> simp_all
    · simp only [nonzero, if_false, Word.fieldWords, hMode', Option.map_some, Option.getD_some,
        Option.bind_eq_bind, Option.bind_some, hMode, reduceCtorEq, false_or]
      cases hSource : Operand.read? mode rest with
      | none =>
        have short := (Operand.read?_eq_none_iff mode rest).mp hSource
        simp only [Option.bind_none, true_iff]
        omega
      | some read =>
        obtain ⟨source, left⟩ := read
        have length := Operand.length_of_read? hSource
        have short := Operand.read?_eq_none_iff mode' left
        cases hDestination : Operand.read? mode' left with
        | none =>
          have short := short.mp hDestination
          simp only [Option.bind_some, hDestination, Option.bind_none, true_iff]
          omega
        | some read =>
          have enough := mt short.mpr (by simp [hDestination])
          simp only [Option.bind_some, hDestination, Option.pure_def, reduceCtorEq, false_iff]
          omega

/-- What a well-formed instruction is, in terms of what operand fields can stand for. -/
theorem wellFormed_iff : i.WellFormed ↔
    (i.destination.isSome ↔ ∃ op, i.op = .basic op) ∧
    ((∃ bits, Mode.ofBits? bits .source = some i.source.mode) ∧
      (i.source.word.isSome ↔ i.source.mode.needsWord)) ∧
    ∀ operand ∈ i.destination, (∃ bits, Mode.ofBits? bits .destination = some operand.mode) ∧
      (operand.word.isSome ↔ operand.mode.needsWord) := by
  have fits (operand : Operand) (slot : Slot) : operand.Fits slot ↔
      (∃ bits, Mode.ofBits? bits slot = some operand.mode) ∧
        (operand.word.isSome ↔ operand.mode.needsWord) := by
    rw [← Mode.fits_iff, ← Bool.eq_iff_iff]
    exact ⟨fun h => ⟨h.mode, h.word⟩, fun h => ⟨h.1, h.2⟩⟩
  have arity : i.op.arity = (if i.destination.isSome then 2 else 1) ↔
      (i.destination.isSome ↔ ∃ op, i.op = .basic op) := by
    cases i.op <;> cases i.destination <;> simp [Opcode.arity]
  rw [← fits, ← arity]
  simp only [← fits]
  exact ⟨fun h => ⟨h.arity, h.source, h.destination⟩, fun ⟨arity, source, destination⟩ =>
    ⟨source, destination, arity⟩⟩

/-- The words of well-formed instructions are exactly what can be decoded.  Other words are refused
because there are none, because their operation is not assigned, or because their modes ask for more
of them. -/
theorem decode?_exact :
    (∀ i : Instruction, i.WellFormed ↔
      (i.destination.isSome ↔ ∃ op, i.op = .basic op) ∧
      ((∃ bits, Mode.ofBits? bits .source = some i.source.mode) ∧
        (i.source.word.isSome ↔ i.source.mode.needsWord)) ∧
      ∀ operand ∈ i.destination, (∃ bits, Mode.ofBits? bits .destination = some operand.mode) ∧
        (operand.word.isSome ↔ operand.mode.needsWord)) ∧
    (∀ i : Instruction, i.WellFormed → ∀ rest, decode? (i.encode ++ rest) = some (i, rest)) ∧
    (∀ words i rest, decode? words = some (i, rest) → i.WellFormed ∧
      1 ≤ i.size ∧ i.size ≤ words.length ∧ i.encode = words.take i.size ∧
        rest = words.drop i.size) ∧
    ∀ words, decode? words = none ↔ words = [] ∨
      ∃ first ∈ words.head?, ¬ first.IsAssigned ∨ words.length < 1 + first.extraWords := by
  refine ⟨fun i => wellFormed_iff, fun i h rest => decode?_encode_append h rest,
    fun words i rest h => ?_, fun words => ?_⟩
  · obtain ⟨wellFormed, rfl⟩ := of_decode? h
    have positive : 1 ≤ i.size := Nat.succ_le_succ (Nat.zero_le _)
    refine ⟨wellFormed, positive, ?_, ?_, ?_⟩
    · rw [List.length_append]
      exact Nat.le_add_right _ _
    · exact List.take_left.symm
    · exact List.drop_left.symm
  · cases words with
    | nil => simp [decode?]
    | cons first rest =>
      have longer : rest.length < first.extraWords ↔
          (first :: rest).length < 1 + first.extraWords := by
        rw [List.length_cons]
        omega
      simp [decode?_cons_eq_none_iff, longer]

/-- Both operands with an extra word: that of the source comes first.  Without the second of them
there is no instruction. -/
theorem decode?_exact_two_extra :
    let i : Instruction :=
      ⟨.basic .add, some ⟨.atNext, some 0x1000⟩, ⟨.atRegisterPlus .i, some 0x2000⟩⟩
    i.WellFormed ∧ i.encode = [0x5bc2, 0x2000, 0x1000] ∧
      decode? [0x5bc2, 0x2000, 0x1000, 7] = some (i, [7]) ∧ decode? [0x5bc2, 0x2000] = none := by
  intro i
  obtain ⟨wellFormed, encoded, -, refused⟩ := decode?_exact
  have well : i.WellFormed := by
    refine (wellFormed i).mpr ⟨by simp [i], ⟨⟨0x16, rfl⟩, by decide⟩, fun operand present => ?_⟩
    obtain rfl := Option.some.inj present
    exact ⟨⟨0x1e, rfl⟩, by decide⟩
  have words : i.encode = [0x5bc2, 0x2000, 0x1000] := by decide
  have decoded := encoded i well [7]
  rw [words] at decoded
  exact ⟨well, words, decoded,
    (refused [0x5bc2, 0x2000]).mpr (.inr ⟨0x5bc2, rfl, .inr (by decide)⟩)⟩

end Instruction

end Dcpu16
