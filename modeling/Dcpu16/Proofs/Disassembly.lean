import Dcpu16.Proofs.Reading
import Dcpu16.Proofs.Shifting

/-! Disassembly.  The text of a decoded instruction, with its terminal escapes taken out, is a
statement whose words are those that were decoded.  Only operands that could do with a shorter form
are left out: an offset of zero, and a literal source that its field can hold. -/

namespace Dcpu16

open Text

/-! ### Terminal escapes -/

namespace Text

/-- Where in a text with terminal escapes the next character stands. -/
inductive EscapeState where
  /-- In the text itself. -/
  | text
  /-- Right after an escape character. -/
  | escape
  /-- Among the parameters of a control sequence, which a character from `@` to `~` ends. -/
  | control
  deriving DecidableEq, Repr

/-- The text without its terminal escapes. -/
def dropEscapes : EscapeState → List Char → List Char
  | _, [] => []
  | .text, c :: cs => if c = '\x1b' then dropEscapes .escape cs else c :: dropEscapes .text cs
  | .escape, c :: cs => if c = '[' then dropEscapes .control cs else dropEscapes .text cs
  | .control, c :: cs =>
    if '@' ≤ c ∧ c ≤ '~' then dropEscapes .text cs else dropEscapes .control cs

theorem dropEscapes_enter (style : Style) (cs : List Char) :
    dropEscapes .text (style.enter.toList ++ cs) = dropEscapes .text cs := by
  cases style <;> rfl

theorem dropEscapes_leave (style : Style) (cs : List Char) :
    dropEscapes .text (style.leave.toList ++ cs) = dropEscapes .text cs := by
  cases style <;> rfl

theorem dropEscapes_styles {escape : Style → String}
    (single : ∀ style cs, dropEscapes .text ((escape style).toList ++ cs) = dropEscapes .text cs)
    (styles : List Style) (cs : List Char) :
    dropEscapes .text ((String.join (styles.map escape)).toList ++ cs) = dropEscapes .text cs := by
  induction styles with
  | nil => simp
  | cons style styles ih =>
    rw [List.map_cons, String.join_cons, String.toList_append, List.append_assoc, single, ih]

theorem dropEscapes_append {front : List Char} (plain : '\x1b' ∉ front) (cs : List Char) :
    dropEscapes .text (front ++ cs) = front ++ dropEscapes .text cs := by
  induction front with
  | nil => rfl
  | cons c front ih =>
    have other : c ≠ '\x1b' := fun same => plain (by simp [same])
    rw [List.cons_append, dropEscapes, if_neg other, ih fun member => plain (by simp [member]),
      List.cons_append]

/-- Only the escapes of the styles are dropped. -/
theorem dropEscapes_ansi {styled : Styled} (plain : '\x1b' ∉ styled.plain.toList) :
    dropEscapes .text styled.ansi.toList = styled.plain.toList := by
  induction styled with
  | nil => rfl
  | cons span rest ih =>
    simp only [Styled.plain, Styled.ansi, List.map_cons, String.join_cons, String.toList_append,
      List.mem_append, not_or] at plain ih ⊢
    rw [Span.ansi, String.toList_append, String.toList_append, List.append_assoc, List.append_assoc,
      dropEscapes_styles dropEscapes_enter, dropEscapes_append plain.1,
      dropEscapes_styles dropEscapes_leave, ih plain.2]

end Text

/-! ### Operands -/

namespace Operand

/-- The expression that an operand is written as. -/
def expr (operand : Operand) : Expr :=
  let literal := Atom.literal (operand.word.getD 0)
  match operand.mode with
  | .register r => ⟨[⟨none, .register r⟩], false⟩
  | .atRegister r => ⟨[⟨none, .register r⟩], true⟩
  | .atRegisterPlus r => ⟨[⟨none, .register r⟩, ⟨some .plus, literal⟩], true⟩
  | .push => ⟨[⟨none, .special .push⟩], false⟩
  | .pop => ⟨[⟨none, .special .pop⟩], false⟩
  | .peek => ⟨[⟨none, .special .peek⟩], false⟩
  | .pick => ⟨[⟨none, .special .sp⟩, ⟨some .plus, literal⟩], true⟩
  | .sp => ⟨[⟨none, .special .sp⟩], false⟩
  | .pc => ⟨[⟨none, .special .pc⟩], false⟩
  | .ex => ⟨[⟨none, .special .ex⟩], false⟩
  | .atNext => ⟨[⟨none, literal⟩], true⟩
  | .next => ⟨[⟨none, literal⟩], false⟩
  | .short n =>
    if n = 0 then ⟨[⟨some .minus, .literal 1⟩], false⟩
    else ⟨[⟨none, .literal (UInt16.ofNat (n.val - 1))⟩], false⟩

/-- The token for an atom of an operand: short literals are decimal, others hexadecimal. -/
def spell (operand : Operand) : Atom → List Char
  | .literal w =>
    match operand.mode with
    | .short _ => (Numeral.decimal w.toNat).toList
    | _ => '0' :: 'x' :: (Numeral.fourHex w.toNat).toList
  | .register r => r.name.toList
  | .special v => v.name.toList
  | .reference name => name.toList

/-- The operand has no shorter form: its offset is not zero, and a literal source is none that its
field can hold. -/
def isShortest (operand : Operand) (slot : Slot) : Bool :=
  match operand.mode, operand.word with
  | .atRegisterPlus _, some w => w != 0
  | .pick, some w => w != 0
  | .next, some w => slot = .destination || 30 < w.toNat
  | _, _ => true

variable {operand : Operand} {slot : Slot}

theorem signed_shortValue {n : Fin 32} (positive : n ≠ 0) :
    Numeral.signed (Mode.shortValue n) = Numeral.decimal (n.val - 1) := by
  have : 0 < n.val := Nat.pos_of_ne_zero fun zero => positive (Fin.ext zero)
  rw [Numeral.signed, Mode.shortValue, if_neg (by omega)]
  congr 1
  omega

theorem short_mod (n : Fin 32) : (n.val - 1) % 65536 = n.val - 1 :=
  Nat.mod_eq_of_lt (by omega)

/-- The text of an operand is that of its expression. -/
theorem plain_styled (operand : Operand) : operand.styled.plain.toList =
    Expr.bracket operand.expr.indirect (Expr.text operand.spell operand.expr.terms) := by
  obtain ⟨mode, word⟩ := operand
  cases mode with
  | short n =>
    by_cases zero : n = 0
    · subst zero
      simp [styled, Mode.styled, Styled.inStyle, Styled.plain, expr, Expr.bracket, Expr.text,
        Expr.textAfter, Term.leadingSign, Sign.char, spell, Numeral.signed, Mode.shortValue]
    · simp [styled, Mode.styled, Styled.inStyle, Styled.plain, expr, Expr.bracket, Expr.text,
        Expr.textAfter, Term.leadingSign, spell, zero, signed_shortValue zero, short_mod]
  | _ =>
    simp [styled, Mode.styled, Mode.bracketed, Styled.inStyle, Styled.bare, Styled.plain, expr,
      Expr.bracket, Expr.text, Expr.textAfter, Term.leadingSign, Term.innerSign, Sign.char, spell,
      SpecialValue.name]

/-- An operand refers to nothing. -/
theorem ne_reference (operand : Operand) :
    ∀ t ∈ operand.expr.terms, ∀ name, t.atom ≠ .reference name := by
  obtain ⟨mode, word⟩ := operand
  cases mode with
  | short n => by_cases zero : n = 0 <;> simp [expr, zero]
  | _ => simp [expr]

theorem spells (operand : Operand) {atom : Atom} (named : ∀ name, atom ≠ .reference name) :
    Expr.Spells (operand.spell atom) atom := by
  cases atom with
  | literal w =>
    rw [spell]
    split
    · exact Expr.spells_decimal (Numeral.decimal_ne_nil _) (Numeral.digitsFrom?_decimal _)
    · exact Expr.spells_hex (Numeral.fourHex_ne_nil _) (Numeral.digitsFrom?_fourHex _)
  | register r => exact Expr.spells_register r
  | special v => exact Expr.spells_special v
  | reference name => exact absurd rfl (named name)

theorem isChain_expr (operand : Operand) : Expr.IsChain operand.spell operand.expr.terms := by
  have spells : ∀ t ∈ operand.expr.terms, Expr.Spells (operand.spell t.atom) t.atom :=
    fun t member => operand.spells (operand.ne_reference t member)
  suffices operand.expr.terms ≠ [] ∧ (∀ t ∈ operand.expr.terms.tail, t.sign.isSome) ∧
      (operand.expr.terms.filter fun t => t.atom.isBase).length ≤ 1 from
    ⟨this.1, this.2.1, this.2.2, spells⟩
  clear spells
  obtain ⟨mode, word⟩ := operand
  cases mode with
  | short n => by_cases zero : n = 0 <;> simp [expr, zero, Atom.isBase]
  | _ => simp [expr, Atom.isBase, List.filter]

/-- The text of an operand is read as its expression. -/
theorem parse_plain (operand : Operand) :
    Expr.parse operand.styled.plain.toList = .ok operand.expr := by
  rw [plain_styled]
  exact Expr.parse_bracket operand.isChain_expr _

/-- The text of an operand can stand in a list of operands. -/
theorem plain_item (operand : Operand) : operand.styled.plain.toList ≠ [] ∧
    ',' ∉ operand.styled.plain.toList ∧ '\x1b' ∉ operand.styled.plain.toList ∧
    (∀ c ∈ operand.styled.plain.toList.head?, isBlank c = false) ∧
    ∀ c ∈ operand.styled.plain.toList.getLast?, isBlank c = false := by
  have chain := operand.isChain_expr
  rw [plain_styled]
  exact ⟨Expr.bracket_ne_nil chain _, Expr.not_mem_bracket chain rfl (by decide) (by decide),
    Expr.not_mem_bracket chain rfl (by decide) (by decide), Expr.bracket_ends chain _⟩

/-! ### Evaluating operands -/

theorem checkBase_expr (operand : Operand) : operand.expr.checkBase = .ok () := by
  obtain ⟨mode, word⟩ := operand
  cases mode with
  | short n =>
    by_cases zero : n = 0 <;>
      simp [expr, zero, Expr.checkBase, List.findIdx?, List.findIdx?.go, Atom.isBase]
  | _ =>
    simp [expr, Expr.checkBase, List.findIdx?, List.findIdx?.go, Atom.isBase, Term.isNegative]

theorem hasReference_expr (operand : Operand) : operand.expr.hasReference = false := by
  have none : operand.expr.references = [] := by
    rw [Expr.references, List.filterMap_eq_nil_iff]
    intro t member
    unfold Term.reference?
    split
    · next name atom => exact absurd atom (operand.ne_reference t member name)
    · rfl
  simp [Expr.hasReference, none]

theorem sumFits_expr (operand : Operand) : operand.expr.sumFits = true := by
  have few : operand.expr.terms.length ≤ 2 := by
    obtain ⟨mode, word⟩ := operand
    cases mode with
    | short n => by_cases zero : n = 0 <;> simp [expr, zero]
    | _ => simp [expr]
  apply Expr.sumsFitFrom_of_length
  · rw [Expr.sumMin]
    omega
  · rw [Expr.sumMax]
    omega

/-- A number, which is not relative to a base. -/
theorem toOperand_number {e : Expr} (noBase : e.base? = none) (refers : e.hasReference = false)
    (v : Int) : e.toOperand slot v =
      if e.indirect then (Word.store v).map (⟨.atNext, some ·⟩)
      else if slot = .destination then (Word.store v).map (⟨.next, some ·⟩)
      else match Mode.ofShort? v with
        | some mode => .ok ⟨mode, none⟩
        | none => (Word.store v).map (⟨.next, some ·⟩) := by
  cases short : Mode.ofShort? v with
  | none => simp [Expr.toOperand, noBase, refers, short]
  | some mode => simp [Expr.toOperand, noBase, refers, short]

/-- The one term of a number that has an extra word. -/
theorem number_of_literal {w : Word} {indirect : Bool} {e : Expr}
    (h : e = ⟨[⟨none, .literal w⟩], indirect⟩) : e.base? = none ∧ e.literalSum = w.toNat := by
  subst h
  simp [Expr.base?, Atom.isBase, Expr.literalSum, Term.literalValue, Term.signed, Term.isNegative]

/-- The one term of a short literal. -/
theorem number_of_short (n : Fin 32) (word : Option Word) :
    (expr ⟨.short n, word⟩).base? = none ∧ (expr ⟨.short n, word⟩).indirect = false ∧
      (expr ⟨.short n, word⟩).literalSum = Mode.shortValue n := by
  revert n
  simp only [expr]
  decide

/-- The terms of a base with an offset that is not zero. -/
theorem base_of_offset {base : Atom} {w : Word} {e : Expr} (isBase : base.isBase)
    (h : e = ⟨[⟨none, base⟩, ⟨some .plus, .literal w⟩], true⟩) (positive : w ≠ 0) :
    e.base? = some base ∧ e.indirect = true ∧ e.literalSum = w.toNat ∧ e.hasOffset = true := by
  have sum : e.literalSum = w.toNat := by
    subst h
    cases base with
    | register r => simp [Expr.literalSum, Term.literalValue, Term.signed, Term.isNegative]
    | special v => simp [Expr.literalSum, Term.literalValue, Term.signed, Term.isNegative]
    | literal | reference => cases isBase
  have other : w.toNat ≠ 0 := fun zero => positive (UInt16.toNat_inj.mp zero)
  exact ⟨by simp [h, Expr.base?, isBase], by rw [h], sum, by simp [Expr.hasOffset, sum, other]⟩

theorem ofShort?_shortValue (n : Fin 32) : Mode.ofShort? (Mode.shortValue n) = some (.short n) := by
  revert n
  decide

/-- An operand without a shorter form is what its expression stands for in the slot. -/
theorem toOperand_expr (fits : operand.Fits slot) (shortest : operand.isShortest slot) :
    operand.expr.toOperand slot operand.expr.literalSum = .ok operand := by
  have refers := operand.hasReference_expr
  obtain ⟨mode, word⟩ := operand
  have fitting : mode.fits slot := fits.mode
  have present : word.isSome = mode.needsWord := fits.word
  cases word with
  | none =>
    cases mode with
    | short n =>
      obtain ⟨noBase, direct, sum⟩ := number_of_short n none
      cases slot with
      | source =>
        rw [toOperand_number noBase refers, direct, sum, ofShort?_shortValue]
        rfl
      | destination => cases fitting
    | push =>
      cases slot with
      | source => cases fitting
      | destination => rfl
    | pop =>
      cases slot with
      | source => rfl
      | destination => cases fitting
    | atRegisterPlus | pick | atNext | next => cases present
    | _ => rfl
  | some w =>
    have stored := Word.store_toNat w
    cases mode with
    | atRegisterPlus r =>
      have terms : expr ⟨.atRegisterPlus r, some w⟩ =
          ⟨[⟨none, .register r⟩, ⟨some .plus, .literal w⟩], true⟩ := rfl
      obtain ⟨base, indirect, sum, offset⟩ :=
        base_of_offset rfl terms (by simpa [isShortest] using shortest)
      simp only [Expr.toOperand, base, indirect, sum, offset, stored, Except.map]
    | pick =>
      have terms : expr ⟨.pick, some w⟩ =
          ⟨[⟨none, .special .sp⟩, ⟨some .plus, .literal w⟩], true⟩ := rfl
      obtain ⟨base, indirect, sum, offset⟩ :=
        base_of_offset rfl terms (by simpa [isShortest] using shortest)
      simp only [Expr.toOperand, base, indirect, sum, offset, stored, Except.map]
    | atNext =>
      have terms : expr ⟨.atNext, some w⟩ = ⟨[⟨none, .literal w⟩], true⟩ := rfl
      obtain ⟨noBase, sum⟩ := number_of_literal terms
      rw [toOperand_number noBase refers, sum, stored]
      rfl
    | next =>
      have terms : expr ⟨.next, some w⟩ = ⟨[⟨none, .literal w⟩], false⟩ := rfl
      obtain ⟨noBase, sum⟩ := number_of_literal terms
      rw [toOperand_number noBase refers, sum, stored]
      cases slot with
      | destination => rfl
      | source =>
        have wide : 30 < w.toNat := by simpa [isShortest] using shortest
        rw [Mode.ofShort?, dif_neg (by omega)]
        rfl
    | _ => cases present

theorem eval_expr (fits : operand.Fits slot) (shortest : operand.isShortest slot) (scope : Scope) :
    operand.expr.eval slot scope = .ok operand :=
  Expr.eval_eq_ok.mpr ⟨operand.checkBase_expr, _,
    Expr.value_of_no_reference operand.hasReference_expr, operand.sumFits_expr,
    toOperand_expr fits shortest⟩

end Operand

/-! ### Instructions -/

theorem Text.Styled.plain_append (front back : Styled) :
    Styled.plain (front ++ back) = front.plain ++ back.plain := by
  simp [plain]

theorem Opcode.padRight_name (op : Opcode) :
    (padRight 4 op.name).toList = op.name.toList ++ [' '] := by
  have length : op.name.length = 3 := by
    cases op with
    | basic op => cases op <;> rfl
    | extended op => cases op <;> rfl
  simp [padRight, length]

namespace Instruction

theorem plain_extended (op : ExtendedOp) (source : Operand) :
    (styled ⟨.extended op, none, source⟩).plain.toList =
      (Opcode.extended op).name.toList ++ ' ' :: source.styled.plain.toList := by
  rw [styled, Styled.plain_append, String.toList_append]
  simp [Styled.inStyle, Styled.plain, Opcode.padRight_name]

theorem plain_basic (op : BasicOp) (destination source : Operand) :
    (styled ⟨.basic op, some destination, source⟩).plain.toList = (Opcode.basic op).name.toList ++
      ' ' :: (destination.styled.plain.toList ++ ',' :: ' ' :: source.styled.plain.toList) := by
  simp only [styled, Styled.plain_append, String.toList_append]
  simp [Styled.inStyle, Styled.plain, Styled.bare, Opcode.padRight_name]

variable {i : Instruction} {words rest : List Word}

/-- An instruction without a shorter form is read from its text, and makes its own words. -/
theorem parse_ansi (h : i.WellFormed) (source : i.source.isShortest .source)
    (destination : ∀ operand, i.destination = some operand → operand.isShortest .destination) :
    ∃ operands, Statement.parse (dropEscapes .text i.styled.ansi.toList) =
        .ok ⟨none, .instruction i.op operands⟩ ∧
      ∀ scope, (Content.operation ⟨i.op, operands⟩).words scope = .ok i.encode := by
  obtain ⟨op, d, s⟩ := i
  obtain ⟨filled, whole, unescaped, head, last⟩ := s.plain_item
  have named : '\x1b' ∉ op.name.toList := op.isToken_name.not_mem rfl
  have evaluated := Operand.eval_expr h.source source
  cases op with
  | extended op =>
    cases d with
    | some d => exact absurd h.arity (by simp [Opcode.arity])
    | none =>
      refine ⟨[s.expr], ?_, fun scope => ?_⟩
      · have text := plain_extended op s
        rw [dropEscapes_ansi (by simp [text, named, unescaped]), text]
        exact Statement.parse_instruction filled head last
          (Body.readOperands_one filled whole s.parse_plain)
      · rw [Content.words, Operation.assemble_extended, evaluated]
        rfl
  | basic op =>
    cases d with
    | none => exact absurd h.arity (by simp [Opcode.arity])
    | some d =>
      obtain ⟨filled', whole', unescaped', head', -⟩ := d.plain_item
      have evaluated' := Operand.eval_expr (h.destination d rfl) (destination d rfl)
      refine ⟨[d.expr, s.expr], ?_, fun scope => ?_⟩
      · have text := plain_basic op d s
        rw [dropEscapes_ansi (by simp [text, named, unescaped, unescaped']), text]
        refine Statement.parse_instruction (by simp) ?_ ?_
          (Body.readOperands_two whole' whole d.parse_plain s.parse_plain)
        · rwa [List.head?_append_of_ne_nil _ filled']
        · rwa [List.append_cons, List.append_cons, List.getLast?_append_of_ne_nil _ filled]
      · rw [Content.words, Operation.assemble_basic, evaluated', evaluated]
        rfl

/-- What has been decoded can be assembled again from its text.  The text, without its escapes, is
an instruction without a label, and in every scope its words are those that were decoded. -/
theorem reassembles_of_decode (decoded : decode? words = some (i, rest))
    (source : i.source.isShortest .source)
    (destination : ∀ operand, i.destination = some operand → operand.isShortest .destination) :
    ∃ operands made, Statement.parse (dropEscapes .text i.styled.ansi.toList) =
        .ok ⟨none, .instruction i.op operands⟩ ∧
      words = made ++ rest ∧
      ∀ scope, (Content.operation ⟨i.op, operands⟩).words scope = .ok made := by
  obtain ⟨wellFormed, split⟩ := of_decode? decoded
  obtain ⟨operands, parsed, evaluated⟩ := parse_ansi wellFormed source destination
  exact ⟨operands, i.encode, parsed, split, evaluated⟩

/-- Both operands have an extra word, and another word follows. -/
theorem reassembles_two_words :
    let words : List Word := [0x7e01, 0x1234, 0x10, 0xffff]
    ∃ i operands, decode? words = some (i, [0xffff]) ∧
      dropEscapes .text i.styled.ansi.toList = "set [a + 0x0010], 0x1234".toList ∧
      Statement.parse (dropEscapes .text i.styled.ansi.toList) =
        .ok ⟨none, .instruction i.op operands⟩ ∧
      ∀ scope, (Content.operation ⟨i.op, operands⟩).words scope = .ok [0x7e01, 0x1234, 0x10] := by
  intro words
  let i : Instruction := ⟨.basic .set, some ⟨.atRegisterPlus .a, some 0x10⟩, ⟨.next, some 0x1234⟩⟩
  have decoded : decode? words = some (i, [0xffff]) := by decide
  have destination : ∀ operand, i.destination = some operand → operand.isShortest .destination := by
    rintro operand ⟨⟩
    decide
  obtain ⟨operands, made, parsed, split, evaluated⟩ :=
    reassembles_of_decode decoded (by decide) destination
  obtain rfl : [0x7e01, 0x1234, 0x10] = made := (List.append_left_inj [0xffff]).mp split
  exact ⟨i, operands, decoded, by decide +kernel, parsed, evaluated⟩

end Instruction

end Dcpu16
