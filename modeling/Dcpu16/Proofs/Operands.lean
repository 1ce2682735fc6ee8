import Dcpu16.Proofs.Codec
import Dcpu16.Proofs.Runs
import Dcpu16.Record

/-! Operands.  What an operand expression evaluates to fits its slot, and has an extra word exactly
if the expression was said to need one before any symbol had an address.  So an operation takes as
many words as its size tells. -/

namespace Dcpu16

theorem Word.store_toNat (w : Word) : store w.toNat = .ok w := by
  have size := w.toNat_lt
  have whole : ((w.toNat : Int) % 0x10000).toNat = w.toNat := by omega
  rw [store, if_pos (by omega), ofInt, whole, UInt16.ofNat_toNat]

theorem Term.literalValue_bounds (t : Term) :
    -0xFFFF ≤ t.literalValue ∧ t.literalValue ≤ 0xFFFF := by
  unfold literalValue
  split
  · next value _ =>
    have size := value.toNat_lt
    unfold signed
    split <;> omega
  · omega

namespace Expr

variable {e : Expr} {slot : Slot} {scope : Scope} {operand : Operand} {v : Int}

theorem isBase_of_base? {atom : Atom} (h : e.base? = some atom) : atom.isBase :=
  List.find?_some h

/-- Steps of an evaluation that ended well. -/
theorem eval_eq_ok :
    e.eval slot scope = .ok operand ↔
      e.checkBase = .ok () ∧ ∃ v, e.value scope = .ok v ∧ e.sumFits = true ∧
        e.toOperand slot v = .ok operand := by
  unfold eval
  cases e.checkBase with
  | error err => simp [Except.mapError, bind, Except.bind]
  | ok u =>
    cases e.value scope with
    | error err => simp [Except.mapError, bind, Except.bind]
    | ok v =>
      cases fits : e.sumFits with
      | false => simp [Except.mapError, bind, Except.bind]
      | true => cases made : e.toOperand slot v <;> simp [Except.mapError, bind, Except.bind, made]

/-! ### Sums -/

theorem sumTerms_cons_ok {t : Term} {ts : List Term} :
    sumTerms scope (t :: ts) = .ok v ↔
      ∃ a b, termValue scope t = .ok a ∧ sumTerms scope ts = .ok b ∧ a + b = v := by
  simp only [sumTerms, bind, Except.bind, pure, Except.pure]
  cases termValue scope t with
  | error e => simp
  | ok a => cases sumTerms scope ts <;> simp

/-- Without references the sum of the terms is that of the literals. -/
theorem sumTerms_of_no_reference {ts : List Term} (none : ts.filterMap Term.reference? = []) :
    sumTerms scope ts = .ok (ts.foldr (fun t sum => t.literalValue + sum) 0) := by
  induction ts with
  | nil => rfl
  | cons t ts ih =>
    cases here : t.reference? with
    | some name => simp [here] at none
    | none =>
      rw [List.filterMap_cons_none here] at none
      refine sumTerms_cons_ok.mpr ⟨t.literalValue, _, ?_, ih none, rfl⟩
      unfold termValue Term.literalValue
      cases atom : t.atom with
      | reference name => simp [Term.reference?, atom] at here
      | _ => rfl

theorem value_of_no_reference (none : e.hasReference = false) :
    e.value scope = .ok e.literalSum := by
  refine sumTerms_of_no_reference ?_
  simpa [hasReference, references] using none

/-- A sum of few literals does not leave the range, as each of them is a word at most. -/
theorem sumsFitFrom_of_length {sum : Int} {ts : List Term}
    (low : sumMin + 0xFFFF * ts.length ≤ sum) (high : sum + 0xFFFF * ts.length ≤ sumMax) :
    sumsFitFrom sum ts = true := by
  induction ts generalizing sum with
  | nil => rfl
  | cons t ts ih =>
    obtain ⟨least, most⟩ := t.literalValue_bounds
    rw [List.length_cons, Int.natCast_succ] at low high
    have first : sumMin ≤ sum + t.literalValue := by omega
    have last : sum + t.literalValue ≤ sumMax := by omega
    simp only [sumsFitFrom, first, last, decide_true, Bool.true_and]
    exact ih (by omega) (by omega)

/-- If a sum can be made, every name in it has an address. -/
theorem lookup_of_sumTerms {ts : List Term} (h : sumTerms scope ts = .ok v) {name : String}
    (member : name ∈ ts.filterMap Term.reference?) :
    ∃ address, scope.lookup name = .ok address := by
  induction ts generalizing v with
  | nil => simp at member
  | cons t ts ih =>
    obtain ⟨a, b, first, rest, -⟩ := sumTerms_cons_ok.mp h
    rcases List.mem_filterMap.mp member with ⟨t', inside, refers⟩
    rcases List.mem_cons.mp inside with rfl | later
    · unfold termValue at first
      cases atom : t'.atom with
      | reference other =>
        obtain rfl : other = name := by simpa [Term.reference?, atom] using refers
        cases found : scope.lookup other with
        | ok address => exact ⟨address, rfl⟩
        | error err => simp [atom, found, Except.map] at first
      | _ => simp [Term.reference?, atom] at refers
    · exact ih rest (List.mem_filterMap.mpr ⟨t', later, refers⟩)

theorem lookup_of_eval (h : e.eval slot scope = .ok operand) {name : String}
    (member : name ∈ e.references) : ∃ address, scope.lookup name = .ok address := by
  obtain ⟨-, v, sum, -⟩ := eval_eq_ok.mp h
  exact lookup_of_sumTerms sum member

/-! ### Modes and extra words -/

/-- A value that is stored as the extra word of a mode that takes one. -/
theorem fits_of_store {mode : Mode} (takes : mode.needsWord)
    (h : (Word.store v).map (fun w => (⟨mode, some w⟩ : Operand)) = .ok operand) :
    operand.Fits slot ∧ operand.word.isSome = true := by
  have fits : mode.fits slot := by cases mode <;> first | rfl | cases takes
  cases stored : Word.store v with
  | error err => simp [stored, Except.map] at h
  | ok w =>
    simp only [stored, Except.map, Except.ok.injEq] at h
    subst h
    exact ⟨⟨fits, takes.symm⟩, rfl⟩

/-- A register, or the stack pointer: plain, as an address, or as an address with an offset. -/
theorem fits_of_indexed {plain at_ plus : Mode} {name : String} {indirect offset : Bool}
    (hPlain : plain.fits slot ∧ plain.needsWord = false)
    (hAt : at_.fits slot ∧ at_.needsWord = false) (hPlus : plus.needsWord)
    (h : (match indirect, offset with
      | false, true => .error (.directOffset name)
      | false, false => .ok ⟨plain, none⟩
      | true, false => .ok ⟨at_, none⟩
      | true, true => (Word.store v).map fun w => ⟨plus, some w⟩ : Except AsmError Operand) =
        .ok operand) :
    operand.Fits slot ∧ operand.word.isSome = (indirect && offset) := by
  cases indirect <;> cases offset
  · cases h
    exact ⟨⟨hPlain.1, hPlain.2.symm⟩, rfl⟩
  · cases h
  · cases h
    exact ⟨⟨hAt.1, hAt.2.symm⟩, rfl⟩
  · exact fits_of_store hPlus h

/-- Another special value, which stands alone. -/
theorem fits_of_special (special : SpecialValue) {name : String} {indexed : Bool}
    (h : (if indexed then .error (.illegalSpecial name)
      else match special.mode? slot with
        | some mode => .ok ⟨mode, none⟩
        | none => .error (.wrongSlot name) : Except AsmError Operand) = .ok operand) :
    operand.Fits slot ∧ operand.word.isSome = false := by
  cases indexed with
  | true => cases h
  | false => cases special <;> cases slot <;> cases h <;> exact ⟨⟨rfl, rfl⟩, rfl⟩

/-- An expression without a base: an address, a literal in the next word, or a short literal. -/
theorem fits_of_number (sum : e.hasReference = false → v = e.literalSum)
    (h : (if e.indirect then (Word.store v).map fun w => ⟨.atNext, some w⟩
      else if e.hasReference || slot = .destination then
        (Word.store v).map fun w => ⟨.next, some w⟩
      else match Mode.ofShort? v with
        | some mode => .ok ⟨mode, none⟩
        | none => (Word.store v).map fun w => ⟨.next, some w⟩ : Except AsmError Operand) =
        .ok operand) :
    operand.Fits slot ∧ operand.word.isSome = (e.hasReference || e.indirect ||
      slot = .destination || !(-1 ≤ e.literalSum && e.literalSum ≤ 30)) := by
  cases indirect : e.indirect with
  | true => simpa using fits_of_store rfl (by simpa [indirect] using h)
  | false =>
    cases refers : e.hasReference with
    | true => simpa using fits_of_store rfl (by simpa [indirect, refers] using h)
    | false =>
      cases slot with
      | destination => simpa using fits_of_store rfl (by simpa [indirect, refers] using h)
      | source =>
        rw [← sum refers]
        by_cases short : -1 ≤ v ∧ v ≤ 30
        · simp [indirect, refers, Mode.ofShort?, short] at h
          subst h
          exact ⟨⟨rfl, rfl⟩, by simp [short]⟩
        · simp [indirect, refers, Mode.ofShort?, short] at h
          have stored : operand.Fits .source ∧ operand.word.isSome = true := fits_of_store rfl h
          refine ⟨stored.1, ?_⟩
          rw [stored.2]
          simp
          omega

/-- The operand by the base of its expression.  `sum` is all that is known of the value. -/
theorem fits_of_toOperand (sum : e.hasReference = false → v = e.literalSum)
    (h : e.toOperand slot v = .ok operand) :
    operand.Fits slot ∧ operand.word.isSome = e.needsWord slot := by
  unfold toOperand at h
  unfold needsWord
  dsimp only at h
  cases base : e.base? with
  | none =>
    rw [base] at h
    exact fits_of_number sum h
  | some atom =>
    rw [base] at h
    cases atom with
    | register r =>
      exact fits_of_indexed ⟨rfl, rfl⟩ ⟨rfl, rfl⟩ rfl h
    | special special =>
      cases special with
      | sp => exact fits_of_indexed ⟨rfl, rfl⟩ ⟨rfl, rfl⟩ rfl h
      | pop => exact fits_of_special .pop h
      | push => exact fits_of_special .push h
      | peek => exact fits_of_special .peek h
      | pc => exact fits_of_special .pc h
      | ex => exact fits_of_special .ex h
    | literal value => cases isBase_of_base? base
    | reference name => cases isBase_of_base? base

theorem fits_of_eval (h : e.eval slot scope = .ok operand) :
    operand.Fits slot ∧ operand.word.isSome = e.needsWord slot := by
  obtain ⟨-, v, sum, -, made⟩ := eval_eq_ok.mp h
  refine fits_of_toOperand (fun none => ?_) made
  rw [value_of_no_reference none] at sum
  exact (Except.ok.inj sum).symm

end Expr

namespace Operation

variable {o : Operation} {scope : Scope} {i : Instruction}

/-- The operation with its operands evaluated, each in its slot. -/
inductive Evaluates (scope : Scope) : Operation → Instruction → Prop
  | basic {op : BasicOp} {d s : Expr} {destination source : Operand}
      (hd : d.eval .destination scope = .ok destination) (hs : s.eval .source scope = .ok source) :
      Evaluates scope ⟨.basic op, [d, s]⟩ ⟨.basic op, some destination, source⟩
  | extended {op : ExtendedOp} {s : Expr} {source : Operand}
      (hs : s.eval .source scope = .ok source) :
      Evaluates scope ⟨.extended op, [s]⟩ ⟨.extended op, none, source⟩

/-- The operation has as many operands as it takes. -/
def Complete (o : Operation) : Prop :=
  o.operands.length = o.op.arity

/-- An operation that can be assembled has the operands that it takes; any more are not looked
at. -/
theorem evaluates_take (h : o.assemble scope = .ok i) :
    Evaluates scope ⟨o.op, o.operands.take o.op.arity⟩ i := by
  obtain ⟨op, operands⟩ := o
  cases op with
  | basic op =>
    match operands with
    | [] => simp [assemble, placed, slots, bind, Except.bind, pure, Except.pure] at h
    | [d] =>
      have apart : (Slot.source == Slot.destination) = false := rfl
      cases hd : d.eval .destination scope <;>
        simp [assemble, placed, slots, hd, apart, bind, Except.bind, pure, Except.pure,
          List.lookup_cons] at h
    | d :: s :: more =>
      cases hd : d.eval .destination scope with
      | error err => simp [assemble, placed, slots, hd, bind, Except.bind] at h
      | ok destination =>
        cases hs : s.eval .source scope with
        | error err =>
          simp [assemble, placed, slots, hd, hs, bind, Except.bind, pure, Except.pure] at h
        | ok source =>
          simp [assemble, placed, slots, hd, hs, bind, Except.bind, pure, Except.pure] at h
          cases h
          exact .basic hd hs
  | extended op =>
    match operands with
    | [] => simp [assemble, placed, slots, bind, Except.bind, pure, Except.pure] at h
    | s :: more =>
      cases hs : s.eval .source scope with
      | error err => simp [assemble, placed, slots, hs, bind, Except.bind] at h
      | ok source =>
        simp [assemble, placed, slots, hs, bind, Except.bind, pure, Except.pure] at h
        cases h
        exact .extended hs

theorem evaluates_of_assemble (complete : o.Complete) (h : o.assemble scope = .ok i) :
    Evaluates scope o i := by
  have taken := evaluates_take h
  rwa [List.take_of_length_le (Nat.le_of_eq complete)] at taken

theorem placed_take (o : Operation) :
    (⟨o.op, o.operands.take o.op.arity⟩ : Operation).placed = o.placed := by
  obtain ⟨op, operands⟩ := o
  cases op with
  | basic op => match operands with | [] | [_] | _ :: _ :: _ => rfl
  | extended op => match operands with | [] | _ :: _ => rfl

namespace Evaluates

theorem wellFormed (h : Evaluates scope o i) : i.WellFormed := by
  cases h with
  | basic hd hs =>
    refine ⟨(Expr.fits_of_eval hs).1, fun operand same => ?_, rfl⟩
    cases same
    exact (Expr.fits_of_eval hd).1
  | extended hs => exact ⟨(Expr.fits_of_eval hs).1, by simp, rfl⟩

/-- The words of an operation are as many as were counted before any symbol had an address. -/
theorem length_encode (h : Evaluates scope o i) : i.encode.length = o.size := by
  cases h with
  | basic hd hs =>
    have first := (Expr.fits_of_eval hd).2
    have second := (Expr.fits_of_eval hs).2
    simp only [Instruction.encode, size, placed, slots, List.zip_cons_cons, List.zip_nil_right,
      List.filter_cons, Option.bind_some, ← first, ← second]
    rename_i destination source
    cases destination.word <;> cases source.word <;> rfl
  | extended hs =>
    have present := (Expr.fits_of_eval hs).2
    simp only [Instruction.encode, size, placed, slots, List.zip_cons_cons, List.zip_nil_right,
      List.filter_cons, ← present]
    rename_i source
    cases source.word <;> rfl

theorem eval (h : Evaluates scope o i) {operand : Slot × Expr} (member : operand ∈ o.placed) :
    ∃ value, operand.2.eval operand.1 scope = .ok value := by
  cases h with
  | basic hd hs =>
    rcases List.mem_cons.mp member with rfl | rest
    · exact ⟨_, hd⟩
    · rw [List.mem_singleton.mp rest]
      exact ⟨_, hs⟩
  | extended hs =>
    rw [List.mem_singleton.mp member]
    exact ⟨_, hs⟩

theorem exists_placed (h : Evaluates scope o i) {e : Expr} (member : e ∈ o.operands) :
    ∃ slot, (slot, e) ∈ o.placed := by
  cases h with
  | basic hd hs =>
    rcases List.mem_cons.mp member with rfl | rest
    · exact ⟨.destination, List.mem_cons_self⟩
    · rw [List.mem_singleton.mp rest]
      exact ⟨.source, List.mem_cons_of_mem _ List.mem_cons_self⟩
  | extended hs =>
    rw [List.mem_singleton.mp member]
    exact ⟨.source, List.mem_cons_self⟩

/-- The literals of all operands can be added up. -/
theorem sumsFit (h : Evaluates scope o i) : o.sumsFit = true := by
  refine List.all_eq_true.mpr fun operand member => ?_
  obtain ⟨value, made⟩ := h.eval member
  obtain ⟨-, -, -, fits, -⟩ := Expr.eval_eq_ok.mp made
  exact fits

/-- Every name that an operand refers to has an address. -/
theorem lookup (h : Evaluates scope o i) {e : Expr} (operand : e ∈ o.operands) {name : String}
    (member : name ∈ e.references) : ∃ address, scope.lookup name = .ok address := by
  obtain ⟨slot, placed⟩ := h.exists_placed operand
  obtain ⟨value, made⟩ := h.eval placed
  exact Expr.lookup_of_eval made member

end Evaluates

end Operation

namespace Content

/-- An operation has all its operands. -/
def Complete : Content → Prop
  | operation o => o.Complete
  | data _ | mark => True

theorem words_operation {o : Operation} {scope : Scope} {ws : List Word} :
    (operation o).words scope = .ok ws ↔ ∃ i, o.assemble scope = .ok i ∧ i.encode = ws := by
  cases made : o.assemble scope <;> simp [words, made, Except.map]

theorem length_words {c : Content} {scope : Scope} {ws : List Word}
    (h : c.words scope = .ok ws) : ws.length = c.size := by
  cases c with
  | operation o =>
    obtain ⟨i, made, rfl⟩ := words_operation.mp h
    rw [(Operation.evaluates_take made).length_encode, Operation.size, Operation.placed_take]
    rfl
  | data ws' => simp_all [words, size]
  | mark => simp_all [words, size]

end Content

/-! ### Predicted sizes -/

/-- What an operation is said to take before any symbol has an address is what it takes.  An operand
has its extra word exactly if the expression needs one, its mode is the one that its bits stand for
in the slot, and the words of an operation are as many as its size, whatever number of operands is
written. -/
theorem size_eq_length_of_words :
    (∀ (e : Expr) (slot : Slot) (scope : Scope) (operand : Operand),
      e.eval slot scope = .ok operand →
        (operand.word.isSome ↔ e.needsWord slot) ∧
        (operand.word.isSome ↔ operand.mode.needsWord) ∧
        Mode.ofBits? operand.mode.bits slot = some operand.mode) ∧
    ∀ (o : Operation) (scope : Scope) (ws : List Word),
      (Content.operation o).words scope = .ok ws →
        ws.length = o.size ∧ (Content.operation o).measure = .ok ws.length := by
  constructor
  · intro e slot scope operand h
    obtain ⟨fits, needs⟩ := Expr.fits_of_eval h
    exact ⟨by rw [needs], by rw [fits.word], Mode.ofBits?_bits fits.mode⟩
  · intro o scope ws h
    have length : ws.length = o.size := Content.length_words h
    obtain ⟨i, made, -⟩ := Content.words_operation.mp h
    have fit : o.sumsFit = true := by
      rw [Operation.sumsFit, ← Operation.placed_take]
      exact (Operation.evaluates_take made).sumsFit
    exact ⟨length, by rw [Content.measure, if_pos fit, length]⟩

/-- The offset of `[J+5-5]` cancels, `31` is no short literal, and a third operand takes no room. -/
theorem size_eq_length_three_operands :
    let base : Expr := ⟨[⟨none, .register .j⟩, ⟨some .plus, .literal 5⟩, ⟨some .minus, .literal 5⟩],
      true⟩
    let number : Expr := ⟨[⟨none, .literal 31⟩], false⟩
    let o : Operation := ⟨.basic .set, [base, number, number]⟩
    let scope : Scope := ⟨.empty, "", none⟩
    base.needsWord .destination = false ∧ number.needsWord .source = true ∧
      ∃ ws, (Content.operation o).words scope = .ok ws ∧ ws.length = o.size ∧ ws.length = 2 := by
  intro base number o scope
  have atBase : base.eval .destination scope = .ok ⟨.atRegister .j, none⟩ := by decide
  have next : number.eval .source scope = .ok ⟨.next, some 31⟩ := by decide
  obtain ⟨none_, -, -⟩ := size_eq_length_of_words.1 base .destination scope _ atBase
  obtain ⟨some_, -, -⟩ := size_eq_length_of_words.1 number .source scope _ next
  have made : (Content.operation o).words scope = .ok [0x7DE1, 31] := by decide
  refine ⟨by simpa using none_, by simpa using some_, _, made, ?_, rfl⟩
  exact (size_eq_length_of_words.2 o scope _ made).1

end Dcpu16
