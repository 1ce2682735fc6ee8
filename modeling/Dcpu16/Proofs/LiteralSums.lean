import Dcpu16.Proofs.Addressing
import Dcpu16.Proofs.LabelReferences

/-! Sums of literals.  An operand has any number of literals, and 32 bits to add them up.  Their sum
is exact if every sum on the way, from left to right, has 32 bits.  Otherwise there is none, and the
operand has neither a size nor a mode.  It takes more than 32768 literals of one sign for that, and
196613 characters.  Of every such length there is a text that is read as an operand without a
sum. -/

namespace Dcpu16

open Text

/-! ### Sums on the way -/

namespace Expr

/-- The sum of the literals among the first `n` terms. -/
def sumUpTo (e : Expr) (n : Nat) : Int :=
  literalSum { e with terms := e.terms.take n }

/-- Every sum that arises when the literals are added from left to right has 32 bits. -/
def SumsInRange (e : Expr) : Prop :=
  ∀ n, sumMin ≤ e.sumUpTo n ∧ e.sumUpTo n ≤ sumMax

variable {e : Expr} {t : Term} {ts : List Term} {indirect : Bool} {n : Nat}

@[simp] theorem sumUpTo_zero : e.sumUpTo 0 = 0 := rfl

@[simp] theorem sumUpTo_nil : sumUpTo ⟨[], indirect⟩ n = 0 := by
  rw [sumUpTo, List.take_nil]
  rfl

@[simp] theorem sumUpTo_cons_succ :
    sumUpTo ⟨t :: ts, indirect⟩ (n + 1) = t.literalValue + sumUpTo ⟨ts, indirect⟩ n := rfl

/-- The literals of `ts` are added to a sum in range.  Each step tests the sum that it comes to. -/
theorem sumsFitFrom_iff {sum : Int} (start : sumMin ≤ sum ∧ sum ≤ sumMax) :
    sumsFitFrom sum ts = true ↔
      ∀ n, sumMin ≤ sum + sumUpTo ⟨ts, indirect⟩ n ∧ sum + sumUpTo ⟨ts, indirect⟩ n ≤ sumMax := by
  induction ts generalizing sum with
  | nil => simpa [sumsFitFrom] using start
  | cons t ts ih =>
    simp only [sumsFitFrom, Bool.and_eq_true, decide_eq_true_eq]
    constructor
    · rintro ⟨first, rest⟩ n
      cases n with
      | zero => simpa using start
      | succ n =>
        rw [sumUpTo_cons_succ, ← Int.add_assoc]
        exact (ih first).mp rest n
    · intro all
      have first : sumMin ≤ sum + t.literalValue ∧ sum + t.literalValue ≤ sumMax := by
        simpa using all 1
      refine ⟨first, (ih first).mpr fun n => ?_⟩
      rw [Int.add_assoc, ← sumUpTo_cons_succ]
      exact all (n + 1)

theorem sumFits_iff : e.sumFits = true ↔ e.SumsInRange := by
  have start : sumMin ≤ 0 ∧ (0 : Int) ≤ sumMax := by decide
  rw [sumFits, sumsFitFrom_iff start]
  simp only [Int.zero_add]
  rfl

theorem sumFits_eq_false : e.sumFits = false ↔ ¬ e.SumsInRange := by
  rw [← sumFits_iff, Bool.not_eq_true]

theorem checkedSum_of_inRange (h : e.SumsInRange) : e.checkedSum = .ok e.literalSum := by
  rw [checkedSum, if_pos (sumFits_iff.mpr h)]

theorem checkedSum_of_overflow (h : ¬ e.SumsInRange) : e.checkedSum = .error .overflow := by
  rw [checkedSum, sumFits_eq_false.mpr h]
  rfl

/-! ### Many literals -/

/-- Each literal is a word at most, and those of the other sign do not count. -/
theorem sumUpTo_bounds (e : Expr) (n : Nat) :
    -(0xFFFF * e.terms.countP fun t => t.literalValue < 0) ≤ e.sumUpTo n ∧
      e.sumUpTo n ≤ 0xFFFF * e.terms.countP fun t => 0 < t.literalValue := by
  obtain ⟨ts, indirect⟩ := e
  induction ts generalizing n with
  | nil => simp
  | cons t ts ih =>
    cases n with
    | zero =>
      rw [sumUpTo_zero]
      omega
    | succ n =>
      obtain ⟨low, high⟩ := ih n
      obtain ⟨least, most⟩ := t.literalValue_bounds
      rw [sumUpTo_cons_succ]
      simp only [List.countP_cons, decide_eq_true_eq] at low high ⊢
      split <;> split <;> omega

theorem sumsInRange_of_few (few : e.terms.countP (fun t => 0 < t.literalValue) ≤ 32768)
    (few' : e.terms.countP (fun t => t.literalValue < 0) ≤ 32768) : e.SumsInRange := by
  intro n
  obtain ⟨low, high⟩ := e.sumUpTo_bounds n
  simp only [sumMin, sumMax]
  omega

end Expr

/-! ### Long texts -/

/-- Four characters make a literal of 9999 at most, whatever its base. -/
theorem le_of_readLiteral {token : List Char} {w : Word} (h : readLiteral token = .ok w)
    (short : token.length ≤ 4) : w.toNat ≤ 9999 := by
  have value := readLiteral_eq_ok.mp h
  unfold literalValue? at value
  cases mark : Numeral.afterHexMark? token with
  | none =>
    rw [mark] at value
    have below := Numeral.lt_of_readNat? (by decide) value
    have most : 10 ^ token.length ≤ 10 ^ 4 := Nat.pow_le_pow_right (by decide) short
    omega
  | some digits =>
    rw [mark] at value
    obtain ⟨x, -, rfl⟩ := Numeral.afterHexMark?_eq_some.mp mark
    have few : digits.length ≤ 2 := by
      rw [List.length_cons, List.length_cons] at short
      omega
    have below := Numeral.lt_of_readNat? (by decide) value
    have most : 16 ^ digits.length ≤ 16 ^ 2 := Nat.pow_le_pow_right (by decide) few
    omega

theorem Atom.readLiteral_of_read {token : List Char} {w : Word}
    (h : Atom.read token = .ok (.literal w)) : readLiteral token = .ok w := by
  unfold Atom.read at h
  split at h
  · cases read : readLiteral token with
    | error e => simp [read, Except.map] at h
    | ok w' => simpa [read, Except.map] using h
  · dsimp only at h
    split at h
    · cases h
    · cases h
    · split at h <;> cases h

namespace Term

/-- A literal above 9999. -/
def isLong (t : Term) : Bool :=
  9999 < t.literalValue.natAbs

/-- A long literal has five characters at least, and any other term has one. -/
theorem length_of_read {t : Term} {token : List Char} (read : Atom.read token = .ok t.atom) :
    (if t.isLong then 5 else 1) ≤ token.length := by
  split
  · next long =>
    simp only [isLong, decide_eq_true_eq] at long
    cases atom : t.atom with
    | literal w =>
      have value : t.literalValue.natAbs = w.toNat := by
        simp only [literalValue, atom, signed]
        split <;> simp
      rw [atom] at read
      by_contra short
      have small := le_of_readLiteral (Atom.readLiteral_of_read read) (by omega)
      omega
    | _ => simp [literalValue, atom] at long
  · cases token with
    | nil => cases read
    | cons c cs => exact Nat.succ_le_succ (Nat.zero_le _)

end Term

namespace Expr

variable {e : Expr} {ts : List Term} {text : List Char}

theorem natAbs_sumUpTo_le (e : Expr) (n : Nat) :
    (e.sumUpTo n).natAbs ≤ 9999 * e.terms.length + 55536 * e.terms.countP Term.isLong := by
  obtain ⟨ts, indirect⟩ := e
  induction ts generalizing n with
  | nil => simp
  | cons t ts ih =>
    cases n with
    | zero => simp
    | succ n =>
      have rest := ih n
      obtain ⟨least, most⟩ := t.literalValue_bounds
      rw [sumUpTo_cons_succ]
      simp only [List.countP_cons, List.length_cons] at rest ⊢
      split
      · omega
      · next short =>
        have small : t.literalValue.natAbs ≤ 9999 := by simpa [Term.isLong] using short
        omega

/-- Each term takes its token and a sign in front of it.  The sign of the first term can be missing,
or stand in front of the pieces. -/
theorem length_of_readTerms {isFirst : Bool} {sign left : Option Sign} {pieces : List Piece}
    (h : readTerms isFirst sign pieces = .ok (ts, left)) :
    2 * ts.length + 4 * ts.countP Term.isLong ≤
      (pieces.flatMap Piece.chars).length + if isFirst || sign.isSome then 1 else 0 := by
  induction pieces generalizing isFirst sign ts with
  | nil =>
    cases h
    exact Nat.zero_le _
  | cons piece pieces ih =>
    rw [List.flatMap_cons, List.length_append]
    cases piece with
    | sign s =>
      have rest := ih h
      rw [Option.isSome_some, Bool.or_true, if_pos rfl] at rest
      have width : (Piece.sign s).chars.length = 1 := rfl
      omega
    | run token =>
      obtain ⟨leads, atom, us, read, later, rfl⟩ := readTerms_run_eq_ok.mp h
      have rest := ih later
      have width : _ ≤ token.length := Term.length_of_read (t := ⟨sign, atom⟩) read
      have first : (isFirst || sign.isSome) = true := by simpa using leads
      rw [List.countP_cons, List.length_cons, first, if_pos rfl, Piece.chars]
      rw [Option.isSome_none, Bool.or_false, if_neg Bool.false_ne_true] at rest
      split at width
      · next long =>
        rw [if_pos long]
        omega
      · next short =>
        rw [if_neg short]
        omega

theorem length_of_parse (h : parse text = .ok e) :
    2 * e.terms.length + 4 * e.terms.countP Term.isLong ≤ text.length + 1 := by
  obtain ⟨inner, outer, -, -, -, -, read, -⟩ := parse_eq_ok.mp h
  have bracketed : inner.length ≤ (bracket e.indirect inner).length := by
    cases e.indirect with
    | false => exact le_rfl
    | true =>
      rw [bracket, if_pos rfl, List.length_cons, List.length_append]
      omega
  calc
    2 * e.terms.length + 4 * e.terms.countP Term.isLong
        ≤ ((Piece.cut (trim inner)).flatMap Piece.chars).length + 1 := length_of_readTerms read
    _ ≤ (trim inner).length + 1 := by
      rw [Piece.flatMap_chars_cut]
      exact Nat.succ_le_succ (List.length_filter_le _ _)
    _ ≤ inner.length + 1 := Nat.succ_le_succ (trim_sublist inner).length_le
    _ ≤ (trim text).length + 1 := Nat.succ_le_succ (outer ▸ bracketed)
    _ ≤ text.length + 1 := Nat.succ_le_succ (trim_sublist text).length_le

/-- With fewer characters than 32769 literals of five digits take, no sum leaves the range. -/
theorem sumsInRange_of_short (h : parse text = .ok e) (short : text.length < 196613) :
    e.SumsInRange := by
  intro n
  have width := length_of_parse h
  have long : e.terms.countP Term.isLong ≤ e.terms.length := List.countP_le_length
  have sum := e.natAbs_sumUpTo_le n
  -- A long literal counts as six characters here and any other term as two.  The sum is reached
  -- with the fewest characters if all literals are long, and then it takes 32769 of them.
  have within : (e.sumUpTo n).natAbs < 0x80000000 := lt_of_le_of_lt sum (by omega)
  simp only [sumMin, sumMax]
  omega

end Expr

/-! ### Sizes and modes -/

theorem SymbolStore.resolve_ne_overflow (symbols : SymbolStore) (table : SymbolTable)
    (file name : String) (scope : Option SymbolId) :
    symbols.resolve table file name scope ≠ .error (.fault .overflow) := by
  unfold resolve
  dsimp only
  split
  · simp
  · split
    · split
      · simp
      · next id =>
        cases symbols.mangled? id <;> simp [orFault, bind, Except.bind, pure, Except.pure]
    · split <;> simp

namespace Scope

variable (scope : Scope) (name : String)

theorem find_ne_overflow : scope.find name ≠ .error (.fault .overflow) := by
  have resolves := scope.program.symbols.resolve_ne_overflow scope.program.table scope.file name
    scope.global
  unfold find Program.resolve
  cases found : scope.program.symbols.resolve scope.program.table scope.file name scope.global with
  | error stop => simpa [found, bind, Except.bind] using resolves
  | ok id? => cases id? <;> simp [bind, Except.bind, pure, Except.pure]

/-- Nothing is added when a name is looked up. -/
theorem lookup_ne_overflow : scope.lookup name ≠ .error (.fault .overflow) := by
  have finds := scope.find_ne_overflow name
  cases found : scope.find name with
  | error stop => simpa [lookup, found, bind, Except.bind] using finds
  | ok id =>
    rw [lookup_of_find found]
    cases hSym : scope.program.symbols.get? id with
    | none => simp [addressOf, hSym, orFault, bind, Except.bind]
    | some sym =>
      rw [addressOf_of_get? hSym]
      split <;> simp

end Scope

theorem Content.measure_eq_overflow {o : Operation} :
    (operation o).measure = .error .overflow ↔ ∃ p ∈ o.placed, ¬ p.2.SumsInRange := by
  simp only [← Expr.sumFits_eq_false]
  rw [measure, Operation.sumsFit]
  cases fits : o.placed.all fun p => p.2.sumFits with
  | false => simpa using fits
  | true => simpa using fits

namespace Expr

variable {e : Expr} {slot : Slot} {scope : Scope} {operand : Operand} {text : List Char}

theorem sumTerms_ne_overflow (ts : List Term) :
    sumTerms scope ts ≠ .error (.fault .overflow) := by
  have term (t : Term) : termValue scope t ≠ .error (.fault .overflow) := by
    unfold termValue
    cases t.atom with
    | reference name =>
      have looked := scope.lookup_ne_overflow name
      cases found : scope.lookup name <;> simp_all [Except.map]
    | _ => simp
  induction ts with
  | nil => simp [sumTerms]
  | cons t ts ih =>
    have first := term t
    rw [sumTerms]
    cases made : termValue scope t with
    | error stop => simpa [made, bind, Except.bind] using first
    | ok v => cases rest : sumTerms scope ts <;> simp_all [bind, Except.bind, pure, Except.pure]

/-- Evaluation overflows where all else goes well, but the literals have no sum. -/
theorem eval_eq_overflow :
    e.eval slot scope = .error (.fault .overflow) ↔
      e.checkBase = .ok () ∧ (∀ t ∈ e.terms, t.Resolves scope) ∧ ¬ e.SumsInRange := by
  rw [← sumFits_eq_false]
  unfold eval
  cases e.checkBase with
  | error err => simp [Except.mapError, bind, Except.bind]
  | ok u =>
    simp only [Except.mapError, bind, Except.bind, true_and]
    cases sum : e.value scope with
    | error stop =>
      have unresolved : ¬ ∀ t ∈ e.terms, t.Resolves scope := by
        intro resolves
        cases sum.symm.trans (sumTerms_eq_ok.mpr ⟨resolves, rfl⟩)
      have other : stop ≠ .fault .overflow := by
        rintro rfl
        exact sumTerms_ne_overflow _ sum
      simp [unresolved, other]
    | ok v =>
      have resolves := (sumTerms_eq_ok.mp sum).1
      cases e.sumFits with
      | false => simpa using resolves
      | true => cases made : e.toOperand slot v <;> simp [made]

/-! ### Rows of literals -/

/-- The largest literal, and once more behind each of the signs. -/
def rowText (signs : List Sign) : List Char :=
  "65535".toList ++ signs.flatMap fun s => s.char :: "65535".toList

/-- The expression that a row of literals is read as. -/
def row (signs : List Sign) : Expr :=
  ⟨⟨none, .literal 0xFFFF⟩ :: signs.map fun s => ⟨some s, .literal 0xFFFF⟩, false⟩

theorem length_rowText (signs : List Sign) : (rowText signs).length = 5 + 6 * signs.length := by
  have width : "65535".toList.length = 5 := rfl
  unfold rowText
  generalize "65535".toList = digits at width
  induction signs with
  | nil => simpa using width
  | cons s signs ih =>
    simp only [List.flatMap_cons, List.length_append, List.length_cons] at ih ⊢
    omega

theorem atom_of_mem_row {signs : List Sign} {t : Term} (member : t ∈ (row signs).terms) :
    t.atom = .literal 0xFFFF := by
  rcases List.mem_cons.mp member with rfl | member
  · rfl
  · obtain ⟨s, -, rfl⟩ := List.mem_map.mp member
    rfl

theorem bases_row (signs : List Sign) :
    ((row signs).terms.filter fun t => t.atom.isBase).length ≤ 1 := by
  rw [List.filter_eq_nil_iff.mpr fun t member => by rw [atom_of_mem_row member]; decide]
  exact Nat.zero_le 1

theorem parse_rowText (signs : List Sign) : parse (rowText signs) = .ok (row signs) := by
  have spells : Spells "65535".toList (.literal 0xFFFF) :=
    spells_decimal (by decide) (by decide)
  let link (s : Sign) : Link :=
    ⟨s, [s.char], "65535".toList, .literal 0xFFFF, ⟨[], [], rfl, List.forall_mem_nil _⟩, spells⟩
  have text : (signs.map link).flatMap Link.text =
      signs.flatMap fun s => s.char :: "65535".toList := List.flatMap_map ..
  have terms : (signs.map link).map Link.term =
      signs.map fun s => ⟨some s, .literal 0xFFFF⟩ := List.map_map ..
  have read := parse_links spells (signs.map link) (by rw [terms]; exact bases_row signs) false
  rwa [text, terms] at read

/-- There is nothing to look up in a row of literals, and nothing to refuse. -/
theorem evaluates_row (signs : List Sign) (scope : Scope) :
    (row signs).checkBase = .ok () ∧ (row signs).value scope = .ok (row signs).literalSum := by
  constructor
  · refine (checkBase_eq_ok (bases_row signs)).mpr fun t member isBase => ?_
    rw [atom_of_mem_row member] at isBase
    cases isBase
  · refine value_of_no_reference (Bool.eq_false_iff.mpr fun refers => ?_)
    obtain ⟨t, member, name, atom⟩ := hasReference_iff.mp refers
    cases (atom_of_mem_row member).symm.trans atom

theorem literalSum_row (signs : List Sign) :
    (row signs).literalSum = 0xFFFF * (1 + signs.count .plus - signs.count .minus) := by
  have first : (⟨none, .literal 0xFFFF⟩ : Term).literalValue = 0xFFFF := by decide
  have plus : (⟨some .plus, .literal 0xFFFF⟩ : Term).literalValue = 0xFFFF := by decide
  have minus : (⟨some .minus, .literal 0xFFFF⟩ : Term).literalValue = -0xFFFF := by decide
  induction signs with
  | nil => decide
  | cons s signs ih =>
    simp only [row, literalSum, List.foldr_cons, List.map_cons, first] at ih ⊢
    cases s with
    | plus =>
      rw [plus, List.count_cons_self, List.count_cons_of_ne (by decide)]
      omega
    | minus =>
      rw [minus, List.count_cons_self, List.count_cons_of_ne (by decide)]
      omega

theorem sumUpTo_row (signs : List Sign) (n : Nat) :
    (row signs).sumUpTo (n + 1) =
      0xFFFF * (1 + (signs.take n).count .plus - (signs.take n).count .minus) := by
  rw [← literalSum_row, sumUpTo, row, List.take_succ_cons, ← List.map_take]
  rfl

/-- After 32768 plus signs the sum has left the range, whatever comes behind. -/
theorem not_sumsInRange_row {n : Nat} (many : 32768 ≤ n) (rest : List Sign) :
    ¬ (row (List.replicate n .plus ++ rest)).SumsInRange := by
  intro inRange
  have most := (inRange (n + 1)).2
  rw [sumUpTo_row, List.take_left' (List.length_replicate ..), List.count_replicate_self,
    List.count_replicate, sumMax, if_neg (by decide)] at most
  omega

theorem not_sumsInRange_replicate {n : Nat} (many : 32768 ≤ n) :
    ¬ (row (List.replicate n .plus)).SumsInRange := by
  simpa using not_sumsInRange_row many []

/-- The shortest row of literals that overflows, with blanks in front of it. -/
theorem exists_overflow_of_le {m : Nat} (long : 196613 ≤ m) :
    ∃ text e, text.length = m ∧ parse text = .ok e ∧ ¬ e.SumsInRange := by
  let signs := List.replicate 32768 Sign.plus
  let blanks := List.replicate (m - 196613) ' '
  have blank : ∀ c ∈ blanks, isBlank c = true := by
    intro c member
    rw [List.eq_of_mem_replicate member]
    decide
  refine ⟨blanks ++ rowText signs, row signs, ?_, ?_, not_sumsInRange_replicate le_rfl⟩
  · rw [List.length_append, length_rowText, List.length_replicate, List.length_replicate]
    omega
  · rw [parse, trim_append blank, ← parse]
    exact parse_rowText signs

/-- The literals of an operand that has been read have their exact sum, if every sum on the way has
32 bits, and no sum otherwise.  The latter takes many literals of one sign and a long text, and from
that length on there are such texts.  Their operands have no size, and no mode either, although the
terms are added exactly when they are evaluated.  Where there is a mode, it is that of the exact
sum, and the size agrees with it. -/
theorem checkedSum_exact_or_overflow (read : parse text = .ok e) :
    (e.SumsInRange ∧ e.checkedSum = .ok e.literalSum ∨
      ¬ e.SumsInRange ∧ e.checkedSum = .error .overflow) ∧
    (¬ e.SumsInRange → 196613 ≤ text.length ∧
      (32768 < e.terms.countP (fun t => 0 < t.literalValue) ∨
        32768 < e.terms.countP fun t => t.literalValue < 0)) ∧
    (∀ m, 196613 ≤ m → ∃ text' e', text'.length = m ∧ parse text' = .ok e' ∧ ¬ e'.SumsInRange) ∧
    (∀ o slot, (slot, e) ∈ o.placed → ¬ e.SumsInRange →
      (Content.operation o).measure = .error .overflow) ∧
    (∀ scope, e.hasReference = false → e.value scope = .ok e.literalSum) ∧
    (∀ slot scope, e.eval slot scope = .error (.fault .overflow) ↔
      e.checkBase = .ok () ∧ (∀ t ∈ e.terms, t.Resolves scope) ∧ ¬ e.SumsInRange) ∧
    ∀ slot scope operand, e.eval slot scope = .ok operand →
      e.SumsInRange ∧ e.HasMode slot (e.total scope) operand.mode ∧
        operand.Holds (e.total scope) ∧ operand.word.isSome = e.needsWord slot := by
  refine ⟨?_, fun overflow => ⟨?_, ?_⟩, fun m long => exists_overflow_of_le long,
    fun o slot placed overflow => ?_, fun scope free => value_of_no_reference free,
    fun slot scope => eval_eq_overflow, fun slot scope operand made => ?_⟩
  · by_cases inRange : e.SumsInRange
    · exact .inl ⟨inRange, checkedSum_of_inRange inRange⟩
    · exact .inr ⟨inRange, checkedSum_of_overflow inRange⟩
  · by_contra short
    exact overflow (sumsInRange_of_short read (by omega))
  · by_contra few
    obtain ⟨few, few'⟩ := not_or.mp few
    exact overflow (sumsInRange_of_few (Nat.le_of_not_lt few) (Nat.le_of_not_lt few'))
  · exact Content.measure_eq_overflow.mpr ⟨_, placed, overflow⟩
  · obtain ⟨-, v, sum, fits, converted⟩ := eval_eq_ok.mp made
    obtain ⟨-, rfl⟩ := sumTerms_eq_ok.mp sum
    obtain ⟨inner, -, -, -, -, -, -, bases⟩ := parse_eq_ok.mp read
    obtain ⟨holds, mode⟩ := (toOperand_eq_ok bases).mp converted
    exact ⟨sumFits_iff.mp fits, mode, holds, (fits_of_eval made).2⟩

/-- The shortest text that overflows.  A jump to it has no size. -/
theorem checkedSum_exact_or_overflow_row :
    let text := rowText (List.replicate 32768 .plus)
    let e := row (List.replicate 32768 .plus)
    let jump : Operation := ⟨.extended .jsr, [e]⟩
    text.length = 196613 ∧ parse text = .ok e ∧ e.checkedSum = .error .overflow ∧
      (Content.operation jump).measure = .error .overflow := by
  intro text e jump
  have read : parse text = .ok e := parse_rowText _
  have overflow : ¬ e.SumsInRange := not_sumsInRange_replicate le_rfl
  obtain ⟨sum, -, -, size, -⟩ := checkedSum_exact_or_overflow read
  refine ⟨?_, read, ?_, size jump .source List.mem_cons_self overflow⟩
  · rw [length_rowText, List.length_replicate]
  · exact (sum.resolve_left fun exact => overflow exact.1).2

/-- Literals that cancel out, of which the first half leaves the range.  Their sum is zero when they
are evaluated, and yet evaluation overflows. -/
theorem checkedSum_cancelling_row :
    let signs := List.replicate 32768 .plus ++ List.replicate 32769 .minus
    parse (rowText signs) = .ok (row signs) ∧ (row signs).literalSum = 0 ∧
      sumMax < (row signs).sumUpTo 32769 ∧ (row signs).checkedSum = .error .overflow ∧
      ∀ slot scope, (row signs).value scope = .ok 0 ∧
        (row signs).eval slot scope = .error (.fault .overflow) := by
  intro signs
  have zero : (row signs).literalSum = 0 := by
    rw [literalSum_row, List.count_append, List.count_append, List.count_replicate_self,
      List.count_replicate_self, List.count_replicate, List.count_replicate]
    rfl
  have overflow : ¬ (row signs).SumsInRange := not_sumsInRange_row le_rfl _
  refine ⟨parse_rowText signs, zero, ?_, checkedSum_of_overflow overflow, fun slot scope => ?_⟩
  · rw [sumUpTo_row, List.take_left' (List.length_replicate ..), List.count_replicate_self,
      List.count_replicate]
    decide
  · obtain ⟨base, sum⟩ := evaluates_row signs scope
    rw [zero] at sum
    exact ⟨sum, eval_eq_overflow.mpr ⟨base, (sumTerms_eq_ok.mp sum).1, overflow⟩⟩

end Expr

end Dcpu16
