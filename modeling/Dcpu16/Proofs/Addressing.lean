import Dcpu16.Proofs.Operands
import Dcpu16.Proofs.Resolution

/-! The addressing mode of an operand.  The value of an expression is the exact sum of its literals
and of the addresses it refers to.  Whether the expression can be evaluated, and which mode and
which extra word it has then, follows from this value, from the base of the expression, its brackets
and its slot. -/

namespace Dcpu16

/-! ### Values -/

/-- The address of the symbol that a name stands for. -/
def Scope.address? (scope : Scope) (name : String) : Option Word :=
  match scope.program.resolve scope.file name scope.global with
  | .ok (some id) => (scope.program.symbols.get? id).bind Symbol.address
  | _ => none

theorem Scope.lookup_eq_address? {scope : Scope} {name : String} {word : Word} :
    scope.lookup name = .ok word ↔ scope.address? name = some word := by
  constructor
  · intro h
    obtain ⟨x, sym, found, hSym, address⟩ := exists_of_lookup h
    simp [address?, found, hSym, address]
  · intro h
    unfold address? at h
    split at h
    · next x found =>
      obtain ⟨sym, hSym, address⟩ := Option.bind_eq_some_iff.mp h
      rw [lookup_of_find (find_eq_ok.mpr found), addressOf_of_get? hSym, address]
    · cases h

/-- What a term adds to the value of its expression. -/
def Term.amount (scope : Scope) (t : Term) : Int :=
  match t.atom with
  | .literal value => t.signed value.toNat
  | .reference name => t.signed ((scope.address? name).getD 0).toNat
  | .register _ | .special _ => 0

/-- The name that the term refers to, if it does, has an address. -/
def Term.Resolves (scope : Scope) (t : Term) : Prop :=
  ∀ name, t.atom = .reference name → (scope.address? name).isSome

namespace Expr

variable {e : Expr} {slot : Slot} {scope : Scope} {operand : Operand} {v : Int} {t u : Term}
  {ts : List Term}

/-- The exact sum of the literals and of the addresses that the expression refers to. -/
def total (e : Expr) (scope : Scope) : Int :=
  e.terms.foldr (fun t sum => t.amount scope + sum) 0

/-- The expression refers to a symbol. -/
def Refers (e : Expr) : Prop :=
  ∃ t ∈ e.terms, ∃ name, t.atom = .reference name

/-- There is something to add to a base. -/
def Offset (e : Expr) : Prop :=
  e.literalSum ≠ 0 ∨ e.Refers

theorem termValue_eq_ok :
    termValue scope t = .ok v ↔ t.Resolves scope ∧ t.amount scope = v := by
  unfold termValue Term.Resolves Term.amount
  cases t.atom with
  | reference name =>
    cases found : scope.lookup name with
    | ok word => simp [found, Scope.lookup_eq_address?.mp found, Except.map]
    | error err =>
      have missing : scope.address? name = none := by
        rw [Option.eq_none_iff_forall_ne_some]
        intro word h
        cases found.symm.trans (Scope.lookup_eq_address?.mpr h)
      simp [found, missing, Except.map]
  | _ => simp

theorem sumTerms_eq_ok :
    sumTerms scope ts = .ok v ↔
      (∀ t ∈ ts, t.Resolves scope) ∧ ts.foldr (fun t sum => t.amount scope + sum) 0 = v := by
  induction ts generalizing v with
  | nil => simp [sumTerms]
  | cons t ts ih =>
    rw [sumTerms_cons_ok, List.forall_mem_cons, List.foldr_cons]
    simp only [termValue_eq_ok, ih]
    constructor
    · rintro ⟨_, _, ⟨first, rfl⟩, ⟨rest, rfl⟩, rfl⟩
      exact ⟨⟨first, rest⟩, rfl⟩
    · rintro ⟨⟨first, rest⟩, rfl⟩
      exact ⟨_, _, ⟨first, rfl⟩, ⟨rest, rfl⟩, rfl⟩

theorem hasReference_iff : e.hasReference = true ↔ e.Refers := by
  have refers (t : Term) (name : String) : t.reference? = some name ↔ t.atom = .reference name := by
    unfold Term.reference?
    cases t.atom <;> simp
  simp only [hasReference, references, Bool.not_eq_true', List.isEmpty_eq_false_iff_exists_mem,
    List.mem_filterMap, refers]
  constructor
  · rintro ⟨name, t, member, h⟩
    exact ⟨t, member, name, h⟩
  · rintro ⟨t, member, name, h⟩
    exact ⟨name, t, member, h⟩

theorem hasOffset_iff : e.hasOffset = true ↔ e.Offset := by
  rw [hasOffset, Bool.or_eq_true, hasReference_iff, decide_eq_true_eq, Offset]

/-! ### Bases -/

/-- The base stands at an end exactly if nothing is before it or nothing behind it. -/
theorem atEdge_iff {before after : List Term} (split : e.terms = before ++ t :: after)
    (others : ∀ u ∈ before ++ after, u.atom.isBase = false) (base : t.atom.isBase = true) :
    (e.terms.head? = some t ∨ e.terms.getLast? = some t) ↔ before = [] ∨ after = [] := by
  have apart {u : Term} (other : u ∈ before ++ after) : u ≠ t := by
    rintro rfl
    cases base.symm.trans (others u other)
  rw [split]
  refine or_congr ⟨fun head => ?_, fun none => by simp [none]⟩
    ⟨fun last => ?_, fun none => by simp [none]⟩
  · cases before with
    | nil => rfl
    | cons u before => exact absurd (Option.some.inj head) (apart (by simp))
  · by_contra some
    rw [List.getLast?_append_of_ne_nil _ (List.cons_ne_nil _ _),
      List.getLast?_cons_of_ne_nil some] at last
    exact apart (List.mem_append_right _ (List.mem_of_getLast? last)) rfl

section Base

variable (bases : (e.terms.filter fun t => t.atom.isBase).length ≤ 1)
include bases

/-- No other term than the base is one. -/
theorem exists_split (member : t ∈ e.terms) (base : t.atom.isBase = true) :
    ∃ before after, e.terms = before ++ t :: after ∧
      ∀ u ∈ before ++ after, u.atom.isBase = false := by
  obtain ⟨before, after, split⟩ := List.append_of_mem member
  refine ⟨before, after, split, fun u other => ?_⟩
  rw [split, List.filter_append, List.filter_cons, if_pos base, List.length_append,
    List.length_cons] at bases
  by_contra isBase
  have counted : 0 < ((before ++ after).filter fun t => t.atom.isBase).length :=
    List.length_pos_of_mem (List.mem_filter.mpr ⟨other, by simpa using isBase⟩)
  rw [List.filter_append, List.length_append] at counted
  omega

theorem eq_of_isBase (member : t ∈ e.terms) (base : t.atom.isBase = true) (member' : u ∈ e.terms)
    (base' : u.atom.isBase = true) : u = t := by
  obtain ⟨before, after, split, others⟩ := exists_split bases member base
  by_contra differ
  have other : u ∈ before ++ after := by
    rw [split] at member'
    simp_all
  cases base'.symm.trans (others u other)

/-- The base of an expression is the atom of a term. -/
theorem base?_eq_some {atom : Atom} (base : atom.isBase = true) :
    e.base? = some atom ↔ ∃ t ∈ e.terms, t.atom = atom := by
  constructor
  · intro h
    exact List.mem_map.mp (List.mem_of_find?_eq_some h)
  · rintro ⟨t, member, rfl⟩
    cases found : e.base? with
    | none =>
      have free := List.find?_eq_none.mp found t.atom (List.mem_map_of_mem member)
      exact absurd base free
    | some atom =>
      obtain ⟨u, member', rfl⟩ := List.mem_map.mp (List.mem_of_find?_eq_some found)
      rw [eq_of_isBase bases member base member' (isBase_of_base? found)]

theorem checkBase_eq_ok :
    e.checkBase = .ok () ↔ ∀ t ∈ e.terms, t.atom.isBase = true →
      (e.terms.head? = some t ∨ e.terms.getLast? = some t) ∧ t.isNegative = false := by
  by_cases some : ∃ t ∈ e.terms, t.atom.isBase = true
  · obtain ⟨t, member, base⟩ := some
    obtain ⟨before, after, split, others⟩ := exists_split bases member base
    have front : before.findIdx? (fun t => t.atom.isBase) = none := by
      rw [List.findIdx?_eq_none_iff]
      exact fun u inside => others u (List.mem_append_left _ inside)
    have position : e.terms.findIdx? (fun t => t.atom.isBase) = some before.length := by
      rw [split, List.findIdx?_append, front, List.findIdx?_cons, if_pos base]
      simp
    have here : e.terms[before.length]? = some t := by simp [split]
    have inside : (before.length ≠ 0 ∧ before.length ≠ e.terms.length - 1) ↔
        ¬ (before = [] ∨ after = []) := by
      rw [split, List.length_append, List.length_cons, ← List.length_eq_zero_iff,
        ← List.length_eq_zero_iff]
      omega
    calc
      e.checkBase = .ok () ↔ (before = [] ∨ after = []) ∧ t.isNegative = false := by
        simp only [checkBase, position, here, inside]
        split_ifs <;> simp_all
      _ ↔ (e.terms.head? = some t ∨ e.terms.getLast? = some t) ∧ t.isNegative = false := by
        rw [atEdge_iff split others base]
      _ ↔ _ := by
        refine ⟨fun h u member' base' => ?_, fun h => h t member base⟩
        rwa [eq_of_isBase bases member base member' base']
  · have none : e.terms.findIdx? (fun t => t.atom.isBase) = none := by
      rw [List.findIdx?_eq_none_iff]
      simpa using some
    rw [checkBase, none]
    exact iff_of_true rfl fun t member base => absurd ⟨t, member, base⟩ some

end Base

end Expr

/-! ### Modes -/

namespace SpecialValue

/-- The mode of a special value that stands alone. -/
def ownMode : SpecialValue → Mode
  | pop => .pop
  | push => .push
  | peek => .peek
  | sp => .sp
  | pc => .pc
  | ex => .ex

/-- What is pushed is a destination, and what is popped a source. -/
def AllowedIn (v : SpecialValue) (slot : Slot) : Prop :=
  (v = push → slot = .destination) ∧ (v = pop → slot = .source)

theorem mode?_eq_some {v : SpecialValue} {slot : Slot} {mode : Mode} :
    v.mode? slot = some mode ↔ v.AllowedIn slot ∧ v.ownMode = mode := by
  cases v <;> cases slot <;> simp [mode?, AllowedIn, ownMode]

end SpecialValue

/-- The operand has its extra word if the mode takes one.  The word is the value modulo `2^16`, and
the value is in range. -/
structure Operand.Holds (operand : Operand) (v : Int) : Prop where
  word : operand.word = if operand.mode.needsWord then some (Word.ofInt v) else none
  inRange : operand.mode.needsWord → -0x8000 ≤ v ∧ v ≤ 0xFFFF

theorem Operand.plain_eq {mode : Mode} (plain : mode.needsWord = false) (v : Int)
    {operand : Operand} : ⟨mode, none⟩ = operand ↔ operand.Holds v ∧ operand.mode = mode := by
  obtain ⟨mode', word⟩ := operand
  constructor
  · rintro ⟨⟩
    exact ⟨⟨by simp [plain], by simp [plain]⟩, rfl⟩
  · rintro ⟨holds, rfl⟩
    have word := holds.word
    simp only [plain, Bool.false_eq_true, if_false] at word
    rw [word]

theorem Operand.store_eq_ok {mode : Mode} (takes : mode.needsWord = true) {operand : Operand}
    {v : Int} : (Word.store v).map (fun w => (⟨mode, some w⟩ : Operand)) = .ok operand ↔
      operand.Holds v ∧ operand.mode = mode := by
  unfold Word.store
  split
  · next inRange =>
    simp only [Except.map, Except.ok.injEq]
    constructor
    · rintro rfl
      exact ⟨⟨by simp [takes], fun _ => inRange⟩, rfl⟩
    · obtain ⟨mode', word⟩ := operand
      rintro ⟨holds, rfl⟩
      have word := holds.word
      simp only [takes, if_true] at word
      rw [word]
  · next outside =>
    refine iff_of_false (by simp [Except.map]) ?_
    rintro ⟨holds, rfl⟩
    exact outside (holds.inRange takes)

namespace Expr

variable {e : Expr} {slot : Slot} {scope : Scope} {operand : Operand} {mode : Mode} {v : Int}
  {t : Term}

/-- One of the terms is this atom. -/
def Has (e : Expr) (atom : Atom) : Prop :=
  ∃ t ∈ e.terms, t.atom = atom

/-- There is no base. -/
def BaseFree (e : Expr) : Prop :=
  ∀ t ∈ e.terms, t.atom.isBase = false

/-- The mode of an expression with the value `v`. -/
inductive HasMode (e : Expr) (slot : Slot) (v : Int) : Mode → Prop
  | register {r : Register} (base : e.Has (.register r)) (direct : e.indirect = false)
      (plain : ¬ e.Offset) : HasMode e slot v (.register r)
  | atRegister {r : Register} (base : e.Has (.register r)) (indirect : e.indirect = true)
      (plain : ¬ e.Offset) : HasMode e slot v (.atRegister r)
  | atRegisterPlus {r : Register} (base : e.Has (.register r)) (indirect : e.indirect = true)
      (offset : e.Offset) : HasMode e slot v (.atRegisterPlus r)
  | sp (base : e.Has (.special .sp)) (direct : e.indirect = false) (plain : ¬ e.Offset) :
      HasMode e slot v .sp
  | peek (base : e.Has (.special .sp)) (indirect : e.indirect = true) (plain : ¬ e.Offset) :
      HasMode e slot v .peek
  | pick (base : e.Has (.special .sp)) (indirect : e.indirect = true) (offset : e.Offset) :
      HasMode e slot v .pick
  | special {s : SpecialValue} (base : e.Has (.special s)) (other : s ≠ .sp)
      (direct : e.indirect = false) (plain : ¬ e.Offset) (allowed : s.AllowedIn slot) :
      HasMode e slot v s.ownMode
  | short {n : Fin 32} (free : e.BaseFree) (literal : ¬ e.Refers) (direct : e.indirect = false)
      (source : slot = .source) (value : Mode.shortValue n = v) : HasMode e slot v (.short n)
  | atNext (free : e.BaseFree) (indirect : e.indirect = true) : HasMode e slot v .atNext
  | next (free : e.BaseFree) (direct : e.indirect = false)
      (long : e.Refers ∨ slot = .destination ∨ v < -1 ∨ 30 < v) : HasMode e slot v .next

theorem base?_eq_none : e.base? = none ↔ e.BaseFree := by
  simp [base?, BaseFree]

/-- A register, or the stack pointer: plain, as an address, or as an address with an offset. -/
theorem indexed_eq_ok {plain at_ plus : Mode} {name : String} (hPlain : plain.needsWord = false)
    (hAt : at_.needsWord = false) (hPlus : plus.needsWord = true) :
    (match e.indirect, e.hasOffset with
      | false, true => .error (.directOffset name)
      | false, false => .ok ⟨plain, none⟩
      | true, false => .ok ⟨at_, none⟩
      | true, true => (Word.store v).map fun w => ⟨plus, some w⟩ : Except AsmError Operand) =
        .ok operand ↔
      operand.Holds v ∧
        (e.indirect = false ∧ ¬ e.Offset ∧ operand.mode = plain ∨
          e.indirect = true ∧ ¬ e.Offset ∧ operand.mode = at_ ∨
          e.indirect = true ∧ e.Offset ∧ operand.mode = plus) := by
  rw [← hasOffset_iff]
  cases e.indirect <;> cases e.hasOffset
  · simp [Operand.plain_eq hPlain v]
  · simp
  · simp [Operand.plain_eq hAt v]
  · simp [Operand.store_eq_ok hPlus]

theorem toOperand_special {s : SpecialValue} (base : e.base? = some (.special s))
    (other : s ≠ .sp) : e.toOperand slot v =
      if e.indirect || e.hasOffset then .error (.illegalSpecial s.name)
      else match s.mode? slot with
        | some mode => .ok ⟨mode, none⟩
        | none => .error (.wrongSlot s.name) := by
  rw [toOperand, base]
  cases s <;> first | rfl | exact absurd rfl other

/-- Another special value, which stands alone. -/
theorem special_eq_ok {s : SpecialValue} (base : e.base? = some (.special s)) (other : s ≠ .sp) :
    e.toOperand slot v = .ok operand ↔
      operand.Holds v ∧ e.indirect = false ∧ ¬ e.Offset ∧ s.AllowedIn slot ∧
        operand.mode = s.ownMode := by
  have alone : s.ownMode.needsWord = false := by cases s <;> rfl
  rw [toOperand_special base other, ← hasOffset_iff]
  cases e.indirect <;> cases e.hasOffset
  · cases own : s.mode? slot with
    | some mode =>
      obtain ⟨allowed, rfl⟩ := SpecialValue.mode?_eq_some.mp own
      simp [Operand.plain_eq alone v, allowed]
    | none =>
      have refused : ¬ s.AllowedIn slot := fun allowed => by
        cases own.symm.trans (SpecialValue.mode?_eq_some.mpr ⟨allowed, rfl⟩)
      simp [refused]
  · simp
  · simp
  · simp

theorem ofShort?_eq_some :
    Mode.ofShort? v = some mode ↔ ∃ n, Mode.shortValue n = v ∧ mode = .short n := by
  unfold Mode.ofShort? Mode.shortValue
  constructor
  · intro h
    split at h
    · cases h
      exact ⟨_, by simp; omega, rfl⟩
    · cases h
  · rintro ⟨n, rfl, rfl⟩
    have small := n.isLt
    rw [dif_pos (by omega)]
    simp

theorem ofShort?_eq_none : Mode.ofShort? v = none ↔ v < -1 ∨ 30 < v := by
  unfold Mode.ofShort?
  split <;> simp <;> omega

/-- An expression without a base: an address, a literal in the next word, or a short literal. -/
theorem number_eq_ok :
    (if e.indirect then (Word.store v).map fun w => ⟨.atNext, some w⟩
      else if e.hasReference || slot = .destination then
        (Word.store v).map fun w => ⟨.next, some w⟩
      else match Mode.ofShort? v with
        | some mode => .ok ⟨mode, none⟩
        | none => (Word.store v).map fun w => ⟨.next, some w⟩ : Except AsmError Operand) =
        .ok operand ↔
      operand.Holds v ∧
        (e.indirect = true ∧ operand.mode = .atNext ∨
          e.indirect = false ∧ (e.Refers ∨ slot = .destination ∨ v < -1 ∨ 30 < v) ∧
            operand.mode = .next ∨
          e.indirect = false ∧ ¬ e.Refers ∧ slot = .source ∧
            ∃ n, Mode.shortValue n = v ∧ operand.mode = .short n) := by
  rw [← hasReference_iff, ← ofShort?_eq_none]
  simp only [← ofShort?_eq_some]
  cases e.indirect with
  | true => simpa using Operand.store_eq_ok rfl
  | false =>
    cases e.hasReference with
    | true => simpa using Operand.store_eq_ok rfl
    | false =>
      cases slot with
      | destination => simpa using Operand.store_eq_ok rfl
      | source =>
        cases short : Mode.ofShort? v with
        | none => simpa using Operand.store_eq_ok rfl
        | some mode =>
          obtain ⟨n, value, rfl⟩ := ofShort?_eq_some.mp short
          have plain : (Mode.short n).needsWord = false := rfl
          simpa [eq_comm] using Operand.plain_eq plain v

section Mode

variable (bases : (e.terms.filter fun t => t.atom.isBase).length ≤ 1)
include bases

theorem toOperand_of_hasMode (h : e.HasMode slot v mode) (same : operand.mode = mode)
    (holds : operand.Holds v) : e.toOperand slot v = .ok operand := by
  cases h with
  | register base direct plain =>
    rw [toOperand, (base?_eq_some bases rfl).mpr base]
    exact (indexed_eq_ok rfl rfl rfl).mpr ⟨holds, .inl ⟨direct, plain, same⟩⟩
  | atRegister base indirect plain =>
    rw [toOperand, (base?_eq_some bases rfl).mpr base]
    exact (indexed_eq_ok rfl rfl rfl).mpr ⟨holds, .inr (.inl ⟨indirect, plain, same⟩)⟩
  | atRegisterPlus base indirect offset =>
    rw [toOperand, (base?_eq_some bases rfl).mpr base]
    exact (indexed_eq_ok rfl rfl rfl).mpr ⟨holds, .inr (.inr ⟨indirect, offset, same⟩)⟩
  | sp base direct plain =>
    rw [toOperand, (base?_eq_some bases rfl).mpr base]
    exact (indexed_eq_ok rfl rfl rfl).mpr ⟨holds, .inl ⟨direct, plain, same⟩⟩
  | peek base indirect plain =>
    rw [toOperand, (base?_eq_some bases rfl).mpr base]
    exact (indexed_eq_ok rfl rfl rfl).mpr ⟨holds, .inr (.inl ⟨indirect, plain, same⟩)⟩
  | pick base indirect offset =>
    rw [toOperand, (base?_eq_some bases rfl).mpr base]
    exact (indexed_eq_ok rfl rfl rfl).mpr ⟨holds, .inr (.inr ⟨indirect, offset, same⟩)⟩
  | special base other direct plain allowed =>
    have found := (base?_eq_some bases rfl).mpr base
    exact (special_eq_ok found other).mpr ⟨holds, direct, plain, allowed, same⟩
  | short free literal direct source value =>
    rw [toOperand, base?_eq_none.mpr free]
    exact number_eq_ok.mpr ⟨holds, .inr (.inr ⟨direct, literal, source, _, value, same⟩)⟩
  | atNext free indirect =>
    rw [toOperand, base?_eq_none.mpr free]
    exact number_eq_ok.mpr ⟨holds, .inl ⟨indirect, same⟩⟩
  | next free direct long =>
    rw [toOperand, base?_eq_none.mpr free]
    exact number_eq_ok.mpr ⟨holds, .inr (.inl ⟨direct, long, same⟩)⟩

theorem hasMode_of_toOperand (h : e.toOperand slot v = .ok operand) :
    operand.Holds v ∧ e.HasMode slot v operand.mode := by
  cases base : e.base? with
  | none =>
    rw [toOperand, base] at h
    have free : e.BaseFree := base?_eq_none.mp base
    obtain ⟨holds, ⟨indirect, same⟩ | ⟨direct, long, same⟩ |
      ⟨direct, literal, source, n, value, same⟩⟩ := number_eq_ok.mp h
    · exact ⟨holds, same ▸ .atNext free indirect⟩
    · exact ⟨holds, same ▸ .next free direct long⟩
    · exact ⟨holds, same ▸ .short free literal direct source value⟩
  | some atom =>
    have here : e.Has atom := (base?_eq_some bases (isBase_of_base? base)).mp base
    cases atom with
    | register r =>
      rw [toOperand, base] at h
      obtain ⟨holds, ⟨direct, plain, same⟩ | ⟨indirect, plain, same⟩ |
        ⟨indirect, offset, same⟩⟩ := (indexed_eq_ok rfl rfl rfl).mp h
      · exact ⟨holds, same ▸ .register here direct plain⟩
      · exact ⟨holds, same ▸ .atRegister here indirect plain⟩
      · exact ⟨holds, same ▸ .atRegisterPlus here indirect offset⟩
    | special s =>
      by_cases stack : s = .sp
      · subst stack
        rw [toOperand, base] at h
        obtain ⟨holds, ⟨direct, plain, same⟩ | ⟨indirect, plain, same⟩ |
          ⟨indirect, offset, same⟩⟩ := (indexed_eq_ok rfl rfl rfl).mp h
        · exact ⟨holds, same ▸ .sp here direct plain⟩
        · exact ⟨holds, same ▸ .peek here indirect plain⟩
        · exact ⟨holds, same ▸ .pick here indirect offset⟩
      · obtain ⟨holds, direct, plain, allowed, same⟩ := (special_eq_ok base stack).mp h
        exact ⟨holds, same ▸ .special here stack direct plain allowed⟩
    | literal value => cases isBase_of_base? base
    | reference name => cases isBase_of_base? base

theorem Has.eq {atom atom' : Atom} (h : e.Has atom) (base : atom.isBase = true)
    (h' : e.Has atom') (base' : atom'.isBase = true) : atom' = atom := by
  obtain ⟨t, member, rfl⟩ := h
  obtain ⟨u, member', rfl⟩ := h'
  rw [eq_of_isBase bases member base member' base']

omit bases in
theorem Has.not_baseFree {atom : Atom} (h : e.Has atom) (base : atom.isBase = true) :
    ¬ e.BaseFree := by
  obtain ⟨t, member, rfl⟩ := h
  intro free
  cases base.symm.trans (free t member)

omit bases in
/-- With an offset, a register and the stack pointer are used in brackets only. -/
theorem HasMode.indirect_of_offset (h : e.HasMode slot v mode) {atom : Atom} (here : e.Has atom)
    (base : atom.isBase = true) (offset : e.Offset) : e.indirect = true := by
  cases h with
  | register _ _ plain | atRegister _ _ plain | sp _ _ plain | peek _ _ plain => contradiction
  | special _ _ _ plain => contradiction
  | atRegisterPlus _ indirect | pick _ indirect => exact indirect
  | short free | atNext free | next free => exact absurd free (here.not_baseFree base)

theorem HasMode.alone {s : SpecialValue} (h : e.HasMode slot v mode) (here : e.Has (.special s))
    (other : s ≠ .sp) : e.indirect = false ∧ ¬ e.Offset ∧ s.AllowedIn slot := by
  cases h with
  | register base | atRegister base | atRegisterPlus base => cases base.eq bases rfl here rfl
  | sp base | peek base | pick base =>
    cases base.eq bases rfl here rfl
    contradiction
  | special base _ direct plain allowed =>
    cases base.eq bases rfl here rfl
    exact ⟨direct, plain, allowed⟩
  | short free | atNext free | next free => exact absurd free (here.not_baseFree rfl)

omit bases in
theorem exists_hasMode_of_baseFree (free : e.BaseFree) : ∃ mode, e.HasMode slot v mode := by
  by_cases indirect : e.indirect = true
  · exact ⟨_, .atNext free indirect⟩
  have direct : e.indirect = false := by simpa using indirect
  by_cases long : e.Refers ∨ slot = .destination ∨ v < -1 ∨ 30 < v
  · exact ⟨_, .next free direct long⟩
  simp only [not_or] at long
  obtain ⟨literal, notDestination, low, high⟩ := long
  have source : slot = .source := by cases slot <;> first | rfl | contradiction
  have value : Mode.shortValue ⟨(v + 1).toNat, by omega⟩ = v := by
    simp only [Mode.shortValue]
    omega
  exact ⟨_, .short free literal direct source value⟩

omit bases in
theorem exists_hasMode
    (indexed : ∀ atom, e.Has atom → (∃ r, atom = .register r) ∨ atom = .special .sp → e.Offset →
      e.indirect = true)
    (alone : ∀ s, e.Has (.special s) → s ≠ .sp →
      e.indirect = false ∧ ¬ e.Offset ∧ s.AllowedIn slot) :
    ∃ mode, e.HasMode slot v mode := by
  by_cases free : e.BaseFree
  · exact exists_hasMode_of_baseFree free
  obtain ⟨t, member, base⟩ : ∃ t ∈ e.terms, t.atom.isBase = true := by simpa [BaseFree] using free
  have here : e.Has t.atom := ⟨t, member, rfl⟩
  cases atom : t.atom with
  | register r =>
    rw [atom] at here
    by_cases offset : e.Offset
    · exact ⟨_, .atRegisterPlus here (indexed _ here (.inl ⟨r, rfl⟩) offset) offset⟩
    cases indirect : e.indirect with
    | false => exact ⟨_, .register here indirect offset⟩
    | true => exact ⟨_, .atRegister here indirect offset⟩
  | special s =>
    rw [atom] at here
    by_cases stack : s = .sp
    · subst stack
      by_cases offset : e.Offset
      · exact ⟨_, .pick here (indexed _ here (.inr rfl) offset) offset⟩
      cases indirect : e.indirect with
      | false => exact ⟨_, .sp here indirect offset⟩
      | true => exact ⟨_, .peek here indirect offset⟩
    · obtain ⟨direct, plain, allowed⟩ := alone s here stack
      exact ⟨_, .special here stack direct plain allowed⟩
  | literal value => simp [atom, Atom.isBase] at base
  | reference name => simp [atom, Atom.isBase] at base

theorem toOperand_eq_ok :
    e.toOperand slot v = .ok operand ↔ operand.Holds v ∧ e.HasMode slot v operand.mode :=
  ⟨hasMode_of_toOperand bases, fun h => toOperand_of_hasMode bases h.2 rfl h.1⟩

end Mode

/-- An expression with the value `v` takes an extra word: for what is added to its base or, without
a base, for all but a short literal. -/
def TakesWord (e : Expr) (slot : Slot) (v : Int) : Prop :=
  (¬ e.BaseFree ∧ e.Offset) ∨
    (e.BaseFree ∧ (e.indirect = true ∨ e.Refers ∨ slot = .destination ∨ v < -1 ∨ 30 < v))

theorem HasMode.takesWord_iff (h : e.HasMode slot v mode) :
    e.TakesWord slot v ↔ mode.needsWord = true := by
  unfold TakesWord
  cases h with
  | register base _ plain | atRegister base _ plain =>
    simp [base.not_baseFree rfl, plain, Mode.needsWord]
  | sp base _ plain | peek base _ plain => simp [base.not_baseFree rfl, plain, Mode.needsWord]
  | @special s base _ _ plain =>
    simp only [base.not_baseFree rfl, plain]
    cases s <;> simp [SpecialValue.ownMode, Mode.needsWord]
  | atRegisterPlus base _ offset | pick base _ offset =>
    simp [base.not_baseFree rfl, offset, Mode.needsWord]
  | @short n free literal direct source value =>
    have least : ¬ v < -1 := by unfold Mode.shortValue at value; omega
    have most : ¬ 30 < v := by unfold Mode.shortValue at value; omega
    simp [free, literal, direct, source, Mode.needsWord, least, most]
  | atNext free indirect => simp [free, indirect, Mode.needsWord]
  | next free direct long => simp [free, long, Mode.needsWord]

/-- The literals and addresses of the expression make an operand for the slot. -/
structure Addressable (e : Expr) (slot : Slot) (scope : Scope) : Prop where
  /-- A base is the first or the last term. -/
  edge : ∀ t ∈ e.terms, t.atom.isBase = true →
    e.terms.head? = some t ∨ e.terms.getLast? = some t
  positive : ∀ t ∈ e.terms, t.atom.isBase = true → t.isNegative = false
  resolves : ∀ t ∈ e.terms, t.Resolves scope
  /-- A register or the stack pointer with an offset stands in brackets. -/
  indexed : ∀ atom, e.Has atom → (∃ r, atom = .register r) ∨ atom = .special .sp → e.Offset →
    e.indirect = true
  /-- Any other special value stands alone, in a slot that allows it. -/
  alone : ∀ s, e.Has (.special s) → s ≠ .sp →
    e.indirect = false ∧ ¬ e.Offset ∧ s.AllowedIn slot
  inRange : e.TakesWord slot (e.total scope) → -0x8000 ≤ e.total scope ∧ e.total scope ≤ 0xFFFF

section Eval

variable (bases : (e.terms.filter fun t => t.atom.isBase).length ≤ 1)
  (few : e.terms.length ≤ 32768)
include bases few

/-- With few terms no sum of literals leaves its range, so only the checks are left. -/
theorem eval_eq_ok_of_few :
    e.eval slot scope = .ok operand ↔
      e.checkBase = .ok () ∧ (∀ t ∈ e.terms, t.Resolves scope) ∧
        operand.Holds (e.total scope) ∧ e.HasMode slot (e.total scope) operand.mode := by
  have fits : e.sumFits = true :=
    sumsFitFrom_of_length (by simp only [sumMin]; omega) (by simp only [sumMax]; omega)
  rw [eval_eq_ok]
  simp only [value, sumTerms_eq_ok, fits, true_and, toOperand_eq_ok bases, total]
  constructor
  · rintro ⟨base, v, ⟨resolves, rfl⟩, made⟩
    exact ⟨base, resolves, made⟩
  · rintro ⟨base, resolves, made⟩
    exact ⟨base, _, ⟨resolves, rfl⟩, made⟩

theorem addressable_of_eval (h : e.eval slot scope = .ok operand) : e.Addressable slot scope := by
  obtain ⟨checked, resolves, holds, mode⟩ := (eval_eq_ok_of_few bases few).mp h
  have base := (checkBase_eq_ok bases).mp checked
  refine ⟨fun t member isBase => (base t member isBase).1,
    fun t member isBase => (base t member isBase).2, resolves, ?_,
    fun s here other => mode.alone bases here other,
    fun takes => holds.inRange (mode.takesWord_iff.mp takes)⟩
  rintro atom here (⟨r, rfl⟩ | rfl) offset
  · exact mode.indirect_of_offset here rfl offset
  · exact mode.indirect_of_offset here rfl offset

theorem Addressable.exists_eval (h : e.Addressable slot scope) :
    ∃ operand, e.eval slot scope = .ok operand := by
  have checked : e.checkBase = .ok () :=
    (checkBase_eq_ok bases).mpr fun t member isBase =>
      ⟨h.edge t member isBase, h.positive t member isBase⟩
  obtain ⟨mode, hasMode⟩ := exists_hasMode h.indexed h.alone
  let operand : Operand :=
    ⟨mode, if mode.needsWord then some (Word.ofInt (e.total scope)) else none⟩
  have holds : operand.Holds (e.total scope) :=
    ⟨rfl, fun takes => h.inRange (hasMode.takesWord_iff.mpr takes)⟩
  exact ⟨operand, (eval_eq_ok_of_few bases few).mpr ⟨checked, h.resolves, holds, hasMode⟩⟩

end Eval

/-- An expression can be evaluated exactly if it is addressable.  The operand then has the mode of
the expression, with the extra word that the mode takes: the value modulo `2^16`. -/
theorem eval_ok_iff_addressable (bases : (e.terms.filter fun t => t.atom.isBase).length ≤ 1)
    (few : e.terms.length ≤ 32768) :
    ((∃ operand, e.eval slot scope = .ok operand) ↔ e.Addressable slot scope) ∧
      ∀ operand, e.eval slot scope = .ok operand →
        e.HasMode slot (e.total scope) operand.mode ∧
          operand.word =
            if operand.mode.needsWord then some (Word.ofInt (e.total scope)) else none := by
  refine ⟨⟨?_, Addressable.exists_eval bases few⟩, fun operand h => ?_⟩
  · rintro ⟨operand, h⟩
    exact addressable_of_eval bases few h
  · obtain ⟨-, -, holds, mode⟩ := (eval_eq_ok_of_few bases few).mp h
    exact ⟨mode, holds.word⟩

/-- `[here-7+J]`, where `here` is the address 2, takes the word `-5`; without brackets it is
refused. -/
theorem eval_ok_iff_addressable_offset :
    let here : Symbol := ⟨"here", ⟨"", 0⟩, none, .global, none, false, [], some 2⟩
    let scope : Scope := ⟨⟨⟨[here]⟩, NameTable.empty.insert "here" 0⟩, "", none⟩
    let terms : List Term :=
      [⟨none, .reference "here"⟩, ⟨some .minus, .literal 7⟩, ⟨some .plus, .register .j⟩]
    (terms.filter fun t => t.atom.isBase).length ≤ 1 ∧ terms.length ≤ 32768 ∧
      (Expr.mk terms true).Addressable .source scope ∧
      (Expr.mk terms true).total scope = -5 ∧
      (Expr.mk terms true).HasMode .source (-5) (.atRegisterPlus .j) ∧
      (Expr.mk terms true).eval .source scope = .ok ⟨.atRegisterPlus .j, some 0xFFFB⟩ ∧
      ¬ (Expr.mk terms false).Addressable .source scope := by
  intro here scope terms
  have bases : (terms.filter fun t => t.atom.isBase).length ≤ 1 := by decide
  have few : terms.length ≤ 32768 := by decide
  have total : (Expr.mk terms true).total scope = -5 := by decide +kernel
  have made : (Expr.mk terms true).eval .source scope = .ok ⟨.atRegisterPlus .j, some 0xFFFB⟩ := by
    decide +kernel
  have refused : (Expr.mk terms false).eval .source scope =
      .error (.error (.directOffset "j")) := by
    decide +kernel
  have inBrackets : (Expr.mk terms true).Addressable .source scope :=
    (eval_ok_iff_addressable bases few).1.mp ⟨_, made⟩
  have mode := ((eval_ok_iff_addressable bases few).2 _ made).1
  rw [total] at mode
  refine ⟨bases, few, inBrackets, total, mode, made, fun direct => ?_⟩
  obtain ⟨operand, h⟩ := (eval_ok_iff_addressable bases few).1.mpr direct
  cases refused.symm.trans h

end Expr

end Dcpu16
