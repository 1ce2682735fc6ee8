import Dcpu16.Proofs.Filling
import Mathlib.Tactic.Ring

/-! Evaluating operands in two scopes whose addresses differ by a fixed distance.  The operands have
the same modes, and the extra word of an operand differs by the distance for each reference that is
added and each that is taken off.  Only a value that does not fit can make the two differ
otherwise. -/

namespace Dcpu16

theorem Word.ofInt_add (a b : Int) : ofInt (a + b) = ofInt a + ofInt b := by
  apply UInt16.toNat_inj.mp
  simp only [ofInt, UInt16.toNat_add, UInt16.toNat_ofNat']
  omega

/-! ### Computations that end alike -/

section Alike

variable {α β γ δ : Type} {R : α → β → Prop} {S : γ → δ → Prop}

/-- Two computations end alike and refer to the same symbols on the way: they end with values in
`R`, or with the same error.  Nothing is said if one of them stops at a value that does not fit. -/
inductive Alike (R : α → β → Prop) : List SymbolId → Except (Stop AsmError) α →
    List SymbolId → Except (Stop AsmError) β → Prop
  | ok {touched : List SymbolId} {a : α} {b : β} (h : R a b) :
      Alike R touched (.ok a) touched (.ok b)
  | error (touched : List SymbolId) (e : Stop AsmError) :
      Alike R touched (.error e) touched (.error e)
  | left {touched touched' : List SymbolId} {e : AsmError} {y : Except (Stop AsmError) β}
      (kind : e.kind = .encode) : Alike R touched (.error (.error e)) touched' y
  | right {touched touched' : List SymbolId} {e : AsmError} {x : Except (Stop AsmError) α}
      (kind : e.kind = .encode) : Alike R touched x touched' (.error (.error e))

/-- What a computation refers to if `later` is what comes after it ends well. -/
def touchedThen (x : Except (Stop AsmError) α) (here later : List SymbolId) : List SymbolId :=
  match x with
  | .error _ => here
  | .ok _ => here ++ later

theorem touchedThen_nil (x : Except (Stop AsmError) α) (here : List SymbolId) :
    touchedThen x here [] = here := by
  cases x
  · rfl
  · exact List.append_nil here

namespace Alike

variable {t t' u u' : List SymbolId} {x : Except (Stop AsmError) α} {y : Except (Stop AsmError) β}

/-- What both have referred to before. -/
theorem before (h : Alike R t x t' y) (here : List SymbolId) :
    Alike R (here ++ t) x (here ++ t') y := by
  cases h with
  | ok related => exact .ok related
  | error => exact .error _ _
  | left kind => exact .left kind
  | right kind => exact .right kind

theorem bind {f : α → Except (Stop AsmError) γ} {g : β → Except (Stop AsmError) δ}
    (h : Alike R t x t' y) (next : ∀ a b, R a b → Alike S u (f a) u' (g b)) :
    Alike S (touchedThen x t u) (x >>= f) (touchedThen y t' u') (y >>= g) := by
  cases h with
  | error => exact .error _ _
  | left kind => exact .left kind
  | right kind => exact .right kind
  | ok related => exact (next _ _ related).before t

theorem map {f : α → γ} {g : β → δ} (h : Alike R t x t' y) (next : ∀ a b, R a b → S (f a) (g b)) :
    Alike S t (x.map f) t' (y.map g) := by
  cases h with
  | error => exact .error _ _
  | left kind => exact .left kind
  | right kind => exact .right kind
  | ok related => exact .ok (next _ _ related)

theorem of_ok {a : α} {b : β} (h : Alike R t x t' y) (hx : x = .ok a) (hy : y = .ok b) :
    R a b := by
  cases h with
  | ok related =>
    cases hx
    cases hy
    exact related
  | error => cases hx
  | left => cases hx
  | right => cases hy

/-- Where both values fit, the two end in the same way. -/
theorem cases_of_fit (h : Alike R t x t' y)
    (fits : ∀ e, x = .error (.error e) → e.kind ≠ .encode)
    (fits' : ∀ e, y = .error (.error e) → e.kind ≠ .encode) :
    t' = t ∧ ((∃ a b, x = .ok a ∧ y = .ok b ∧ R a b) ∨ ∃ e, x = .error e ∧ y = .error e) := by
  cases h with
  | ok related => exact ⟨rfl, .inl ⟨_, _, rfl, rfl, related⟩⟩
  | error => exact ⟨rfl, .inr ⟨_, rfl, rfl⟩⟩
  | left kind => exact absurd kind (fits _ rfl)
  | right kind => exact absurd kind (fits' _ rfl)

end Alike

end Alike

/-! ### Shifted operands -/

/-- The references among `terms` that are added, less those that are taken off. -/
def Term.weight (terms : List Term) : Int :=
  (terms.countP fun t => t.reference?.isSome && !t.isNegative : Int) -
    (terms.countP fun t => t.reference?.isSome && t.isNegative : Int)

/-- The references of the expression that are added, less those that are taken off. -/
def Expr.weight (e : Expr) : Int := Term.weight e.terms

/-- The operand with `distance` added to its extra word, modulo `2^16`. -/
def Operand.shift (operand : Operand) (distance : Int) : Operand :=
  { operand with word := operand.word.map fun w => w + Word.ofInt distance }

/-- The weight of the operand in a slot. -/
def Operation.weight (o : Operation) (slot : Slot) : Int :=
  ((o.placed.lookup slot).map Expr.weight).getD 0

/-- The machine instruction of `o` after all addresses have moved by `distance`. -/
def Instruction.relocate (i : Instruction) (o : Operation) (distance : Int) : Instruction :=
  { i with
    source := i.source.shift (o.weight .source * distance)
    destination := i.destination.map fun d => d.shift (o.weight .destination * distance) }

theorem Operand.shift_zero (operand : Operand) : operand.shift 0 = operand := by
  obtain ⟨mode, word⟩ := operand
  cases word with
  | none => rfl
  | some w => exact congrArg (fun w => Operand.mk mode (some w)) (UInt16.add_zero w)

theorem Instruction.relocate_zero (i : Instruction) (o : Operation) : i.relocate o 0 = i := by
  obtain ⟨op, destination, source⟩ := i
  cases destination <;> simp [relocate, Operand.shift_zero]

/-- In the second scope `name` stands for the same symbol, at an address that differs by
`distance`. -/
structure Scope.ShiftsAt (distance : Int) (scope scope' : Scope) (name : String) : Prop where
  find : scope'.find name = scope.find name
  address : ∀ id, scope.find name = .ok id →
    Alike (fun a a' : Word => (a'.toNat : Int) = a.toNat + distance)
      [id] (scope.addressOf name id) [id] (scope'.addressOf name id)

namespace Expr

variable {scope scope' : Scope} {distance : Int}

theorem weight_cons_reference {t : Term} {name : String} (refers : t.reference? = some name)
    (ts : List Term) : Term.weight (t :: ts) = t.signed 1 + Term.weight ts := by
  cases negative : t.isNegative <;> simp [Term.weight, Term.signed, refers, negative] <;> omega

theorem weight_cons_other {t : Term} (other : t.reference? = none) (ts : List Term) :
    Term.weight (t :: ts) = Term.weight ts := by
  simp [Term.weight, other]

theorem weight_of_no_reference {e : Expr} (none : e.hasReference = false) : e.weight = 0 := by
  have unreferenced : ∀ t ∈ e.terms, t.reference? = .none := by
    simpa [hasReference, references] using none
  rw [weight, Term.weight, List.countP_eq_zero.mpr fun t member => by simp [unreferenced t member],
    List.countP_eq_zero.mpr fun t member => by simp [unreferenced t member]]
  rfl

theorem lookedUp_cons {name : String} {id : SymbolId} (found : scope.find name = .ok id)
    (names : List String) : lookedUp scope (name :: names) =
      touchedThen (scope.addressOf name id) [id] (lookedUp scope names) := by
  cases address : scope.addressOf name id <;> simp only [lookedUp, found, address] <;> rfl

theorem sumTerms_cons_other {t : Term} (other : t.reference? = none) (ts : List Term) :
    sumTerms scope (t :: ts) = (sumTerms scope ts).map fun v => t.literalValue + v := by
  have first : termValue scope t = .ok t.literalValue := by
    unfold termValue Term.literalValue
    cases atom : t.atom with
    | reference name => simp [Term.reference?, atom] at other
    | _ => rfl
  rw [sumTerms, first]
  cases sumTerms scope ts <;> rfl

theorem sumTerms_cons_reference {t : Term} {name : String} (refers : t.reference? = some name)
    (ts : List Term) : sumTerms scope (t :: ts) = scope.lookup name >>= fun address =>
      (sumTerms scope ts).map fun v => t.signed address.toNat + v := by
  have first : termValue scope t = (scope.lookup name).map fun address =>
      t.signed address.toNat := by
    unfold termValue
    cases atom : t.atom with
    | reference other =>
      obtain rfl : other = name := by simpa [Term.reference?, atom] using refers
      rfl
    | _ => simp [Term.reference?, atom] at refers
  rw [sumTerms, first]
  cases scope.lookup name with
  | error e => rfl
  | ok address => cases sumTerms scope ts <;> rfl

/-- The sums of the terms differ by the distance times the weight. -/
theorem sumTerms_shifted {ts : List Term}
    (shifts : ∀ name ∈ ts.filterMap Term.reference?, scope.ShiftsAt distance scope' name) :
    Alike (fun v v' => v' = v + Term.weight ts * distance)
      (lookedUp scope (ts.filterMap Term.reference?)) (sumTerms scope ts)
      (lookedUp scope' (ts.filterMap Term.reference?)) (sumTerms scope' ts) := by
  induction ts with
  | nil => exact .ok (by simp [Term.weight])
  | cons t ts ih =>
    cases refers : t.reference? with
    | none =>
      rw [List.filterMap_cons_none refers] at shifts ⊢
      rw [sumTerms_cons_other refers, sumTerms_cons_other refers, weight_cons_other refers]
      refine (ih shifts).map fun v v' sum => ?_
      rw [sum, Int.add_assoc]
    | some name =>
      rw [List.filterMap_cons_some refers] at shifts ⊢
      have here := shifts name List.mem_cons_self
      have later := ih fun other member => shifts other (List.mem_cons_of_mem _ member)
      rw [sumTerms_cons_reference refers, sumTerms_cons_reference refers,
        weight_cons_reference refers]
      cases found : scope.find name with
      | error e =>
        have found' := here.find.trans found
        simp only [lookedUp, Scope.lookup, found, found']
        exact .error _ _
      | ok id =>
        have found' := here.find.trans found
        rw [lookedUp_cons found, lookedUp_cons found', Scope.lookup_of_find found,
          Scope.lookup_of_find found']
        refine (here.address id found).bind fun a a' moved => later.map fun v v' sum => ?_
        have signed : t.signed a'.toNat = t.signed a.toNat + t.signed 1 * distance := by
          rw [moved]
          unfold Term.signed
          split <;> ring
        rw [signed, sum]
        ring

/-! ### Operands -/

/-- A value that is stored as an extra word. -/
theorem store_shifted {v v' by_ : Int} (moved : v' = v + by_) (mode : Mode)
    (touched : List SymbolId) :
    Alike (fun o o' : Operand => o' = o.shift by_)
      touched (((Word.store v).map fun w => (⟨mode, some w⟩ : Operand)).mapError Stop.error)
      touched (((Word.store v').map fun w => (⟨mode, some w⟩ : Operand)).mapError Stop.error) := by
  unfold Word.store
  split
  · split
    · refine .ok ?_
      rw [moved, Word.ofInt_add]
      rfl
    · exact .right rfl
  · exact .left rfl

/-- A register, or the stack pointer. -/
theorem indexed_shifted {v v' by_ : Int} (moved : v' = v + by_) (plain at_ plus : Mode)
    (name : String) (indirect offset : Bool) (touched : List SymbolId) :
    Alike (fun o o' : Operand => o' = o.shift by_)
      touched ((match indirect, offset with
        | false, true => .error (.directOffset name)
        | false, false => .ok ⟨plain, none⟩
        | true, false => .ok ⟨at_, none⟩
        | true, true => (Word.store v).map fun w => ⟨plus, some w⟩ :
          Except AsmError Operand).mapError Stop.error)
      touched ((match indirect, offset with
        | false, true => .error (.directOffset name)
        | false, false => .ok ⟨plain, none⟩
        | true, false => .ok ⟨at_, none⟩
        | true, true => (Word.store v').map fun w => ⟨plus, some w⟩ :
          Except AsmError Operand).mapError Stop.error) := by
  cases indirect <;> cases offset
  · exact .ok rfl
  · exact .error _ _
  · exact .ok rfl
  · exact store_shifted moved plus touched

/-- Another special value, which stands alone. -/
theorem special_shifted (special : SpecialValue) (slot : Slot) (indexed : Bool) (by_ : Int)
    (touched : List SymbolId) :
    let result : Except AsmError Operand :=
      if indexed then .error (.illegalSpecial special.name)
      else match special.mode? slot with
        | some mode => .ok ⟨mode, none⟩
        | none => .error (.wrongSlot special.name)
    Alike (fun o o' : Operand => o' = o.shift by_)
      touched (result.mapError Stop.error) touched (result.mapError Stop.error) := by
  dsimp only
  split
  · exact .error _ _
  · split
    · exact .ok rfl
    · exact .error _ _

/-- The operand by the base of its expression.  An expression without references has the same value
in both scopes. -/
theorem toOperand_shifted {e : Expr} {slot : Slot} {v v' by_ : Int} (moved : v' = v + by_)
    (same : e.hasReference = false → by_ = 0) (touched : List SymbolId) :
    Alike (fun o o' : Operand => o' = o.shift by_)
      touched ((e.toOperand slot v).mapError Stop.error)
      touched ((e.toOperand slot v').mapError Stop.error) := by
  unfold toOperand
  dsimp only
  cases base : e.base? with
  | some atom =>
    cases atom with
    | register r => exact indexed_shifted moved _ _ _ _ _ _ touched
    | special special =>
      cases special with
      | sp => exact indexed_shifted moved _ _ _ _ _ _ touched
      | pop => exact special_shifted .pop slot _ _ touched
      | push => exact special_shifted .push slot _ _ touched
      | peek => exact special_shifted .peek slot _ _ touched
      | pc => exact special_shifted .pc slot _ _ touched
      | ex => exact special_shifted .ex slot _ _ touched
    | literal value => cases isBase_of_base? base
    | reference name => cases isBase_of_base? base
  | none =>
    dsimp only
    split
    · exact store_shifted moved _ touched
    · split
      · exact store_shifted moved _ touched
      · next number =>
        -- Only here the value chooses the mode; there is no reference, so it is the same.
        have zero : by_ = 0 := same (by simp_all)
        obtain rfl : v' = v := by rw [moved, zero, Int.add_zero]
        split
        · exact .ok rfl
        · exact store_shifted moved _ touched

/-- The operands of an expression differ in their extra words only. -/
theorem eval_shifted {e : Expr} (slot : Slot)
    (shifts : ∀ name ∈ e.references, scope.ShiftsAt distance scope' name) :
    Alike (fun o o' : Operand => o' = o.shift (e.weight * distance))
      (e.touched scope) (e.eval slot scope) (e.touched scope') (e.eval slot scope') := by
  unfold eval touched
  cases e.checkBase with
  | error err => exact .error _ _
  | ok u =>
    have operand (v v' : Int) (sum : v' = v + e.weight * distance) :
        Alike (fun o o' : Operand => o' = o.shift (e.weight * distance))
          [] (if e.sumFits then (e.toOperand slot v).mapError Stop.error
            else .error (.fault .overflow))
          [] (if e.sumFits then (e.toOperand slot v').mapError Stop.error
            else .error (.fault .overflow)) := by
      split
      · refine toOperand_shifted sum (fun none => ?_) []
        rw [weight_of_no_reference none, Int.zero_mul]
      · exact .error _ _
    have made := (sumTerms_shifted shifts).bind operand
    rw [touchedThen_nil, touchedThen_nil] at made
    exact made

end Expr

/-! ### Operations -/

namespace Operation

variable {scope scope' : Scope} {distance : Int}

theorem assemble_basic (op : BasicOp) (d s : Expr) (scope : Scope) :
    assemble ⟨.basic op, [d, s]⟩ scope =
      d.eval .destination scope >>= fun destination =>
        (s.eval .source scope).map fun source => ⟨.basic op, some destination, source⟩ := by
  cases hd : d.eval .destination scope with
  | error e => simp [assemble, placed, slots, hd, bind, Except.bind]
  | ok destination =>
    cases hs : s.eval .source scope with
    | error e =>
      simp [assemble, placed, slots, hd, hs, bind, Except.bind, pure, Except.pure, Except.map]
    | ok source =>
      simp only [assemble, placed, slots, List.zip_cons_cons, List.zip_nil_right, List.mapM_cons,
        List.mapM_nil, hd, hs]
      rfl

theorem assemble_extended (op : ExtendedOp) (s : Expr) (scope : Scope) :
    assemble ⟨.extended op, [s]⟩ scope =
      (s.eval .source scope).map fun source => ⟨.extended op, none, source⟩ := by
  cases hs : s.eval .source scope <;>
    simp [assemble, placed, slots, hs, bind, Except.bind, pure, Except.pure, Except.map]

theorem touchedBy_cons (slot : Slot) (e : Expr) (rest : List (Slot × Expr)) (scope : Scope) :
    touchedBy scope ((slot, e) :: rest) =
      touchedThen (e.eval slot scope) (e.touched scope) (touchedBy scope rest) := by
  rw [touchedBy]
  cases e.eval slot scope <;> rfl

theorem touchedBy_single (slot : Slot) (e : Expr) (scope : Scope) :
    touchedBy scope [(slot, e)] = e.touched scope := by
  rw [touchedBy_cons]
  exact touchedThen_nil _ _

theorem assemble_shifted {o : Operation} (complete : o.Complete)
    (shifts : ∀ e ∈ o.operands, ∀ name ∈ e.references, scope.ShiftsAt distance scope' name) :
    Alike (fun i i' : Instruction => i' = i.relocate o distance)
      (touchedBy scope o.placed) (o.assemble scope)
      (touchedBy scope' o.placed) (o.assemble scope') := by
  obtain ⟨op, operands⟩ := o
  cases op with
  | basic op =>
    obtain ⟨d, s, rfl⟩ := List.length_eq_two.mp complete
    rw [assemble_basic, assemble_basic]
    have first := Expr.eval_shifted .destination (shifts d (by simp))
    have second := Expr.eval_shifted .source (shifts s (by simp))
    simp only [placed, slots, List.zip_cons_cons, List.zip_nil_right]
    rw [touchedBy_cons .destination, touchedBy_cons .destination, touchedBy_single,
      touchedBy_single]
    refine first.bind fun a a' moved => second.map fun b b' moved' => ?_
    rw [moved, moved']
    rfl
  | extended op =>
    obtain ⟨s, rfl⟩ := List.length_eq_one_iff.mp complete
    rw [assemble_extended, assemble_extended]
    simp only [placed, slots, List.zip_cons_cons, List.zip_nil_left, touchedBy_single]
    refine (Expr.eval_shifted .source (shifts s (by simp))).map fun b b' moved => ?_
    rw [moved]
    rfl

end Operation

end Dcpu16
