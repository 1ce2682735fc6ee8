import Dcpu16.Proofs.Binding
import Dcpu16.Proofs.Placement

/-! Making the words of placed records.  A record is left with the words that its content stands
for, or, after a report, with as many zeros.  Where it refers to a symbol behind the last word of
memory, nothing is made at all. -/

namespace Dcpu16

theorem Scope.addressOf_of_get? {scope : Scope} {id : SymbolId} {sym : Symbol}
    (found : scope.program.symbols.get? id = some sym) (name : String) :
    scope.addressOf name id =
      match sym.address, sym.definition with
      | some address, _ => .ok address
      | none, some _ => .error (.error (.addressOverflow 0x10000))
      | none, none => .error (.error (.undefinedSymbol name)) := by
  unfold addressOf
  rw [found]
  rfl

theorem Scope.lookup_of_find {scope : Scope} {name : String} {id : SymbolId}
    (found : scope.find name = .ok id) : scope.lookup name = scope.addressOf name id := by
  unfold lookup
  rw [found]
  rfl

/-! ### Notes about references -/

/-- The two scopes find the same symbols at the same addresses. -/
structure Scope.Agrees (scope scope' : Scope) : Prop where
  find : ∀ name, scope'.find name = scope.find name
  addressOf : ∀ name id, scope'.addressOf name id = scope.addressOf name id

namespace Scope.Agrees

variable {scope scope' : Scope}

theorem lookup (h : scope.Agrees scope') (name : String) :
    scope'.lookup name = scope.lookup name := by
  unfold Scope.lookup
  rw [h.find]
  exact bind_congr fun id => h.addressOf name id

theorem sumTerms (h : scope.Agrees scope') (ts : List Term) :
    Expr.sumTerms scope' ts = Expr.sumTerms scope ts := by
  induction ts with
  | nil => rfl
  | cons t ts ih => simp only [Expr.sumTerms, Expr.termValue, h.lookup, ih]

theorem eval (h : scope.Agrees scope') (e : Expr) (slot : Slot) :
    e.eval slot scope' = e.eval slot scope := by
  simp only [Expr.eval, Expr.value, h.sumTerms]

theorem assemble (h : scope.Agrees scope') (o : Operation) :
    o.assemble scope' = o.assemble scope := by
  simp only [Operation.assemble, h.eval]

theorem words (h : scope.Agrees scope') (c : Content) : c.words scope' = c.words scope := by
  cases c <;> simp only [Content.words, h.assemble]

theorem lookedUp (h : scope.Agrees scope') (names : List String) :
    Expr.lookedUp scope' names = Expr.lookedUp scope names := by
  induction names with
  | nil => rfl
  | cons name names ih => simp only [Expr.lookedUp, h.find, h.addressOf, ih]

theorem touchedBy (h : scope.Agrees scope') (operands : List (Slot × Expr)) :
    Operation.touchedBy scope' operands = Operation.touchedBy scope operands := by
  induction operands with
  | nil => rfl
  | cons operand operands ih =>
    simp only [Operation.touchedBy, Expr.touched, h.eval, h.lookedUp, ih]

theorem touched (h : scope.Agrees scope') (c : Content) : c.touched scope' = c.touched scope := by
  cases c <;> simp only [Content.touched, h.touchedBy]

end Scope.Agrees

/-- Noting references changes nothing that a record is evaluated with. -/
theorem Record.agrees_markReferenced (r : Record) (program : Program) (ids : List SymbolId) :
    (r.scopeIn program).Agrees (r.scopeIn (program.markReferenced ids)) := by
  have notes := (Program.UpToNotes.refl program).markReferenced ids
  refine ⟨fun name => ?_, fun name id => ?_⟩
  · unfold Scope.find Program.resolve
    simp only [Record.scopeIn, notes.table, SymbolStore.resolve_of_unmarked notes.symbols]
  · cases found : program.symbols.get? id with
    | some sym =>
      obtain ⟨later, hLater, remains⟩ :=
        (SymbolStore.RemainIn.refl program.symbols).markReferenced ids found
      rw [Scope.addressOf_of_get? hLater, Scope.addressOf_of_get? found, remains.address,
        remains.definition]
    | none =>
      cases later : (program.markReferenced ids).symbols.get? id with
      | none => simp only [Scope.addressOf, Record.scopeIn, found, later]
      | some sym =>
        obtain ⟨old, hOld, -⟩ := SymbolStore.remains_of_markReferenced later
        rw [found] at hOld
        cases hOld

/-! ### Symbols without an address -/

section Missing

variable {scope : Scope} {id : SymbolId} {err : Stop AsmError}
  (missing : ∀ name, scope.addressOf name id = .error err)

include missing

theorem Expr.sumTerms_of_lookedUp {ts : List Term}
    (member : id ∈ lookedUp scope (ts.filterMap Term.reference?)) :
    sumTerms scope ts = .error err := by
  induction ts with
  | nil => cases member
  | cons t ts ih =>
    cases atom : t.atom with
    | reference name =>
      rw [List.filterMap_cons_some (by rw [Term.reference?, atom]), lookedUp] at member
      cases found : scope.find name with
      | error e => simp [found] at member
      | ok other =>
        -- The first name without an address ends the sum and what is looked up.
        cases address : scope.addressOf name other with
        | error e =>
          obtain rfl : id = other := by simpa [found, address] using member
          obtain rfl : e = err := by simpa [missing name] using address.symm
          simp only [sumTerms, termValue, atom, Scope.lookup_of_find found, address]
          rfl
        | ok word =>
          simp only [found, address, List.mem_cons] at member
          rcases member with rfl | later
          · rw [missing name] at address
            cases address
          · simp only [sumTerms, termValue, atom, Scope.lookup_of_find found, address, ih later]
            rfl
    | _ =>
      rw [List.filterMap_cons_none (by rw [Term.reference?, atom])] at member
      simp only [sumTerms, termValue, atom, ih member]
      rfl

theorem Expr.eval_of_touched {e : Expr} (member : id ∈ e.touched scope) (slot : Slot) :
    e.eval slot scope = .error err := by
  unfold touched at member
  cases checked : e.checkBase with
  | error f => simp [checked] at member
  | ok u =>
    simp only [checked] at member
    have sum : e.value scope = .error err := sumTerms_of_lookedUp missing member
    simp only [eval, checked, sum]
    rfl

theorem Operation.mapM_of_touchedBy {operands : List (Slot × Expr)}
    (member : id ∈ touchedBy scope operands) :
    (operands.mapM fun p => return (p.1, ← p.2.eval p.1 scope) :
      Except (Stop AsmError) (List (Slot × Operand))) = .error err := by
  induction operands with
  | nil => cases member
  | cons operand operands ih =>
    obtain ⟨slot, e⟩ := operand
    rw [List.mapM_cons]
    unfold touchedBy at member
    cases made : e.eval slot scope with
    | error f =>
      simp only [made] at member
      rw [Expr.eval_of_touched missing member slot] at made
      cases made
      rfl
    | ok value =>
      simp only [made] at member
      rcases List.mem_append.mp member with here | later
      · rw [Expr.eval_of_touched missing here slot] at made
        cases made
      · simp only [ih later]
        rfl

theorem Content.words_of_touched {c : Content} (member : id ∈ c.touched scope) :
    c.words scope = .error err := by
  cases c with
  | operation o =>
    simp only [words, Operation.assemble, Operation.mapM_of_touchedBy missing member]
    rfl
  | data words => cases member
  | mark => cases member

end Missing

/-! ### Words -/

namespace Record

/-- The record with its words: those that its content stands for, or zeros if that fails and has
been reported. -/
inductive FilledAs (program : Program) (keepGoing : Bool) (log : Log) (r : Record) : Record → Prop
  | made {words : List Word} (h : r.content.words (r.scopeIn program) = .ok words) :
      FilledAs program keepGoing log r { r with words := some words }
  | zeroed {e : AsmError} (going : keepGoing = true)
      (failed : r.content.words (r.scopeIn program) = .error (.error e)) (kind : e.kind ≠ .encode)
      (reported : Diagnostic.ofError (r.locate e) ∈ log) :
      FilledAs program keepGoing log r { r with words := some (List.replicate r.size 0) }

variable {program : Program} {keepGoing : Bool} {log : Log} {r f : Record}
  {rs filled : List Record}

theorem FilledAs.mono {log' : Log} (h : FilledAs program keepGoing log r f) (more : log ⊆ log') :
    FilledAs program keepGoing log' r f := by
  cases h with
  | made made => exact .made made
  | zeroed going failed kind reported => exact .zeroed going failed kind (more reported)

theorem zeroed_eq_ok (h : r.zeroed = .ok f) :
    f = { r with words := some (List.replicate r.size 0) } := by
  unfold zeroed at h
  cases measured : r.content.measure with
  | error e => simp [measured, Except.map] at h
  | ok size =>
    rw [measured] at h
    obtain rfl := Content.measure_eq_ok measured
    exact (Except.ok.inj h).symm

theorem filled_of_fillAll (h : (fillAll program keepGoing rs).result = .ok ()) :
    List.Forall₂ (FilledAs program keepGoing (fillAll program keepGoing rs).log) rs
        (fillAll program keepGoing rs).records ∧
      (fillAll program keepGoing rs).touched =
        rs.flatMap fun r => r.content.touched (r.scopeIn program) := by
  induction rs with
  | nil => exact ⟨.nil, rfl⟩
  | cons r rs ih =>
    unfold fillAll at h ⊢
    cases made : r.content.words (r.scopeIn program) with
    | ok words =>
      simp only [made] at h ⊢
      obtain ⟨rest, touched⟩ := ih h
      exact ⟨.cons (.made made) rest, by rw [touched, List.flatMap_cons]⟩
    | error stop =>
      cases stop with
      | fault f => simp [made] at h
      | error e =>
        simp only [made] at h ⊢
        split at h
        · next goes =>
          simp only [if_pos goes]
          simp only [Bool.and_eq_true, decide_eq_true_eq] at goes
          cases zeros : r.zeroed with
          | error f => simp [zeros] at h
          | ok zeroed =>
            simp only [zeros] at h ⊢
            obtain ⟨rest, touched⟩ := ih h
            obtain rfl := zeroed_eq_ok zeros
            refine ⟨.cons (.zeroed goes.1 made goes.2 List.mem_cons_self)
              (rest.imp fun _ _ filled => filled.mono (List.subset_cons_self _ _)), ?_⟩
            rw [touched, List.flatMap_cons]
        · cases h

namespace FilledAs

/-- Filling the record once more would change nothing. -/
theorem self (h : FilledAs program keepGoing log r f) : FilledAs program keepGoing log f f := by
  cases h with
  | made made => exact .made made
  | zeroed going failed kind reported => exact .zeroed going failed kind reported

theorem markReferenced (h : FilledAs program keepGoing log r f) (ids : List SymbolId) :
    FilledAs (program.markReferenced ids) keepGoing log r f := by
  have same := (r.agrees_markReferenced program ids).words r.content
  cases h with
  | made made => exact .made (same.trans made)
  | zeroed going failed kind reported => exact .zeroed going (same.trans failed) kind reported

theorem touched_eq (h : FilledAs program keepGoing log r f) (ids : List SymbolId) :
    f.content.touched (f.scopeIn (program.markReferenced ids)) =
      r.content.touched (r.scopeIn program) := by
  cases h <;> exact (r.agrees_markReferenced program ids).touched r.content

theorem bare_eq (h : FilledAs program keepGoing log r f) : f.bare = r.bare := by
  cases h <;> rfl

theorem address_eq (h : FilledAs program keepGoing log r f) : f.address = r.address := by
  cases h <;> rfl

theorem size_eq (h : FilledAs program keepGoing log r f) : f.size = r.size := by
  cases h <;> rfl

theorem length_words (h : FilledAs program keepGoing log r f) :
    ∃ words, f.words = some words ∧ words.length = f.size := by
  cases h with
  | made made => exact ⟨_, rfl, Content.length_words made⟩
  | zeroed => exact ⟨_, rfl, List.length_replicate⟩

/-- A run that does not go on after failures has made every record. -/
theorem made_of_plain (h : FilledAs program false log r f) :
    ∃ words, r.content.words (r.scopeIn program) = .ok words ∧ f.words = some words := by
  cases h with
  | made made => exact ⟨_, made, rfl⟩
  | zeroed going => cases going

/-- Without a report the words are those that the content stands for. -/
theorem words_eq (h : FilledAs program keepGoing log r f) (quiet : log.hasError = false) :
    ∃ words, f.words = some words ∧ r.content.words (r.scopeIn program) = .ok words := by
  cases h with
  | made made => exact ⟨_, rfl, made⟩
  | zeroed _ _ _ reported =>
    simp only [Log.hasError, List.any_eq_false] at quiet
    exact absurd rfl (quiet _ reported)

theorem words_cases (h : FilledAs program keepGoing log r f) :
    (∃ words, r.content.words (r.scopeIn program) = .ok words ∧ f.words = some words) ∨
      ∃ e : AsmError, r.content.words (r.scopeIn program) = .error (.error e) ∧
        e.kind ≠ .encode ∧ f.words = some (List.replicate r.size 0) := by
  cases h with
  | made made => exact .inl ⟨_, made, rfl⟩
  | zeroed _ failed kind _ => exact .inr ⟨_, failed, kind, rfl⟩

theorem reported (h : FilledAs program keepGoing log r f) {e : AsmError}
    (failed : r.content.words (r.scopeIn program) = .error (.error e)) :
    Diagnostic.ofError (r.locate e) ∈ log := by
  cases h with
  | made made => cases made.symm.trans failed
  | zeroed _ failed' _ reported =>
    cases failed'.symm.trans failed
    exact reported

/-- No record refers to a symbol behind the last word of memory. -/
theorem not_touched (h : FilledAs program keepGoing log r f) {id : SymbolId} {e : AsmError}
    (missing : ∀ name, (r.scopeIn program).addressOf name id = .error (.error e))
    (kind : e.kind = .encode) : id ∉ r.content.touched (r.scopeIn program) := by
  intro member
  have failed := Content.words_of_touched missing member
  cases h with
  | made made => simp [made] at failed
  | zeroed _ failed' other _ =>
    rw [failed'] at failed
    cases failed
    exact other kind

end FilledAs

theorem map_bare_of_filled (h : List.Forall₂ (FilledAs program keepGoing log) rs filled) :
    filled.map bare = rs.map bare := by
  induction h with
  | nil => rfl
  | cons first _ ih => rw [List.map_cons, List.map_cons, first.bare_eq, ih]

theorem InRow.of_filled {address : Nat} (row : InRow address rs)
    (h : List.Forall₂ (FilledAs program keepGoing log) rs filled) : InRow address filled := by
  induction h generalizing address with
  | nil => exact row
  | cons first _ ih =>
    cases row with
    | cons placed start fits rest =>
      rw [← first.size_eq] at fits rest
      exact .cons (first.address_eq.trans placed) start fits (ih rest)

end Record

end Dcpu16
