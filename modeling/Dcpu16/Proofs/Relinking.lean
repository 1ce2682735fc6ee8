import Dcpu16.Proofs.Settling
import Dcpu16.Proofs.Shifting

/-! Placing and filling an image again.  Addresses and words may be made in any order and any number
of times.  Placing has the same result each time, and after it filling ends as it does for an image
that has been placed once: no address, no word and no note about a reference from before shows. -/

namespace Dcpu16

/-- A step of linking. -/
inductive LinkStep where
  | place
  | fill
  deriving DecidableEq, Repr

namespace Image

/-- The image after a step, whatever its outcome. -/
def step (image : Image) : LinkStep → Image
  | .place => image.place.2
  | .fill => image.fill.2.2

/-- The image after some steps. -/
def after (image : Image) (steps : List LinkStep) : Image :=
  steps.foldl step image

variable {image now : Image}

/-- What one step keeps, all steps keep. -/
theorem after_keeps {P : Image → Prop} (keeps : ∀ now step, P now → P (now.step step))
    (start : P image) (steps : List LinkStep) : P (image.after steps) := by
  induction steps generalizing image with
  | nil => exact start
  | cons step steps ih => exact ih (keeps image step start)

theorem SameShape.step (h : image.SameShape now) (step : LinkStep) :
    image.SameShape (now.step step) := by
  cases step with
  | place => exact h.trans now.sameShape_place
  | fill => exact h.trans now.sameShape_fill

end Image

/-! ### Words and notes -/

namespace Record

variable {p p' : Program} {keepGoing : Bool} {r r' : Record} {rs rs' : List Record}

/-- The symbols that making the words of records refers to, if nothing stops it. -/
def allTouched (program : Program) (rs : List Record) : List SymbolId :=
  rs.flatMap fun r => r.content.touched (r.scopeIn program)

theorem allTouched_of_bare (h : rs'.map bare = rs.map bare) :
    allTouched p rs' = allTouched p rs := by
  have same := congrArg (allTouched p) h
  rwa [allTouched, allTouched, List.flatMap_map, List.flatMap_map] at same

theorem touched_fillAll_subset (program : Program) (keepGoing : Bool) (rs : List Record) :
    (fillAll program keepGoing rs).touched ⊆ allTouched program rs := by
  induction rs with
  | nil => exact List.Subset.refl _
  | cons r rs ih =>
    have here : r.content.touched (r.scopeIn program) ⊆ allTouched program (r :: rs) :=
      List.subset_append_left _ _
    have both : r.content.touched (r.scopeIn program) ++ (fillAll program keepGoing rs).touched ⊆
        allTouched program (r :: rs) :=
      List.append_subset.mpr ⟨here, List.Subset.trans ih (List.subset_append_right _ _)⟩
    unfold fillAll
    dsimp only
    split
    · exact both
    · exact here
    · split
      · split
        · exact here
        · exact both
      · exact here

/-- Filling does not depend on words that are there already, nor on notes about references. -/
theorem fillAll_of_unfilled (h : rs'.map unfilled = rs.map unfilled)
    (agrees : ∀ r : Record, (r.scopeIn p).Agrees (r.scopeIn p')) :
    (fillAll p' keepGoing rs').result = (fillAll p keepGoing rs).result ∧
      (fillAll p' keepGoing rs').log = (fillAll p keepGoing rs).log ∧
      (fillAll p' keepGoing rs').touched = (fillAll p keepGoing rs).touched ∧
      ((fillAll p keepGoing rs).result = .ok () →
        (fillAll p' keepGoing rs').records = (fillAll p keepGoing rs).records) := by
  induction rs generalizing rs' with
  | nil =>
    rw [List.map_nil, List.map_eq_nil_iff] at h
    rw [h]
    exact ⟨rfl, rfl, rfl, fun _ => rfl⟩
  | cons r rs ih =>
    obtain ⟨r', rs', rfl, same, rest⟩ := List.map_eq_cons_iff.mp h
    obtain ⟨words, rfl⟩ := exists_of_unfilled same
    obtain ⟨result, log, touched, records⟩ := ih rest
    have made : Content.words r.content (scopeIn { r with words := words } p') =
        r.content.words (r.scopeIn p) := (agrees r).words r.content
    have here : Content.touched r.content (scopeIn { r with words := words } p') =
        r.content.touched (r.scopeIn p) := (agrees r).touched r.content
    have zeros : zeroed { r with words := words } = r.zeroed := rfl
    have locate (e : AsmError) : Record.locate { r with words := words } e = r.locate e := rfl
    simp only [fillAll, made, here, zeros, locate]
    cases r.content.words (r.scopeIn p) with
    | ok words =>
      dsimp only
      refine ⟨result, log, by rw [touched], fun ok => ?_⟩
      rw [records ok]
    | error stop =>
      cases stop with
      | fault f => exact ⟨rfl, rfl, rfl, fun ok => by cases ok⟩
      | error e =>
        dsimp only
        split
        · cases r.zeroed with
          | error f => exact ⟨rfl, rfl, rfl, fun ok => by cases ok⟩
          | ok zeroed =>
            dsimp only
            refine ⟨result, by rw [log], by rw [touched], fun ok => ?_⟩
            rw [records ok]
        · exact ⟨rfl, rfl, rfl, fun ok => by cases ok⟩

end Record

namespace Image

variable {image now : Image} {ids : List SymbolId}

/-- The second image is the first but for its words, and for notes that some of the symbols `ids`
are referred to. -/
structure Noted (ids : List SymbolId) (image now : Image) : Prop where
  notes : ∃ marks ⊆ ids, now.program = image.program.markReferenced marks
  records : now.records.map Record.unfilled = image.records.map Record.unfilled
  sentinel : now.sentinel.unfilled = image.sentinel.unfilled
  objects : now.objects = image.objects
  endSymbol : now.endSymbol = image.endSymbol
  base : now.baseAddress = image.baseAddress
  keepGoing : now.keepGoing = image.keepGoing

theorem Noted.refl (ids : List SymbolId) (image : Image) : Noted ids image image :=
  ⟨⟨[], List.nil_subset _, rfl⟩, rfl, rfl, rfl, rfl, rfl, rfl⟩

theorem markReferenced_append (p : Program) (ids more : List SymbolId) :
    (p.markReferenced ids).markReferenced more = p.markReferenced (ids ++ more) := by
  simp only [Program.markReferenced, List.foldl_append]

/-- Filling ends as it would without the notes and words from before. -/
theorem Noted.fillAll (h : Noted ids image now) :
    let fresh := Record.fillAll image.program image.keepGoing image.records
    let filling := Record.fillAll now.program now.keepGoing now.records
    filling.result = fresh.result ∧ filling.log = fresh.log ∧ filling.touched = fresh.touched ∧
      (fresh.result = .ok () → filling.records = fresh.records) := by
  obtain ⟨marks, -, program⟩ := h.notes
  intro fresh filling
  simp only [filling, h.keepGoing, program]
  exact Record.fillAll_of_unfilled h.records fun r => r.agrees_markReferenced image.program marks

theorem Noted.fill (h : Noted ids image now)
    (touched : Record.allTouched image.program image.records ⊆ ids) :
    Noted ids image now.fill.2.2 := by
  obtain ⟨marks, listed, program⟩ := h.notes
  obtain ⟨-, -, same, -⟩ := h.fillAll
  have more := Record.touched_fillAll_subset image.program image.keepGoing image.records
  have notes : ∃ marks ⊆ ids, now.program.markReferenced
      (Record.fillAll now.program now.keepGoing now.records).touched =
        image.program.markReferenced marks := by
    refine ⟨_, List.append_subset.mpr ⟨listed, List.Subset.trans more touched⟩, ?_⟩
    rw [same, program, markReferenced_append]
  have records := Record.map_unfilled_fillAll now.program now.keepGoing now.records
  rw [h.records] at records
  unfold Image.fill
  dsimp only
  split
  · exact ⟨notes, records, h.sentinel, h.objects, h.endSymbol, h.base, h.keepGoing⟩
  · exact ⟨notes, records, h.sentinel, h.objects, h.endSymbol, h.base, h.keepGoing⟩

theorem Noted.settle (h : Noted ids image now) : Noted ids image.settle now.settle := by
  obtain ⟨marks, listed, program⟩ := h.notes
  obtain ⟨words, sentinel⟩ := Record.exists_of_unfilled h.sentinel
  have bare := Record.map_bare_of_unfilled h.records
  have behind : now.behind = image.behind := by
    rw [Image.behind, Image.behind, h.base, Record.extent_of_bare bare]
  have assigned : now.assigned = image.assigned := by
    funext x
    rw [Image.assigned, Image.assigned, behind, h.base, Record.assigned_of_bare bare, sentinel]
  refine ⟨⟨marks, listed, ?_⟩, ?_, ?_, h.objects, h.endSymbol, h.base, h.keepGoing⟩
  · simp only [Image.settle, assigned, program, Program.markReferenced,
      SymbolStore.assign_markReferenced]
  · simp only [Image.settle, h.base]
    exact Record.map_unfilled_addressed h.records
  · simp only [Image.settle, behind, sentinel]
    split <;> rfl

end Image

/-! ### Notes from before -/

theorem Scope.lookup_eq_ok {scope : Scope} {name : String} {word : Word} :
    scope.lookup name = .ok word ↔
      ∃ id, scope.find name = .ok id ∧ scope.addressOf name id = .ok word := by
  unfold lookup
  cases scope.find name <;> simp [bind, Except.bind]

/-- The second scope finds the same symbols, and has an address where the first has one. -/
structure Scope.Within (scope scope' : Scope) : Prop where
  find : ∀ name, scope'.find name = scope.find name
  addressOf : ∀ ⦃name id word⦄, scope.addressOf name id = .ok word →
    ∃ word', scope'.addressOf name id = .ok word'

namespace Scope.Within

variable {scope scope' : Scope}

theorem lookedUp (h : scope.Within scope') (names : List String) :
    Expr.lookedUp scope names ⊆ Expr.lookedUp scope' names := by
  induction names with
  | nil => exact List.Subset.refl _
  | cons name names ih =>
    unfold Expr.lookedUp
    rw [h.find name]
    cases scope.find name with
    | error e => exact List.Subset.refl _
    | ok id =>
      dsimp only
      cases address : scope.addressOf name id with
      | ok word =>
        obtain ⟨word', address'⟩ := h.addressOf address
        rw [address']
        exact List.cons_subset_cons id ih
      | error e =>
        dsimp only
        split <;> simp

theorem touched (h : scope.Within scope') (e : Expr) : e.touched scope ⊆ e.touched scope' := by
  unfold Expr.touched
  split
  · exact List.Subset.refl _
  · exact h.lookedUp e.references

theorem lookup (h : scope.Within scope') {name : String} {word : Word}
    (found : scope.lookup name = .ok word) : ∃ word', scope'.lookup name = .ok word' := by
  obtain ⟨id, here, address⟩ := Scope.lookup_eq_ok.mp found
  obtain ⟨word', address'⟩ := h.addressOf address
  exact ⟨word', Scope.lookup_eq_ok.mpr ⟨id, (h.find name).trans here, address'⟩⟩

theorem sumTerms (h : scope.Within scope') {ts : List Term} {v : Int}
    (sum : Expr.sumTerms scope ts = .ok v) : ∃ v', Expr.sumTerms scope' ts = .ok v' := by
  induction ts generalizing v with
  | nil => exact ⟨0, rfl⟩
  | cons t ts ih =>
    obtain ⟨a, b, first, rest, -⟩ := Expr.sumTerms_cons_ok.mp sum
    obtain ⟨b', rest'⟩ := ih rest
    obtain ⟨a', first'⟩ : ∃ a', Expr.termValue scope' t = .ok a' := by
      unfold Expr.termValue at first ⊢
      cases atom : t.atom with
      | reference name =>
        simp only [atom] at first ⊢
        cases found : scope.lookup name with
        | error e => simp [found, Except.map] at first
        | ok word =>
          obtain ⟨word', found'⟩ := h.lookup found
          rw [found']
          exact ⟨_, rfl⟩
      | _ => exact ⟨_, rfl⟩
    exact ⟨a' + b', Expr.sumTerms_cons_ok.mpr ⟨a', b', first', rest', rfl⟩⟩

/-- Where an operand can be evaluated, only a value that does not fit can stop the second scope. -/
theorem eval (h : scope.Within scope') {e : Expr} {slot : Slot} {operand : Operand}
    (made : e.eval slot scope = .ok operand) :
    (∃ operand', e.eval slot scope' = .ok operand') ∨
      ∃ err : AsmError, e.eval slot scope' = .error (.error err) ∧ err.kind = .encode := by
  obtain ⟨base, v, sum, fits, placed⟩ := Expr.eval_eq_ok.mp made
  obtain ⟨v', sum'⟩ : ∃ v', e.value scope' = .ok v' := h.sumTerms sum
  -- Without references the sum is the same.
  have same (none : e.hasReference = false) : v' - v = 0 := by
    rw [Expr.value_of_no_reference none] at sum sum'
    cases sum
    cases sum'
    omega
  have alike : Alike (fun o o' : Operand => o' = o.shift (v' - v))
      [] ((e.toOperand slot v).mapError Stop.error)
      [] ((e.toOperand slot v').mapError Stop.error) :=
    Expr.toOperand_shifted (by omega) same []
  rw [placed] at alike
  have later : e.eval slot scope' = (e.toOperand slot v').mapError Stop.error := by
    simp [Expr.eval, base, sum', fits, Except.mapError, bind, Except.bind]
  rw [later]
  generalize (e.toOperand slot v').mapError Stop.error = result at alike
  cases alike with
  | ok => exact .inl ⟨_, rfl⟩
  | right kind => exact .inr ⟨_, rfl, kind⟩

theorem touchedBy (h : scope.Within scope') {operands : List (Slot × Expr)}
    (fits : ∀ err, (operands.mapM fun p => return (p.1, ← p.2.eval p.1 scope') :
      Except (Stop AsmError) (List (Slot × Operand))) = .error (.error err) →
        err.kind ≠ .encode) :
    Operation.touchedBy scope operands ⊆ Operation.touchedBy scope' operands := by
  induction operands with
  | nil => exact List.Subset.refl _
  | cons operand operands ih =>
    obtain ⟨slot, e⟩ := operand
    have here : e.touched scope ⊆ Operation.touchedBy scope' ((slot, e) :: operands) := by
      unfold Operation.touchedBy
      split
      · exact h.touched e
      · exact List.Subset.trans (h.touched e) (List.subset_append_left _ _)
    cases made : e.eval slot scope with
    | error err => simpa only [Operation.touchedBy, made] using here
    | ok value =>
      rw [List.mapM_cons] at fits
      rcases h.eval made with ⟨value', made'⟩ | ⟨err, failed, kind⟩
      · have rest := ih fun err failed => fits err (by
          simp only [made', failed]
          rfl)
        simp only [Operation.touchedBy, made, made'] at here ⊢
        exact List.append_subset.mpr
          ⟨here, List.Subset.trans rest (List.subset_append_right _ _)⟩
      · refine absurd kind (fits err ?_)
        simp only [failed]
        rfl

theorem content (h : scope.Within scope') {c : Content}
    (fits : ∀ err, c.words scope' = .error (.error err) → err.kind ≠ .encode) :
    c.touched scope ⊆ c.touched scope' := by
  cases c with
  | operation o =>
    refine h.touchedBy fun err failed => fits err ?_
    simp only [Content.words, Operation.assemble, failed]
    rfl
  | data words => exact List.Subset.refl _
  | mark => exact List.Subset.refl _

end Scope.Within

namespace Image

variable {image now : Image} {ids : List SymbolId}

theorem within_settle (image : Image) (r : Record) :
    (r.scopeIn image.program).Within (r.scopeIn image.settle.program) := by
  refine ⟨fun name => ?_, fun name id word present => ?_⟩
  · have same : image.settle.program.symbols.unmarked = image.program.symbols.unmarked :=
      SymbolStore.unmarked_assign
    unfold Scope.find Program.resolve
    simp only [Record.scopeIn, SymbolStore.resolve_of_unmarked same]
    rfl
  · cases found : image.program.symbols.get? id with
    | none => simp [Scope.addressOf, Record.scopeIn, found, orFault, bind, Except.bind] at present
    | some sym =>
      have later : image.settle.program.symbols.get? id =
          some { sym with address := (image.assigned id).or sym.address } := by
        rw [settle, SymbolStore.get?_assign, found]
        rfl
      rw [Scope.addressOf_of_get? found] at present
      rw [Scope.addressOf_of_get? later]
      cases assigned : image.assigned id with
      | some word' => exact ⟨word', rfl⟩
      | none =>
        rw [Option.none_or]
        exact ⟨word, present⟩

/-- If an image can be filled once it has its addresses, filling it without them refers to no other
symbols. -/
theorem allTouched_subset (ok : image.settle.fill.1 = .ok ()) :
    Record.allTouched image.program image.records ⊆
      Record.allTouched image.settle.program image.settle.records := by
  have bare : image.settle.records.map Record.bare = image.records.map Record.bare :=
    Record.map_bare_addressed _ _
  rw [result_fill] at ok
  obtain ⟨filled, -⟩ := Record.filled_of_fillAll ok
  rw [Record.allTouched_of_bare bare]
  intro x touched
  obtain ⟨r, member, touched⟩ := List.mem_flatMap.mp touched
  obtain ⟨r', member', same⟩ := List.mem_map.mp (bare ▸ List.mem_map_of_mem member)
  obtain ⟨address, words, rfl⟩ := Record.exists_of_bare same
  obtain ⟨f, -, made⟩ := Runs.exists_right_of_forall₂ filled member'
  have fits : ∀ err, r.content.words (r.scopeIn image.settle.program) = .error (.error err) →
      err.kind ≠ .encode := by
    intro err failed
    rcases made.words_cases with ⟨words', made', -⟩ | ⟨e, failed', kind, -⟩
    · cases failed.symm.trans made'
    · cases failed.symm.trans failed'
      exact kind
  exact List.mem_flatMap.mpr ⟨r, member, (image.within_settle r).content fits touched⟩

theorem fill_of_ok (ok : image.fill.1 = .ok ()) :
    let filling := Record.fillAll image.program image.keepGoing image.records
    let filled : Image :=
      { image with
        program := image.program.markReferenced filling.touched
        records := filling.records
        sentinel := { image.sentinel with words := some [] } }
    image.fill.2.2 =
      { filled with closing := if filled.endIsReferenced then some filled.sentinel else none } := by
  rw [result_fill] at ok
  unfold fill
  dsimp only
  rw [ok]
  rfl

/-- Notes and words from before do not show after filling. -/
theorem Noted.fill_eq (h : Noted ids image now)
    (listed : image.fill.1 = .ok () → ids ⊆ Record.allTouched image.program image.records) :
    now.fill.1 = image.fill.1 ∧ now.fill.2.1 = image.fill.2.1 ∧
      (image.fill.1 = .ok () → now.fill.2.2 = image.fill.2.2) := by
  obtain ⟨result, log, touched, records⟩ := h.fillAll
  have sameResult : now.fill.1 = image.fill.1 := by rw [result_fill, result_fill, result]
  refine ⟨sameResult, by rw [log_fill, log_fill, log], fun ok => ?_⟩
  obtain ⟨marks, noted, program⟩ := h.notes
  have filled := ok
  rw [result_fill] at filled
  obtain ⟨-, all⟩ := Record.filled_of_fillAll filled
  have notes : now.program.markReferenced
      (Record.fillAll image.program image.keepGoing image.records).touched =
        image.program.markReferenced
          (Record.fillAll image.program image.keepGoing image.records).touched := by
    rw [program, markReferenced_append, all]
    exact congrArg (Program.mk · _)
      (SymbolStore.markReferenced_append_of_subset (List.Subset.trans noted (listed ok)))
  obtain ⟨words, sentinel⟩ := Record.exists_of_unfilled h.sentinel
  rw [fill_of_ok (sameResult.trans ok), fill_of_ok ok]
  dsimp only
  rw [touched, notes, records filled, sentinel]
  simp only [endIsReferenced, h.objects, h.endSymbol, h.base, h.keepGoing]
  rfl

theorem Noted.sameShape (h : Noted ids image now) : image.SameShape now := by
  obtain ⟨marks, -, program⟩ := h.notes
  refine ⟨Record.map_bare_of_unfilled h.records, ?_, h.base, ?_⟩
  · obtain ⟨words, same⟩ := Record.exists_of_unfilled h.sentinel
    rw [same]
    rfl
  · rw [program]
    exact SymbolStore.size_of_unmarked (SymbolStore.unmarked_markReferenced marks _)

theorem Noted.place (h : Noted ids image now) (ok : image.place.1 = .ok ()) :
    Noted ids image.settle now.place.2 := by
  rw [place_of_ok (h.sameShape.result_place.trans ok)]
  exact h.settle

/-- Once it has been placed, an image is as if it had been placed once, but for words and notes. -/
theorem noted_after (ok : image.place.1 = .ok ()) (before later : List LinkStep) :
    Noted (Record.allTouched image.program image.records ++
        Record.allTouched image.settle.program image.settle.records)
      image.settle (image.after (before ++ .place :: later)) := by
  generalize hIds : Record.allTouched image.program image.records ++
    Record.allTouched image.settle.program image.settle.records = ids
  have earlier : Record.allTouched image.program image.records ⊆ ids :=
    hIds ▸ List.subset_append_left _ _
  have touched : Record.allTouched image.settle.program image.settle.records ⊆ ids :=
    hIds ▸ List.subset_append_right _ _
  have settled : image.settle.place.1 = .ok () := by
    rw [← place_of_ok ok, (sameShape_place image).result_place, ok]
  have again (now : Image) (h : Noted ids image.settle now) :
      Noted ids image.settle now.place.2 := by
    have placed := h.place settled
    rwa [settle_settle] at placed
  -- Until it is placed for the first time the image still has its own addresses.
  have either : Noted ids image (image.after before) ∨
      Noted ids image.settle (image.after before) := by
    refine after_keeps (P := fun now => Noted ids image now ∨ Noted ids image.settle now)
      (fun now step h => ?_) (.inl (.refl ids image)) before
    cases step with
    | place => exact .inr (h.elim (·.place ok) (again now))
    | fill => exact h.imp (·.fill earlier) (·.fill touched)
  have placed : Noted ids image.settle (image.after before).place.2 :=
    either.elim (·.place ok) (again _)
  rw [after, List.foldl_append, List.foldl_cons]
  refine after_keeps (fun now step h => ?_) placed later
  cases step with
  | place => exact again now h
  | fill => exact h.fill touched

/-- Whatever steps have been taken, placing has the same result, and behind it filling ends as for
an image that has been placed once.  If it ends well the image is the same too, with its addresses,
its words and its last record. -/
theorem place_fill_after (image : Image) :
    (∀ steps, (image.after steps).place.1 = image.place.1) ∧
      ∀ before later, (image.after before).place.1 = .ok () →
        let now := image.after (before ++ .place :: later)
        let fresh := image.place.2
        now.fill.1 = fresh.fill.1 ∧ now.fill.2.1 = fresh.fill.2.1 ∧
          (fresh.fill.1 = .ok () → now.fill.2.2 = fresh.fill.2.2) := by
  have shapes := after_keeps (P := image.SameShape) (fun _ step h => h.step step) (.refl image)
  have results (steps : List LinkStep) : (image.after steps).place.1 = image.place.1 :=
    (shapes steps).result_place
  refine ⟨results, fun before later ok => ?_⟩
  rw [results before] at ok
  dsimp only
  rw [place_of_ok ok]
  refine (noted_after ok before later).fill_eq fun filled => ?_
  exact List.append_subset.mpr ⟨allTouched_subset filled, List.Subset.refl _⟩

/-- Filling before there are addresses fails and leaves a note about `_end`; then the image is
placed, filled and placed again. -/
theorem place_fill_after_premature :
    let a : Job := ⟨{}, "a.s", ":main set a, _end\njsr main"⟩
    ∃ image, link (Session.empty.after [a]).program [a.object? Session.empty].reduceOption {} =
        .ok image ∧
      image.fill.1 ≠ .ok () ∧ (image.after [.fill]).place.1 = .ok () ∧
      (image.after [.fill, .place, .fill, .place]).fill.1 = .ok () ∧
      (image.after [.fill, .place, .fill, .place]).fill.2.2.words =
        [0x7c01, 0x0004, 0x7c20, 0x0000] ∧
      (image.after [.fill, .place, .fill, .place]).fill.2.2.closing.isSome := by
  intro a
  let objects := [a.object? Session.empty].reduceOption
  have evaluated : (link (Session.empty.after [a]).program objects {}).toOption.map (fun image =>
      (image.fill.1.toOption, image.place.1.toOption, image.place.2.fill.1.toOption,
        image.place.2.fill.2.2.words, image.place.2.fill.2.2.closing.isSome)) =
      some (none, some (), some (), [0x7c01, 0x0004, 0x7c20, 0x0000], true) := by
    decide +kernel
  obtain ⟨image, linked, same⟩ := Option.map_eq_some_iff.mp evaluated
  simp only [Prod.mk.injEq] at same
  obtain ⟨premature, placed, filled, words, closing⟩ := same
  obtain ⟨results, fills⟩ := place_fill_after image
  have ok : (image.after [.fill]).place.1 = .ok () :=
    (results [.fill]).trans (Runs.eq_ok_of_toOption placed)
  have fresh := Runs.eq_ok_of_toOption filled
  obtain ⟨result, -, equal⟩ := fills [.fill] [.fill, .place] ok
  refine ⟨image, Runs.eq_ok_of_toOption linked, fun early => ?_, ok, result.trans fresh, ?_, ?_⟩
  · rw [early] at premature
    cases premature
  · exact (congrArg Image.words (equal fresh)).trans words
  · exact (congrArg (fun image => image.closing.isSome) (equal fresh)).trans closing

end Image

end Dcpu16
