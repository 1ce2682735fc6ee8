import Dcpu16.Proofs.LabelPlacement
import Dcpu16.Proofs.Reports

/-! Faults while a file is assembled.  The invariants of each stage hold the numbers of symbols and
lines within range, so looking them up does not fail.  There is one exception: the note about a name
that an earlier file of the same name has defined can ask for a line that this file does not
have. -/

namespace Dcpu16

/-- A computation that ends in a fault has gone beyond the width of its numbers. -/
structure OnlyOverflows {ε α : Type} (r : Except (Stop ε) α) : Prop where
  fault : ∀ {f}, r = .error (.fault f) → f = .overflow

namespace OnlyOverflows

variable {ε δ α β : Type} {r : Except (Stop ε) α}

theorem ok (a : α) : OnlyOverflows (.ok a : Except (Stop ε) α) := by
  constructor
  intro f run
  cases run

theorem error (e : ε) : OnlyOverflows (.error (.error e) : Except (Stop ε) α) := by
  constructor
  intro f run
  cases run

theorem overflow : OnlyOverflows (.error (.fault .overflow) : Except (Stop ε) α) := by
  constructor
  intro f run
  cases run
  rfl

/-- A computation that stops where another one has stopped. -/
theorem of_stop {e : Stop ε} (h : OnlyOverflows r) (stopped : r = .error e) :
    OnlyOverflows (.error e : Except (Stop ε) β) := by
  cases e with
  | error e => exact error e
  | fault f =>
    rw [h.fault stopped]
    exact overflow

theorem mapError (r : Except ε α) : OnlyOverflows (r.mapError Stop.error) := by
  cases r with
  | ok a => exact ok a
  | error e => exact error e

theorem orFault {f : Fault} {a : Option α} (found : a.isSome) :
    OnlyOverflows (orFault f a : Except (Stop ε) α) := by
  obtain ⟨a, rfl⟩ := Option.isSome_iff_exists.mp found
  exact ok a

theorem bind {next : α → Except (Stop ε) β} (first : OnlyOverflows r)
    (then_ : ∀ a, r = .ok a → OnlyOverflows (next a)) : OnlyOverflows (r >>= next) := by
  constructor
  intro f run
  cases made : r with
  | ok a =>
    rw [made] at run
    exact (then_ a made).fault run
  | error e =>
    rw [made] at run
    cases run
    exact first.fault made

theorem map (first : OnlyOverflows r) (g : α → β) : OnlyOverflows (r.map g) := by
  constructor
  intro f run
  cases made : r with
  | ok a =>
    rw [made] at run
    cases run
  | error e =>
    rw [made] at run
    cases run
    exact first.fault made

theorem mapM {g : β → Except (Stop ε) α} {xs : List β} (each : ∀ x ∈ xs, OnlyOverflows (g x)) :
    OnlyOverflows (xs.mapM g) := by
  induction xs with
  | nil => exact ok []
  | cons x xs ih =>
    rw [List.mapM_cons]
    apply bind (each x (by simp))
    intro y _
    apply bind (ih fun z member => each z (List.mem_cons_of_mem _ member))
    intro ys _
    exact ok _

end OnlyOverflows

namespace Assembler

/-- If the step ends in a fault, the fault and the session it leaves have `F`. -/
structure FaultsOnly {α : Type} (F : Fault → Session → Prop) (x : Assembler α) (s : Session) :
    Prop where
  fault : ∀ {f t}, x s = .error (.fault f) t → F f t

namespace FaultsOnly

variable {α β σ : Type} {F : Fault → Session → Prop} {x : Assembler α} {next : α → Assembler β}
  {s : Session}

theorem pure (a : α) : FaultsOnly F (pure a) s := by
  constructor
  intro f t run
  cases run

theorem fail (e : LocatedError) : FaultsOnly F (fail e : Assembler α) s := by
  constructor
  intro f t run
  cases run

theorem get : FaultsOnly F (get : Assembler Session) s := by
  constructor
  intro f t run
  cases run

theorem modify (g : Session → Session) : FaultsOnly F (modify g : Assembler Unit) s := by
  constructor
  intro f t run
  cases run

theorem report (d : Diagnostic) : FaultsOnly F (report d) s :=
  modify _

theorem bind (first : FaultsOnly F x s) (then_ : ∀ a t, x s = .ok a t → FaultsOnly F (next a) t) :
    FaultsOnly F (x >>= next) s := by
  constructor
  intro f t run
  have run' : EStateM.bind x next s = .error (.fault f) t := run
  cases made : x s with
  | ok a u =>
    rw [EStateM.bind, made] at run'
    exact (then_ a u made).fault run'
  | error e u =>
    rw [EStateM.bind, made] at run'
    cases run'
    exact first.fault made

theorem require {e : Fault} {o : Option α} (found : o.isSome) : FaultsOnly F (require e o) s := by
  obtain ⟨a, rfl⟩ := Option.isSome_iff_exists.mp found
  exact pure a

theorem located {locate : AsmError → LocatedError} {r : Except (Stop AsmError) α}
    (overflow : ∀ t, F .overflow t) (h : OnlyOverflows r) : FaultsOnly F (located locate r) s := by
  constructor
  intro f t run
  cases made : r with
  | ok a =>
    rw [made] at run
    cases run
  | error e =>
    rw [made] at run
    cases e with
    | error e => cases run
    | fault g =>
      cases run
      rw [h.fault made]
      exact overflow s

theorem symbol {id : SymbolId} (found : (s.program.symbols.get? id).isSome) :
    FaultsOnly F (symbol id) s := by
  apply bind get
  intro a t got
  cases got
  exact require found

theorem mangled {id : SymbolId} (found : (s.program.symbols.mangled? id).isSome) :
    FaultsOnly F (mangled id) s := by
  apply bind get
  intro a t got
  cases got
  exact require found

theorem mapM {g : β → Assembler α} {xs : List β} (I : Session → Prop)
    (keeps : ∀ x ∈ xs, ∀ {y : α} {s t : Session}, I s → g x s = .ok y t → I t)
    (each : ∀ x ∈ xs, ∀ {s : Session}, I s → FaultsOnly F (g x) s) (start : I s) :
    FaultsOnly F (xs.mapM g) s := by
  induction xs generalizing s with
  | nil => exact pure []
  | cons x xs ih =>
    rw [List.mapM_cons]
    apply bind (each x (by simp) start)
    intro y t first
    have later := ih (fun z member => keeps z (List.mem_cons_of_mem _ member))
      (fun z member => each z (List.mem_cons_of_mem _ member)) (keeps x (by simp) start first)
    apply bind later
    intro ys u _
    exact pure _

/-- A loop, where `I` speaks of the elements that have been dealt with. -/
theorem foldlM {step : σ → β → Assembler σ} (I : List β → σ → Session → Prop) {xs : List β}
    (keeps : ∀ done x rest, xs = done ++ x :: rest → ∀ {a b : σ} {s t : Session},
      I done a s → step a x s = .ok b t → I (done ++ [x]) b t)
    (each : ∀ done x rest, xs = done ++ x :: rest → ∀ {a : σ} {s : Session},
      I done a s → FaultsOnly F (step a x) s)
    {a : σ} (start : I [] a s) : FaultsOnly F (xs.foldlM step a) s := by
  suffices h : ∀ rest done a s, xs = done ++ rest → I done a s →
      FaultsOnly F (rest.foldlM step a) s from h xs [] a s rfl start
  intro rest
  induction rest with
  | nil =>
    intro done a s _ _
    exact pure a
  | cons x rest ih =>
    intro done a s split holds
    rw [List.foldlM_cons]
    apply bind (each done x rest split holds)
    intro b t first
    exact ih (done ++ [x]) b t (by simp [split]) (keeps done x rest split holds first)

theorem map (first : FaultsOnly F x s) (g : α → β) : FaultsOnly F (g <$> x) s := by
  rw [← bind_pure_comp]
  apply bind first
  intro a t _
  exact pure (g a)

theorem addSymbol {place : Place} {name : String} {parent : Option SymbolId}
    (inside : ∀ p, parent = some p → p < s.program.symbols.size) :
    FaultsOnly F (addSymbol place name parent) s := by
  have added : (s.program.symbols.add? place name parent).isSome := by
    cases parent with
    | none => rfl
    | some p =>
      have below := inside p rfl
      simp [SymbolStore.add?, below]
  apply bind get
  intro a t got
  cases got
  apply bind (require added)
  rintro ⟨id, symbols⟩ t _
  apply bind (modify _)
  intro _ t _
  exact pure id

end FaultsOnly

end Assembler

/-! ### Symbols that are there -/

namespace SymbolStore

variable {s : SymbolStore} {n x : Nat} {sym : Symbol}

theorem OwnerIs.isSome_mangled? {owner : Option SymbolId} {name : Option String}
    (h : s.OwnerIs n owner name) (linked : s.Linked n) (same : owner = some x) :
    (s.mangled? x).isSome := by
  subst same
  rcases h with ⟨none, -⟩ | ⟨id, g, same, -, new, sym, found, -⟩
  · cases none
  · cases same
    exact linked.isSome_mangled? new found

/-- A symbol can be hidden: it and its locals have mangled names before and after. -/
theorem Linked.isSome_hide? (linked : s.Linked n) (hx : n ≤ x) (found : s.get? x = some sym)
    (table : SymbolTable) : (s.hide? table x).isSome := by
  have members : ∀ y ∈ x :: sym.locals, n ≤ y ∧ ∃ member, s.get? y = some member := by
    intro y member
    rcases List.mem_cons.mp member with rfl | below
    · exact ⟨hx, sym, found⟩
    · obtain ⟨hy, child, hChild, -⟩ := (linked.locals hx found y).mp below
      exact ⟨hy, child, hChild⟩
  have before : ∀ y ∈ x :: sym.locals, (s.mangled? y).isSome := by
    intro y member
    obtain ⟨hy, child, hChild⟩ := members y member
    exact linked.isSome_mangled? hy hChild
  have after : ∀ y ∈ x :: sym.locals,
      ((s.modify x fun sym => { sym with visibility := .hidden }).mangled? y).isSome := by
    intro y member
    obtain ⟨hy, child, hChild⟩ := members y member
    obtain ⟨later, hLater⟩ := exists_get? (s := s.modify x fun sym =>
      { sym with visibility := .hidden }) (by rw [size_modify]; exact lt_size_of_get? hChild)
    exact (linked.hide x).isSome_mangled? hy hLater
  have erases : ((x :: sym.locals).foldlM
      (fun u member => return NameTable.erase u (← s.mangled? member)) table).isSome := by
    refine Runs.isSome_foldlM (fun y member u => ?_) table
    obtain ⟨key, named⟩ := Option.isSome_iff_exists.mp (before y member)
    rw [named]
    rfl
  obtain ⟨erased, hErase⟩ := Option.isSome_iff_exists.mp erases
  have inserts : ((x :: sym.locals).foldlM (fun u member => do
      let key ← (s.modify x fun sym => { sym with visibility := .hidden }).mangled? member
      return NameTable.insert u key member) erased).isSome := by
    refine Runs.isSome_foldlM (fun y member u => ?_) erased
    obtain ⟨key, named⟩ := Option.isSome_iff_exists.mp (after y member)
    rw [named]
    rfl
  obtain ⟨inserted, hInsert⟩ := Option.isSome_iff_exists.mp inserts
  rw [hide?_eq_some.mpr ⟨rfl, _, erased, linked.family?_eq hx found, hErase, hInsert⟩]
  rfl

/-- To look a name up, the symbol that it may be local to has to have a mangled name. -/
theorem onlyOverflows_resolve {table : SymbolTable} {file name : String} {scope : Option SymbolId}
    (named : ∀ x, scope = some x → (s.mangled? x).isSome) :
    OnlyOverflows (s.resolve table file name scope) := by
  unfold resolve
  dsimp only
  split
  · exact .ok _
  · split
    · split
      · exact .error _
      · next id =>
        apply OnlyOverflows.bind (.orFault (named id rfl))
        intro key _
        exact .ok _
    · split
      · exact .ok _
      · exact .ok _

end SymbolStore

/-! ### Labels -/

/-- A name of the program is defined again in a file with `count` lines.  Its first definition is in
a file of the same name, but behind these lines, so the note about it fails after the warning. -/
structure Program.LosesNote (p : Program) (policy : Redefinition) (file : String) (count : Nat)
    (key : String) (line : Nat) (t : Session) : Prop where
  warns : policy = .warn
  first : ∃ x sym, p.table.find? key = some x ∧ p.symbols.get? x = some sym ∧
    sym.place = ⟨file, line⟩
  beyond : count ≤ line
  warning : ∃ log d, t.log = log ++ [d] ∧ d.Redefines key ∧ d.file = file

namespace SourceLine

theorem exists_of_mem_declarations {owner : Option String} {lines : List SourceLine}
    {d : Declaration} (member : d ∈ declarationsFrom owner lines) :
    ∃ line ∈ lines, line.number = d.line := by
  induction lines generalizing owner with
  | nil => cases member
  | cons line lines ih =>
    rcases List.mem_append.mp member with here | below
    · obtain ⟨label, -, rfl⟩ := Option.map_eq_some_iff.mp (Option.mem_toList.mp here)
      exact ⟨line, by simp, rfl⟩
    · obtain ⟨other, inside, same⟩ := ih below
      exact ⟨other, List.mem_cons_of_mem _ inside, same⟩

end SourceLine

namespace SourceFile

open Assembler

variable {source : SourceFile} {policy : Redefinition} {F : Fault → Session → Prop}
  {s t : Session} {n : Nat} {done rest : List SourceLine} {line : SourceLine} {table : SymbolTable}

theorem faultsOnly_read (file text : String) : FaultsOnly F (read file text) s := by
  have each (line : String × Nat) {s : Session} : FaultsOnly F (readLine file line.1 line.2) s := by
    unfold readLine
    dsimp only
    split
    · exact .fail _
    · split
      · apply FaultsOnly.bind (.report _)
        intro _ t _
        exact .pure _
      · exact .pure _
  apply FaultsOnly.bind (.mapM (fun _ => True) (fun _ _ _ _ _ _ _ => trivial)
    (fun line _ _ _ => each line) trivial)
  intro lines t _
  exact .pure _

/-- A symbol of the file has its place in the file. -/
theorem WellRead.place_lt (read : source.WellRead) (split : source.lines = done ++ rest)
    {symbols : SymbolStore}
    (declared : symbols.Declared n source.file (SourceLine.declarations done)) {x : Nat}
    {sym : Symbol} (new : n ≤ x) (found : symbols.get? x = some sym) :
    sym.place.line < source.lines.length := by
  obtain ⟨d, first, place⟩ := declared.place new found
  obtain ⟨line, inside, number⟩ :=
    SourceLine.exists_of_mem_declarations (List.mem_of_find?_eq_some first)
  have below := read.number_lt split inside
  have length : source.lines.length = done.length + rest.length := by simp [split]
  rw [place]
  show d.line < _
  omega

theorem faultsOnly_line {number : Nat} (inside : number < source.lines.length) :
    FaultsOnly F (source.line number) s :=
  .require (by simp [inside])

/-- A name that is defined again.  The note about the first definition needs its line only if that
is in a file of this name. -/
theorem faultsOnly_redefine {name : String} {first : Place}
    (lost : policy = .warn → first.file = source.file → source.lines.length ≤ first.line →
      ∀ d : Diagnostic, d.Redefines name → d.file = source.file →
        F .missingLine { s with log := s.log ++ [d] }) :
    FaultsOnly F (source.redefine policy name line first) s := by
  cases policy with
  | error => exact .fail _
  | warn =>
    apply FaultsOnly.bind (.report _)
    intro _ t shown
    cases shown
    dsimp only
    split
    · next same =>
      refine FaultsOnly.bind (.map ?_ _) fun text t _ => .report _
      by_cases inside : first.line < source.lines.length
      · exact faultsOnly_line inside
      · have missing : source.lines[first.line]? = none := by simpa using inside
        constructor
        intro f t run
        rw [SourceFile.line, missing] at run
        cases run
        exact lost rfl same (Nat.not_lt.mp inside) _ ⟨rfl, rfl⟩ rfl
    · apply FaultsOnly.bind (.pure _)
      intro text t _
      exact .report _

theorem faultsOnly_parentOf {label : Label} {owner : Option SymbolId} :
    FaultsOnly F (source.parentOf line label owner) s := by
  unfold parentOf
  split
  · split
    · exact .pure _
    · exact .fail _
  · exact .pure _

theorem LabelsRead.faultsOnly {labels : Labels}
    (h : LabelsRead source n done labels s.program.symbols) (read : source.WellRead)
    (split : source.lines = done ++ line :: rest) :
    FaultsOnly F (source.addLabel policy labels line) s := by
  unfold addLabel
  cases hLabel : line.statement.label with
  | none => exact .pure _
  | some label =>
    apply FaultsOnly.bind faultsOnly_parentOf
    intro parent t hParent
    obtain ⟨rfl, parent_eq, -⟩ := parentOf_eq_ok hParent
    have known : ∀ p, parent = some p → (t.program.symbols.mangled? p).isSome := by
      intro p hp
      rw [hp] at parent_eq
      split at parent_eq
      · exact h.owner.isSome_mangled? h.linked parent_eq.symm
      · cases parent_eq
    have keyed : FaultsOnly F (labelKey label parent) t := by
      cases parent with
      | none => exact .pure _
      | some p =>
        apply FaultsOnly.bind (.mangled (known p rfl))
        intro front u _
        exact .pure _
    apply FaultsOnly.bind keyed
    intro key u hKey
    obtain ⟨rfl, -⟩ := labelKey_eq_ok hKey
    split
    · next first found =>
      obtain ⟨new, owner, name, ⟨sym, hSym, -⟩, -⟩ := (h.table key first).mp found
      apply FaultsOnly.bind (.symbol (by simp [hSym]))
      intro sym' v hRun
      obtain ⟨hSym', rfl⟩ := symbol_eq_ok.mp hRun
      have inside := read.place_lt split h.declared new hSym'
      apply FaultsOnly.bind (faultsOnly_redefine fun _ _ outside => absurd inside (by omega))
      intro _ v _
      exact .pure _
    · apply FaultsOnly.bind (.addSymbol fun p hp => ?_)
      · intro id v _
        exact .pure _
      · obtain ⟨name, named⟩ := Option.isSome_iff_exists.mp (known p hp)
        obtain ⟨psym, hp⟩ := SymbolStore.exists_get?_of_mangled? named
        exact SymbolStore.lt_size_of_get? hp

theorem faultsOnly_addLabels (read : source.WellRead) :
    FaultsOnly F (source.addLabels policy) s := by
  have fold : FaultsOnly F (source.lines.foldlM (source.addLabel policy) ⟨.empty, none⟩) s := by
    refine .foldlM (fun done labels t =>
        LabelsRead source s.program.symbols.size done labels t.program.symbols)
      (fun done line rest split _ _ _ _ h step => ?_)
      (fun done line rest split _ _ h => h.faultsOnly read split) (LabelsRead.start _)
    exact h.step (read.statement line (by simp [split])) step
  apply FaultsOnly.bind fold
  intro labels t _
  exact .pure _

/-! ### Hidden names and shared names -/

theorem NamesHidden.faultsOnly {hidden : List String}
    (h : NamesHidden source n hidden table s.program.symbols) (name : String × SourceLine) :
    FaultsOnly F (source.hideName table name) s := by
  unfold hideName
  split
  · next id found =>
    obtain ⟨new, named⟩ := h.lists.sound found
    obtain ⟨sym, hSym⟩ := SymbolStore.exists_get?_of_mangled? named
    apply FaultsOnly.bind .get
    intro a t got
    cases got
    apply FaultsOnly.bind (.require (h.linked.isSome_hide? new hSym table))
    rintro ⟨symbols, table'⟩ t _
    apply FaultsOnly.bind (.modify _)
    intro _ t _
    exact .pure _
  · apply FaultsOnly.bind (.report _)
    intro _ t _
    exact .pure _

theorem faultsOnly_hideNames (h : NamesHidden source n [] table s.program.symbols) :
    FaultsOnly F (source.hideNames table) s := by
  refine .foldlM (fun done table t =>
      NamesHidden source n (done.map Prod.fst) table t.program.symbols)
    (fun done name rest _ _ _ _ _ h step => ?_) (fun done name rest _ _ _ h => h.faultsOnly name) h
  rw [List.map_append]
  exact h.step step

theorem publishName_eq_ok {entry : String × SymbolId} {u : Unit}
    (run : source.publishName policy entry s = .ok u t) :
    t.program.symbols = s.program.symbols ∧
      ∀ key, key ≠ entry.1 → t.program.table.find? key = s.program.table.find? key := by
  obtain ⟨_, _, got, rest⟩ := bind_eq_ok.mp run
  cases got
  cases found : s.program.table.find? entry.1 with
  | none =>
    simp only [found] at rest
    cases rest
    exact ⟨rfl, fun key other => by simp [other]⟩
  | some first =>
    simp only [found] at rest
    obtain ⟨sym, v, hSym, rest⟩ := bind_eq_ok.mp rest
    obtain ⟨-, rfl⟩ := symbol_eq_ok.mp hSym
    obtain ⟨own, v, hOwn, rest⟩ := bind_eq_ok.mp rest
    obtain ⟨-, rfl⟩ := symbol_eq_ok.mp hOwn
    obtain ⟨line, v, hLine, redefined⟩ := bind_eq_ok.mp rest
    obtain ⟨-, rfl⟩ := require_eq_ok.mp hLine
    rw [redefine_eq_ok redefined]
    exact ⟨rfl, fun _ _ => rfl⟩

section Publish

variable {p : Program} {hidden : List String} (named : p.Named)
  (names : NamesHidden source n hidden table s.program.symbols) (read : source.WellRead)
  (lost : ∀ {key line t},
    p.LosesNote policy source.file source.lines.length key line t → F .missingLine t)
include named names read lost

theorem faultsOnly_publishName (remain : p.symbols.RemainIn s.program.symbols)
    {entry : String × SymbolId} (own : table.find? entry.1 = some entry.2)
    (shared : s.program.table.find? entry.1 = p.table.find? entry.1) :
    FaultsOnly F (source.publishName policy entry) s := by
  apply FaultsOnly.bind .get
  intro a t got
  cases got
  split
  · exact .modify _
  · next first found =>
    rw [shared] at found
    obtain ⟨old, hOld⟩ := SymbolStore.exists_get?_of_mangled? (named _ _ found)
    obtain ⟨later, hLater, same, -⟩ := remain hOld
    apply FaultsOnly.bind (.symbol (by simp [hLater]))
    intro sym t hRun
    obtain ⟨hSym, rfl⟩ := symbol_eq_ok.mp hRun
    obtain rfl := Option.some.inj (hLater.symm.trans hSym)
    obtain ⟨new, hKey⟩ := names.lists.sound own
    obtain ⟨mine, hMine⟩ := SymbolStore.exists_get?_of_mangled? hKey
    apply FaultsOnly.bind (.symbol (by simp [hMine]))
    intro mine t hRun'
    obtain ⟨hMine, rfl⟩ := symbol_eq_ok.mp hRun'
    have inside := read.place_lt (List.append_nil _).symm names.declared new hMine
    apply FaultsOnly.bind (faultsOnly_line inside)
    intro line t hLine
    obtain ⟨-, rfl⟩ := require_eq_ok.mp hLine
    apply faultsOnly_redefine
    intro warns file beyond d redefines hd
    have place : old.place = ⟨source.file, later.place.line⟩ := by
      rw [← file, same]
    exact lost ⟨warns, ⟨first, old, found, hOld, place⟩, beyond, _, d, rfl, redefines, hd⟩

/-- The names of a file are different, so each is compared with those of the program only. -/
theorem faultsOnly_publish (remain : p.symbols.RemainIn s.program.symbols)
    (distinct : table.names.Nodup) (shared : s.program.table = p.table) :
    FaultsOnly F (source.publish policy table) s := by
  suffices h : ∀ (es : List (String × SymbolId)) (t : Session), (∀ e ∈ es, e ∈ table.entries) →
      (es.map Prod.fst).Nodup → t.program.symbols = s.program.symbols →
      (∀ e ∈ es, t.program.table.find? e.1 = p.table.find? e.1) →
      FaultsOnly F (es.forM (source.publishName policy)) t from
    h table.entries s (fun _ member => member) distinct rfl fun _ _ => by rw [shared]
  intro es
  induction es with
  | nil =>
    intro t _ _ _ _
    exact .pure _
  | cons e es ih =>
    intro t inside distinct' symbols same
    rw [List.map_cons, List.nodup_cons] at distinct'
    have first : FaultsOnly F (source.publishName policy e) t := by
      rw [← symbols] at names remain
      exact faultsOnly_publishName named names read lost remain
        (NameTable.find?_of_mem distinct (inside e (by simp))) (same e (by simp))
    apply FaultsOnly.bind first
    intro _ u run
    obtain ⟨kept, others⟩ := publishName_eq_ok run
    refine ih u (fun e' member => inside e' (List.mem_cons_of_mem _ member)) distinct'.2
      (kept.trans symbols) fun e' member => ?_
    have other : e'.1 ≠ e.1 := fun equal => distinct'.1 (equal ▸ List.mem_map_of_mem member)
    rw [others _ other]
    exact same e' (List.mem_cons_of_mem _ member)

end Publish

end SourceFile

end Dcpu16
