import Dcpu16.ObjectFile.Session
import Mathlib.Data.List.Forall2

/-! Steps of the assembler.  The `_eq_ok` lemmas take a step that ended well apart, `bind_eq_error`
one that stopped; `Leads` says what holds however a step ends. -/

namespace Dcpu16.Assembler

variable {α β σ : Type} {x : Assembler α} {f : α → Assembler β} {s t u : Session}

@[simp] theorem pure_apply (a : α) : (pure a : Assembler α) s = .ok a s := rfl

@[simp] theorem get_apply : (get : Assembler Session) s = .ok s s := rfl

@[simp] theorem throw_apply (e : Stop LocatedError) : (throw e : Assembler α) s = .error e s := rfl

@[simp] theorem fail_apply (e : LocatedError) :
    (fail e : Assembler α) s = .error (.error e) s := rfl

/-! ### Steps that end well -/

theorem bind_eq_ok {b : β} :
    (x >>= f) s = .ok b u ↔ ∃ a t, x s = .ok a t ∧ f a t = .ok b u := by
  show EStateM.bind x f s = _ ↔ _
  unfold EStateM.bind
  cases h : x s <;> simp [and_assoc]

theorem bind_eq_error {e : Stop LocatedError} :
    (x >>= f) s = .error e u ↔ x s = .error e u ∨ ∃ a t, x s = .ok a t ∧ f a t = .error e u := by
  show EStateM.bind x f s = _ ↔ _
  unfold EStateM.bind
  cases h : x s <;> simp [and_assoc]

theorem require_eq_ok {e : Fault} {o : Option α} {a : α} :
    require e o s = .ok a t ↔ o = some a ∧ s = t := by
  cases o <;> simp [require]

theorem located_eq_ok {locate : AsmError → LocatedError} {r : Except (Stop AsmError) α} {a : α} :
    located locate r s = .ok a t ↔ r = .ok a ∧ s = t := by
  cases r <;> simp [located]

theorem symbol_eq_ok {id : SymbolId} {sym : Symbol} :
    symbol id s = .ok sym t ↔ s.program.symbols.get? id = some sym ∧ s = t := by
  simp [symbol, bind_eq_ok, require_eq_ok, and_assoc, and_comm]

theorem mangled_eq_ok {id : SymbolId} {name : String} :
    mangled id s = .ok name t ↔ s.program.symbols.mangled? id = some name ∧ s = t := by
  simp [mangled, bind_eq_ok, require_eq_ok, and_assoc, and_comm]

theorem addSymbol_eq_ok {place : Place} {name : String} {parent : Option SymbolId}
    {id : SymbolId} :
    addSymbol place name parent s = .ok id t ↔
      ∃ symbols, s.program.symbols.add? place name parent = some (id, symbols) ∧
        { s with program := { s.program with symbols } } = t := by
  simp only [addSymbol, bind_eq_ok, require_eq_ok]
  constructor
  · rintro ⟨_, _, h, ⟨id, symbols⟩, _, ⟨found, rfl⟩, _, _, h', h''⟩
    cases h
    cases h'
    cases h''
    exact ⟨symbols, found, rfl⟩
  · rintro ⟨symbols, found, rfl⟩
    exact ⟨s, s, rfl, (id, symbols), s, ⟨found, rfl⟩, (), _, rfl, rfl⟩

theorem define_eq_ok {place : Place} {id : SymbolId} {isNew : Bool} :
    define place id s = .ok isNew t ↔
      ∃ symbols, s.program.symbols.define? id place = some (isNew, symbols) ∧
        { s with program := { s.program with symbols } } = t := by
  simp only [define, bind_eq_ok, require_eq_ok]
  constructor
  · rintro ⟨_, _, h, ⟨isNew, symbols⟩, _, ⟨found, rfl⟩, _, _, h', h''⟩
    cases h
    cases h'
    cases h''
    exact ⟨symbols, found, rfl⟩
  · rintro ⟨symbols, found, rfl⟩
    exact ⟨s, s, rfl, (isNew, symbols), s, ⟨found, rfl⟩, (), _, rfl, rfl⟩

/-- What one step keeps and relates, a run of steps over a list keeps and relates. -/
theorem mapM_keeps {g : β → Assembler α} (I : Session → Prop) {R : β → α → Prop} {xs : List β}
    {ys : List α} (keeps : ∀ x ∈ xs, ∀ {y : α} {s t : Session}, I s → g x s = .ok y t → I t ∧ R x y)
    (start : I s) (run : xs.mapM g s = .ok ys t) : I t ∧ List.Forall₂ R xs ys := by
  induction xs generalizing s t ys with
  | nil =>
    simp at run
    simpa [← run.1, ← run.2] using start
  | cons x xs ih =>
    rw [List.mapM_cons, bind_eq_ok] at run
    obtain ⟨y, u, first, rest⟩ := run
    obtain ⟨ys, v, later, last⟩ := bind_eq_ok.mp rest
    simp at last
    obtain ⟨mid, hy⟩ := keeps x (by simp) start first
    obtain ⟨final, hys⟩ := ih (fun x member => keeps x (List.mem_cons_of_mem _ member)) mid later
    exact last.1 ▸ last.2 ▸ ⟨final, .cons hy hys⟩

/-- A run of steps over a list that stops does so at one element, behind those that went well. -/
theorem mapM_eq_error {g : β → Assembler α} {e : Stop LocatedError} {xs : List β}
    (run : xs.mapM g s = .error e t) : ∃ before x after ys u, xs = before ++ x :: after ∧
      before.mapM g s = .ok ys u ∧ g x u = .error e t := by
  induction xs generalizing s with
  | nil => cases run
  | cons x xs ih =>
    rw [List.mapM_cons] at run
    have run' : EStateM.bind (g x) (fun y => xs.mapM g >>= fun ys => pure (y :: ys)) s =
      .error e t := run
    cases first : g x s with
    | error e' u =>
      rw [EStateM.bind, first] at run'
      cases run'
      exact ⟨[], x, xs, [], s, rfl, rfl, first⟩
    | ok y u =>
      rw [EStateM.bind, first] at run'
      have later : xs.mapM g u = .error e t := by
        have run'' : EStateM.bind (xs.mapM g) (fun ys => pure (y :: ys)) u = .error e t := run'
        cases rest : xs.mapM g u with
        | error e' v =>
          rw [EStateM.bind, rest] at run''
          exact run''
        | ok ys v =>
          rw [EStateM.bind, rest] at run''
          cases run''
      obtain ⟨before, z, after, ys, v, rfl, went, stops⟩ := ih later
      refine ⟨x :: before, z, after, y :: ys, v, rfl, ?_, stops⟩
      rw [List.mapM_cons]
      exact bind_eq_ok.mpr ⟨y, u, first, bind_eq_ok.mpr ⟨ys, v, went, rfl⟩⟩

/-- What one step keeps, a run of steps over a list keeps.  `I` speaks of the elements that have
been dealt with. -/
theorem foldlM_keeps {step : σ → β → Assembler σ} (I : List β → σ → Session → Prop)
    {xs : List β} (keeps : ∀ done x rest, xs = done ++ x :: rest → ∀ {a b : σ} {s t : Session},
      I done a s → step a x s = .ok b t → I (done ++ [x]) b t)
    {a b : σ} (start : I [] a s) (run : xs.foldlM step a s = .ok b t) : I xs b t := by
  suffices h : ∀ rest done a s, xs = done ++ rest → I done a s →
      rest.foldlM step a s = .ok b t → I xs b t from h xs [] a s rfl start run
  intro rest
  induction rest with
  | nil =>
    intro done a s split holds run
    simp at run
    simpa [split, run.1, run.2] using holds
  | cons x rest ih =>
    intro done a s split holds run
    rw [List.foldlM_cons, bind_eq_ok] at run
    obtain ⟨c, u, first, later⟩ := run
    exact ih (done ++ [x]) c u (by simp [split]) (keeps done x rest split holds first) later

/-! ### Steps however they end -/

/-- However the step `x` ends when it starts at `s`, the session it leaves has `P`; if it ends with
a value, the value and the session have `Q`. -/
def Leads (x : Assembler α) (s : Session) (P : Session → Prop) (Q : α → Session → Prop) : Prop :=
  match x s with
  | .ok a t => P t ∧ Q a t
  | .error _ t => P t

namespace Leads

variable {P : Session → Prop} {Q : α → Session → Prop} {R : β → Session → Prop}

theorem of_ok {a : α} (h : x s = .ok a t) (hP : P t) (hQ : Q a t) : Leads x s P Q := by
  rw [Leads, h]
  exact ⟨hP, hQ⟩

theorem of_error {e : Stop LocatedError} (h : x s = .error e t) (hP : P t) : Leads x s P Q := by
  rw [Leads, h]
  exact hP

theorem ok {a : α} (lead : Leads x s P Q) (h : x s = .ok a t) : P t ∧ Q a t := by
  rw [Leads, h] at lead
  exact lead

theorem error {e : Stop LocatedError} (lead : Leads x s P Q) (h : x s = .error e t) : P t := by
  rw [Leads, h] at lead
  exact lead

theorem weaken {P' : Session → Prop} {Q' : α → Session → Prop} (lead : Leads x s P Q)
    (hP : ∀ t, P t → P' t) (hQ : ∀ a t, P t → Q a t → Q' a t) : Leads x s P' Q' := by
  cases run : x s with
  | ok a t => exact of_ok run (hP t (lead.ok run).1) (hQ a t (lead.ok run).1 (lead.ok run).2)
  | error e t => exact of_error run (hP t (lead.error run))

theorem pure {a : α} (hP : P s) (hQ : Q a s) : Leads (pure a) s P Q := ⟨hP, hQ⟩

theorem bind (lead : Leads x s P Q) (next : ∀ a t, P t → Q a t → Leads (f a) t P R) :
    Leads (x >>= f) s P R := by
  cases run : x s with
  | ok a t =>
    have after : (x >>= f) s = f a t := by
      show EStateM.bind x f s = _
      rw [EStateM.bind, run]
    have later := next a t (lead.ok run).1 (lead.ok run).2
    rwa [Leads, after]
  | error e t =>
    have after : (x >>= f) s = .error e t := by
      show EStateM.bind x f s = _
      rw [EStateM.bind, run]
    exact of_error after (lead.error run)

theorem require {e : Fault} {o : Option α} (hP : P s) (hQ : ∀ a, o = some a → Q a s) :
    Leads (require e o) s P Q := by
  cases o with
  | none => exact of_error rfl hP
  | some a => exact of_ok rfl hP (hQ a rfl)

theorem located {locate : AsmError → LocatedError} {r : Except (Stop AsmError) α} (hP : P s)
    (hQ : ∀ a, r = .ok a → Q a s) : Leads (located locate r) s P Q := by
  cases r with
  | error e => exact of_error rfl hP
  | ok a => exact of_ok rfl hP (hQ a rfl)

theorem get (hP : P s) : Leads (get : Assembler Session) s P fun a t => a = s ∧ t = s :=
  ⟨hP, rfl, rfl⟩

theorem foldlM {step : σ → β → Assembler σ} {I : σ → Session → Prop} {xs : List β} {a : σ}
    (keeps : ∀ a x s, P s → I a s → Leads (step a x) s P I) (hP : P s) (start : I a s) :
    Leads (xs.foldlM step a) s P I := by
  induction xs generalizing a s with
  | nil => exact Leads.pure hP start
  | cons x xs ih =>
    rw [List.foldlM_cons]
    exact (keeps a x s hP start).bind fun b t hP hI => ih hP hI

end Leads

/-- What the log says does not matter for `P`. -/
def IgnoresLog (P : Session → Prop) : Prop :=
  ∀ s log, P s → P { s with log }

/-- The step keeps `P`, however it ends. -/
def Keeps (P : Session → Prop) (x : Assembler α) : Prop :=
  ∀ s, P s → Leads x s P fun _ _ => True

namespace Keeps

variable {P : Session → Prop}

theorem pure (a : α) : Keeps P (pure a) := fun _ h => .pure h trivial

theorem fail (e : LocatedError) : Keeps P (fail e : Assembler α) := fun _ h => .of_error rfl h

theorem throw (e : Stop LocatedError) : Keeps P (throw e : Assembler α) :=
  fun _ h => .of_error rfl h

theorem bind (first : Keeps P x) (next : ∀ a, Keeps P (f a)) : Keeps P (x >>= f) :=
  fun s h => (first s h).bind fun a t h _ => next a t h

theorem map (first : Keeps P x) (g : α → β) : Keeps P (g <$> x) := by
  rw [← bind_pure_comp]
  exact first.bind fun a => .pure (g a)

theorem get : Keeps P (get : Assembler Session) := fun _ h => ⟨h, trivial⟩

theorem modify {g : Session → Session} (keeps : ∀ s, P s → P (g s)) :
    Keeps P (modify g : Assembler Unit) :=
  fun s h => .of_ok rfl (keeps s h) trivial

theorem report (free : IgnoresLog P) (d : Diagnostic) : Keeps P (report d) :=
  .modify fun s h => free s _ h

theorem require (e : Fault) (o : Option α) : Keeps P (require e o) :=
  fun _ h => .require h fun _ _ => trivial

theorem located (locate : AsmError → LocatedError) (r : Except (Stop AsmError) α) :
    Keeps P (located locate r) :=
  fun _ h => .located h fun _ _ => trivial

theorem symbol (id : SymbolId) : Keeps P (symbol id) :=
  get.bind fun _ => .require _ _

theorem mangled (id : SymbolId) : Keeps P (mangled id) :=
  get.bind fun _ => .require _ _

theorem mapM {g : β → Assembler α} (keeps : ∀ x, Keeps P (g x)) (xs : List β) :
    Keeps P (xs.mapM g) := by
  induction xs with
  | nil => exact .pure _
  | cons x xs ih =>
    rw [List.mapM_cons]
    exact (keeps x).bind fun _ => ih.bind fun _ => .pure _

theorem foldlM {step : σ → β → Assembler σ} (keeps : ∀ a x, Keeps P (step a x)) (xs : List β)
    (a : σ) : Keeps P (xs.foldlM step a) :=
  fun _ h => Leads.foldlM (fun a x s h _ => keeps a x s h) h trivial

/-- What follows a step of which only `P` is known. -/
theorem leads {Q : β → Session → Prop} (first : Keeps P x) (h : P s)
    (next : ∀ a t, P t → Leads (f a) t P Q) : Leads (x >>= f) s P Q :=
  (first s h).bind fun a t h _ => next a t h

end Keeps

end Dcpu16.Assembler
