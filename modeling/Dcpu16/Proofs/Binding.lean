import Dcpu16.ObjectFile.Records
import Dcpu16.Proofs.Atomicity
import Dcpu16.Proofs.Declarations

/-! Binding the names in operands.  What a name is bound to depends on the table and on what symbols
are, not on the notes about them, so a line is bound as if the program stood still. -/

namespace Dcpu16

namespace SymbolStore

variable {s t : SymbolStore}

theorem mangled?_of_unmarked (h : t.unmarked = s.unmarked) (x : Nat) :
    t.mangled? x = s.mangled? x := by
  cases named : s.mangled? x with
  | some key => exact (identityIn_of_unmarked h).mangled? named
  | none =>
    cases named' : t.mangled? x with
    | none => rfl
    | some key =>
      have back := (identityIn_of_unmarked h.symm).mangled? named'
      rw [named] at back
      cases back

theorem resolve_of_unmarked (h : t.unmarked = s.unmarked) (table : SymbolTable)
    (file name : String) (scope : Option SymbolId) :
    t.resolve table file name scope = s.resolve table file name scope := by
  unfold resolve
  simp only [mangled?_of_unmarked h]

end SymbolStore

namespace Program

/-- The programs differ at most in the notes about their symbols. -/
structure UpToNotes (p q : Program) : Prop where
  table : q.table = p.table
  symbols : q.symbols.unmarked = p.symbols.unmarked

variable {p q r : Program}

theorem UpToNotes.refl (p : Program) : p.UpToNotes p := ⟨rfl, rfl⟩

theorem UpToNotes.markReferenced (h : p.UpToNotes q) (ids : List SymbolId) :
    p.UpToNotes (q.markReferenced ids) :=
  ⟨h.table, (SymbolStore.unmarked_markReferenced ids q.symbols).trans h.symbols⟩

theorem UpToNotes.bindName (h : p.UpToNotes q) (file : String) (scope : Option SymbolId)
    (name : String) : q.bindName file scope name = p.bindName file scope name := by
  unfold Program.bindName Program.resolve
  simp only [h.table, SymbolStore.resolve_of_unmarked h.symbols,
    SymbolStore.mangled?_of_unmarked h.symbols]

end Program

/-- The same term, but a reference is to a name that `R` relates to the first. -/
inductive Term.Bound (R : String → String → Prop) : Term → Term → Prop
  | reference {sign : Option Sign} {name bound : String} (h : R name bound) :
      Bound R ⟨sign, .reference name⟩ ⟨sign, .reference bound⟩
  | other {t : Term} (h : ∀ name, t.atom ≠ .reference name) : Bound R t t

/-- The same expression, with names that `R` relates to the first ones. -/
structure Expr.Bound (R : String → String → Prop) (e e' : Expr) : Prop where
  indirect : e'.indirect = e.indirect
  terms : List.Forall₂ (Term.Bound R) e.terms e'.terms

namespace Expr

variable {R : String → String → Prop} {e e' : Expr} {s t : Session}

theorem Bound.imp_of_mem {S : String → String → Prop} (h : e.Bound R e')
    (each : ∀ name bound, bound ∈ e'.references → R name bound → S name bound) : e.Bound S e' := by
  refine ⟨h.indirect, Runs.forall₂_imp_of_mem h.terms fun t t' member related => ?_⟩
  cases related with
  | reference related =>
    exact .reference (each _ _ (List.mem_filterMap.mpr ⟨_, member, rfl⟩) related)
  | other none => exact .other none

theorem Bound.refl_of_mem (each : ∀ name ∈ e.references, R name name) : e.Bound R e := by
  refine ⟨rfl, List.forall₂_same.mpr fun t member => ?_⟩
  obtain ⟨sign, atom⟩ := t
  cases atom with
  | reference name => exact .reference (each name (List.mem_filterMap.mpr ⟨_, member, rfl⟩))
  | _ => exact .other (by simp)

open Assembler

/-- Naming the references of an expression anew, one after the other. -/
theorem mapReferences_eq_ok {f : String → Assembler String} (I : Session → Prop)
    (keeps : ∀ {name bound : String} {s t : Session}, I s → f name s = .ok bound t →
      I t ∧ R name bound)
    (start : I s) (run : e.mapReferences f s = .ok e' t) : I t ∧ e.Bound R e' := by
  obtain ⟨terms, u, made, last⟩ := bind_eq_ok.mp run
  simp only [pure_apply, EStateM.Result.ok.injEq] at last
  obtain ⟨rfl, rfl⟩ := last
  refine (mapM_keeps I (R := Term.Bound R) (fun term _ y s t hs step => ?_) start made).imp_right
    fun bound => ⟨rfl, bound⟩
  obtain ⟨sign, atom⟩ := term
  cases atom with
  | reference name =>
    obtain ⟨bound, v, named, last⟩ := bind_eq_ok.mp step
    simp only [pure_apply, EStateM.Result.ok.injEq] at last
    obtain ⟨rfl, rfl⟩ := last
    obtain ⟨after, related⟩ := keeps hs named
    exact ⟨after, .reference related⟩
  | _ =>
    simp only [pure_apply, EStateM.Result.ok.injEq] at step
    obtain ⟨rfl, rfl⟩ := step
    exact ⟨hs, .other (by simp)⟩

end Expr

end Dcpu16
