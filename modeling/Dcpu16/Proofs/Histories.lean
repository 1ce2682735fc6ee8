import Dcpu16.Proofs.Families
import Mathlib.Logic.Relation

/-! The links between symbols under any history.  Going back to an earlier point drops symbols but
leaves their numbers among the locals of others, and new symbols take these numbers.  The locals of
a symbol then need not be its own, yet they have larger numbers than it, so that no chain of links
goes on for ever. -/

namespace Dcpu16

/-! ### One step -/

namespace SymbolStore

variable {s t : SymbolStore} {id x : Nat} {sym : Symbol}

theorem ordered_empty : empty.Ordered := nested_empty.ordered

namespace Ordered

variable (ordered : s.Ordered)
include ordered

/-- Symbols with the same links as before. -/
theorem of_links (back : ∀ {x : Nat} {sym : Symbol}, t.get? x = some sym →
    ∃ old, s.get? x = some old ∧ old.parent = sym.parent ∧ old.locals = sym.locals) :
    t.Ordered := by
  constructor
  · intro x sym p found isParent
    obtain ⟨old, found', parent, -⟩ := back found
    exact ordered.parent found' (parent.trans isParent)
  · intro x sym y found isLocal
    obtain ⟨old, found', -, locals⟩ := back found
    exact ordered.locals found' (locals ▸ isLocal)

theorem add {place : Place} {name : String} {parent : Option Nat}
    (h : s.add? place name parent = some (id, t)) : t.Ordered := by
  constructor
  · intro x sym p found isParent
    rcases get?_add_cases h found with ⟨rfl, rfl⟩ | ⟨old, hOld, rfl⟩
    · obtain rfl : parent = some p := isParent
      exact parent_lt_of_add h
    · exact ordered.parent hOld isParent
  · intro x sym y found isLocal
    rcases get?_add_cases h found with ⟨rfl, rfl⟩ | ⟨old, hOld, rfl⟩
    · cases isLocal
    · dsimp only at isLocal
      split at isLocal
      · rcases List.mem_append.mp isLocal with inside | last
        · exact ordered.locals hOld inside
        · rw [List.mem_singleton.mp last]
          exact lt_size_of_get? hOld
      · exact ordered.locals hOld isLocal

theorem hide {table table' : SymbolTable} (h : s.hide? table id = some (t, table')) :
    t.Ordered := by
  obtain ⟨rfl, -⟩ := hide?_eq_some.mp h
  refine ordered.of_links fun {x sym} found => ?_
  rw [get?_modify] at found
  split at found
  · obtain ⟨old, found', rfl⟩ := Option.map_eq_some_iff.mp found
    exact ⟨old, found', rfl, rfl⟩
  · exact ⟨sym, found, rfl, rfl⟩

theorem of_unmarked (h : t.unmarked = s.unmarked) : t.Ordered := by
  refine ordered.of_links fun found => ?_
  obtain ⟨old, found', same⟩ := get?_of_unmarked h found
  obtain ⟨identity, locals⟩ := Symbol.unmarked_eq_iff.mp same
  exact ⟨old, found', (Symbol.identity_eq_iff.mp identity).2.2.1, locals⟩

/-- Dropping the last symbols may leave locals without a symbol, but not without their order. -/
theorem take (n : Nat) : (s.take n).Ordered := by
  refine ordered.of_links fun {x sym} found => ?_
  rw [get?, SymbolStore.take, List.getElem?_take] at found
  exact ⟨sym, (Option.ite_none_right_eq_some.mp found).2, rfl, rfl⟩

end Ordered

/-! ### Chains of links -/

/-- The symbol `x` has `p` as its parent. -/
def IsParent (s : SymbolStore) (p x : SymbolId) : Prop :=
  ∃ sym, s.get? x = some sym ∧ sym.parent = some p

/-- The symbol `x` has `y` among its locals, which need not be in the store. -/
def IsLocal (s : SymbolStore) (y x : SymbolId) : Prop :=
  ∃ sym, s.get? x = some sym ∧ y ∈ sym.locals

/-- The links between symbols lead somewhere.  A parent is in the store and comes before the symbol,
and a local comes behind it, so no chain of links goes on for ever.  Every symbol has a mangled
name, which follows from that of its parent, and a family consists of the symbol and the families of
its locals.  Only a member that is not in the store cuts it off. -/
structure WellLinked (s : SymbolStore) : Prop where
  parent : ∀ ⦃x : Nat⦄ ⦃sym : Symbol⦄ ⦃p : Nat⦄, s.get? x = some sym → sym.parent = some p →
    p < x ∧ p < s.size
  locals : ∀ ⦃x : Nat⦄ ⦃sym : Symbol⦄ ⦃y : Nat⦄, s.get? x = some sym → y ∈ sym.locals → x < y
  parents_end : WellFounded s.IsParent
  locals_end : WellFounded s.IsLocal
  mangled : ∀ ⦃x : Nat⦄ ⦃sym : Symbol⦄, s.get? x = some sym →
    ∃ name, s.mangled? x = some name ∧ sym.nameFrom s.mangled? = some name
  family : ∀ x, s.family? x = (s.get? x).bind fun sym =>
    (sym.locals.mapM s.family?).map fun below => x :: below.flatten
  cut_off : ∀ x, s.family? x = none ↔ ∃ y, s.InFamily x y ∧ s.size ≤ y

namespace Ordered

variable (ordered : s.Ordered)
include ordered

theorem wellFounded_isParent : WellFounded s.IsParent := by
  refine Subrelation.wf (fun {p x} h => ?_) Nat.lt_wfRel.wf
  obtain ⟨sym, found, isParent⟩ := h
  exact ordered.parent found isParent

/-- The number of symbols behind a symbol is smaller for each of its locals. -/
theorem wellFounded_isLocal : WellFounded s.IsLocal := by
  refine Subrelation.wf (fun {y x} h => ?_) (measure fun x => s.size - x).wf
  obtain ⟨sym, found, isLocal⟩ := h
  have later := ordered.locals found isLocal
  have inside := lt_size_of_get? found
  show s.size - y < s.size - x
  omega

theorem wellLinked : s.WellLinked where
  parent x sym p found isParent := by
    have before := ordered.parent found isParent
    exact ⟨before, Nat.lt_trans before (lt_size_of_get? found)⟩
  locals := ordered.locals
  parents_end := ordered.wellFounded_isParent
  locals_end := ordered.wellFounded_isLocal
  mangled x sym found := by
    obtain ⟨name, named⟩ := Option.isSome_iff_exists.mp (ordered.isSome_mangled? found)
    have equation := ordered.mangled?_eq x
    rw [named, found, Option.bind_some] at equation
    exact ⟨name, named, equation.symm⟩
  family := ordered.family?_eq
  cut_off x := by
    rw [ordered.family?_eq_none]
    simp only [get?, List.getElem?_eq_none_iff, size]

end Ordered

end SymbolStore

/-! ### All steps -/

/-- A program, and the points that have been noted on the way to it. -/
structure Timeline where
  program : Program
  points : List Checkpoint

namespace Timeline

/-- The empty program, before any point. -/
def empty : Timeline := ⟨.empty, []⟩

/-- What can be done to a program: a symbol is added or hidden, names are put into its table or
taken out, notes about symbols are taken, a point is noted, or the program goes back to a point that
has been noted. -/
inductive Step : Timeline → Timeline → Prop
  | add {l : Timeline} {place : Place} {name : String} {parent : Option SymbolId} {id : SymbolId}
      {symbols : SymbolStore}
      (added : l.program.symbols.add? place name parent = some (id, symbols)) :
      Step l { l with program := { l.program with symbols } }
  | hide {l : Timeline} {table table' : SymbolTable} {id : SymbolId} {symbols : SymbolStore}
      (hidden : l.program.symbols.hide? table id = some (symbols, table')) :
      Step l { l with program := { l.program with symbols } }
  | rename {l : Timeline} (table : SymbolTable) :
      Step l { l with program := { l.program with table } }
  | mark {l : Timeline} {symbols : SymbolStore}
      (same : symbols.unmarked = l.program.symbols.unmarked) :
      Step l { l with program := { l.program with symbols } }
  | note {l : Timeline} : Step l { l with points := l.program.checkpoint :: l.points }
  | rollback {l : Timeline} {point : Checkpoint} (noted : point ∈ l.points) :
      Step l { l with program := l.program.rollback point }

variable {l l' : Timeline}

theorem Step.ordered (step : Step l l') (ordered : l.program.symbols.Ordered) :
    l'.program.symbols.Ordered := by
  cases step with
  | add added => exact ordered.add added
  | hide hidden => exact ordered.hide hidden
  | rename table => exact ordered
  | mark same => exact ordered.of_unmarked same
  | note => exact ordered
  | @rollback point noted => exact ordered.take point.symbols

theorem ordered_of_steps (steps : Relation.ReflTransGen Step empty l) :
    l.program.symbols.Ordered := by
  induction steps with
  | refl => exact SymbolStore.ordered_empty
  | tail _ step ih => exact step.ordered ih

/-- Whatever has been done to a program, the links between its symbols lead somewhere. -/
theorem wellLinked_of_steps (steps : Relation.ReflTransGen Step empty l) :
    l.program.symbols.WellLinked :=
  (ordered_of_steps steps).wellLinked

/-- A symbol whose local has been dropped. -/
def dropped : SymbolStore :=
  ⟨[{ name := "main", place := ⟨"a.s", 0⟩, parent := none, visibility := .global, locals := [1] }]⟩

/-- Two symbols of another file behind it, the first of which has the number of the local. -/
def reused : SymbolStore :=
  ⟨dropped.symbols ++
    [{ name := "other", place := ⟨"b.s", 0⟩, parent := none, visibility := .global, locals := [2] },
      { name := ".in", place := ⟨"b.s", 1⟩, parent := some 1, visibility := .scoped }]⟩

/-- A family is cut off while the number of its member is free, and takes in strangers once that
number has been given away. -/
theorem wellLinked_reused :
    (∃ l, Relation.ReflTransGen Step empty l ∧ l.program.symbols = dropped ∧
      dropped.WellLinked ∧ dropped.family? 0 = none) ∧
    ∃ l, Relation.ReflTransGen Step empty l ∧ l.program.symbols = reused ∧
      reused.WellLinked ∧ reused.family? 0 = some [0, 1, 2] ∧
      reused.mangled? 2 = some "other$$.in" := by
  let main : SymbolStore :=
    ⟨[{ name := "main", place := ⟨"a.s", 0⟩, parent := none, visibility := .global }]⟩
  let nested : SymbolStore :=
    ⟨dropped.symbols ++
      [{ name := ".loop", place := ⟨"a.s", 1⟩, parent := some 0, visibility := .scoped }]⟩
  let other : SymbolStore :=
    ⟨dropped.symbols ++
      [{ name := "other", place := ⟨"b.s", 0⟩, parent := none, visibility := .global }]⟩
  have back : Relation.ReflTransGen Step empty ⟨⟨dropped, .empty⟩, [⟨1, 0⟩]⟩ := by
    have added : Step empty ⟨⟨main, .empty⟩, []⟩ :=
      .add (rfl : SymbolStore.empty.add? ⟨"a.s", 0⟩ "main" none = some (0, main))
    have noted : Step ⟨⟨main, .empty⟩, []⟩ ⟨⟨main, .empty⟩, [⟨1, 0⟩]⟩ := .note
    have grown : Step ⟨⟨main, .empty⟩, [⟨1, 0⟩]⟩ ⟨⟨nested, .empty⟩, [⟨1, 0⟩]⟩ :=
      .add (rfl : main.add? ⟨"a.s", 1⟩ ".loop" (some 0) = some (1, nested))
    have undone : Step ⟨⟨nested, .empty⟩, [⟨1, 0⟩]⟩ ⟨⟨dropped, .empty⟩, [⟨1, 0⟩]⟩ :=
      .rollback (l := ⟨⟨nested, .empty⟩, [⟨1, 0⟩]⟩)
        (List.mem_cons_self : (⟨1, 0⟩ : Checkpoint) ∈ [⟨1, 0⟩])
    exact (((Relation.ReflTransGen.single added).tail noted).tail grown).tail undone
  have given : Relation.ReflTransGen Step empty ⟨⟨reused, .empty⟩, [⟨1, 0⟩]⟩ := by
    have first : Step ⟨⟨dropped, .empty⟩, [⟨1, 0⟩]⟩ ⟨⟨other, .empty⟩, [⟨1, 0⟩]⟩ :=
      .add (rfl : dropped.add? ⟨"b.s", 0⟩ "other" none = some (1, other))
    have second : Step ⟨⟨other, .empty⟩, [⟨1, 0⟩]⟩ ⟨⟨reused, .empty⟩, [⟨1, 0⟩]⟩ :=
      .add (rfl : other.add? ⟨"b.s", 1⟩ ".in" (some 1) = some (2, reused))
    exact (back.tail first).tail second
  exact ⟨⟨_, back, rfl, wellLinked_of_steps back, by decide⟩,
    _, given, rfl, wellLinked_of_steps given, by decide, by decide⟩

end Timeline

end Dcpu16
