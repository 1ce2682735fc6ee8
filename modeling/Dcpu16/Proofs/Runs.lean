import Mathlib.Data.List.Forall2

/-! Runs of a step over a list, where a step can fail.  A run that ends well has taken every
step. -/

namespace Dcpu16.Runs

variable {α β σ : Type} {xs : List α} {ys : List β}

theorem forall₂_of_mapM_some {f : α → Option β} (run : xs.mapM f = some ys) :
    List.Forall₂ (fun x y => f x = some y) xs ys := by
  induction xs generalizing ys with
  | nil =>
    simp at run
    simp [← run]
  | cons x xs ih =>
    simp only [List.mapM_cons, Option.bind_eq_bind, Option.pure_def, Option.bind_eq_some_iff,
      Option.some.injEq] at run
    obtain ⟨y, first, ys, rest, rfl⟩ := run
    exact .cons first (ih rest)

theorem forall₂_of_mapM_ok {ε : Type} {f : α → Except ε β} (run : xs.mapM f = .ok ys) :
    List.Forall₂ (fun x y => f x = .ok y) xs ys := by
  induction xs generalizing ys with
  | nil =>
    cases run
    exact .nil
  | cons x xs ih =>
    rw [List.mapM_cons] at run
    cases first : f x with
    | error e => simp [first, bind, Except.bind] at run
    | ok y =>
      cases rest : xs.mapM f with
      | error e => simp [first, rest, bind, Except.bind] at run
      | ok zs =>
        simp only [first, rest, bind, Except.bind, pure, Except.pure, Except.ok.injEq] at run
        subst run
        exact .cons first (ih rest)

/-- Only the steps on the elements of the list matter. -/
theorem mapM_congr {m : Type → Type} [Monad m] [LawfulMonad m] {f g : α → m β}
    (h : ∀ x ∈ xs, f x = g x) : xs.mapM f = xs.mapM g := by
  induction xs with
  | nil => rfl
  | cons x xs ih =>
    obtain ⟨here, later⟩ := List.forall_mem_cons.mp h
    rw [List.mapM_cons, List.mapM_cons, here, ih later]

theorem mapM_eq_none {f : α → Option β} : xs.mapM f = none ↔ ∃ x ∈ xs, f x = none := by
  induction xs with
  | nil => simp
  | cons x xs ih =>
    rw [List.mapM_cons, List.exists_mem_cons_iff, ← ih]
    cases f x with
    | none => simp
    | some y => cases xs.mapM f <;> simp

theorem mapM_eq_pure_map {m : Type → Type} [Monad m] [LawfulMonad m] {f : α → m β} {g : α → β}
    (h : ∀ x ∈ xs, f x = pure (g x)) : xs.mapM f = pure (xs.map g) := by
  induction xs with
  | nil => rfl
  | cons x xs ih =>
    rw [List.mapM_cons, h x (by simp), ih fun y member => h y (List.mem_cons_of_mem _ member)]
    simp

theorem mapM_eq_some_map {f : α → Option β} {g : α → β} (h : ∀ x ∈ xs, f x = some (g x)) :
    xs.mapM f = some (xs.map g) :=
  mapM_eq_pure_map h

theorem mapM_eq_ok_map {ε : Type} {f : α → Except ε β} {g : α → β}
    (h : ∀ x ∈ xs, f x = .ok (g x)) : xs.mapM f = .ok (xs.map g) :=
  mapM_eq_pure_map h

/-- A run ends well if every step does, and its results are those of the steps. -/
theorem exists_mapM_ok {ε : Type} {f : α → Except ε β} {R : α → β → Prop}
    (each : ∀ x ∈ xs, ∃ y, f x = .ok y ∧ R x y) :
    ∃ ys, xs.mapM f = .ok ys ∧ List.Forall₂ R xs ys := by
  induction xs with
  | nil => exact ⟨[], rfl, .nil⟩
  | cons x xs ih =>
    obtain ⟨here, later⟩ := List.forall_mem_cons.mp each
    obtain ⟨y, first, related⟩ := here
    obtain ⟨ys, rest, all⟩ := ih later
    refine ⟨y :: ys, ?_, .cons related all⟩
    rw [List.mapM_cons, first, rest]
    rfl

/-- A run fails at the first step that fails. -/
theorem mapM_eq_error {ε : Type} {f : α → Except ε β} {e : ε} :
    xs.mapM f = .error e ↔ ∃ before x after, xs = before ++ x :: after ∧
      (∀ y ∈ before, ∃ b, f y = .ok b) ∧ f x = .error e := by
  induction xs with
  | nil => exact iff_of_false (by rintro ⟨⟩) (by simp)
  | cons x xs ih =>
    rw [List.mapM_cons]
    cases first : f x with
    | error e' =>
      constructor
      · intro h
        cases h
        exact ⟨[], x, xs, rfl, by simp, first⟩
      · rintro ⟨_ | ⟨y, before⟩, z, after, split, went, stops⟩
        · cases split
          cases first.symm.trans stops
          rfl
        · cases split
          obtain ⟨b, ok⟩ := went x (by simp)
          cases first.symm.trans ok
    | ok b =>
      have rest : ((do let ys ← xs.mapM f; pure (b :: ys)) : Except ε (List β)) = .error e ↔
          xs.mapM f = .error e := by
        cases xs.mapM f <;> simp [bind, Except.bind, pure, Except.pure]
      refine Iff.trans rest (ih.trans ?_)
      constructor
      · rintro ⟨before, z, after, rfl, went, stops⟩
        exact ⟨x :: before, z, after, rfl, List.forall_mem_cons.mpr ⟨⟨b, first⟩, went⟩, stops⟩
      · rintro ⟨_ | ⟨y, before⟩, z, after, split, went, stops⟩
        · cases split
          cases first.symm.trans stops
        · cases split
          exact ⟨before, z, after, rfl, (List.forall_mem_cons.mp went).2, stops⟩

/-- What one step keeps, a run keeps. -/
theorem foldlM_some_keeps {step : σ → α → Option σ} (I : σ → Prop)
    (keeps : ∀ x ∈ xs, ∀ a b, I a → step a x = some b → I b) {a b : σ} (start : I a)
    (run : xs.foldlM step a = some b) : I b := by
  induction xs generalizing a with
  | nil =>
    simp at run
    exact run ▸ start
  | cons x xs ih =>
    rw [List.foldlM_cons] at run
    obtain ⟨c, first, rest⟩ := Option.bind_eq_some_iff.mp run
    exact ih (fun y member => keeps y (List.mem_cons_of_mem _ member))
      (keeps x (by simp) a c start first) rest

/-- A run ends well if every step does. -/
theorem isSome_foldlM {step : σ → α → Option σ} (each : ∀ x ∈ xs, ∀ a, (step a x).isSome) (a : σ) :
    (xs.foldlM step a).isSome := by
  induction xs generalizing a with
  | nil => rfl
  | cons x xs ih =>
    obtain ⟨b, first⟩ := Option.isSome_iff_exists.mp (each x (by simp) a)
    rw [List.foldlM_cons, first]
    exact ih (fun y member => each y (List.mem_cons_of_mem _ member)) b

theorem exists_left_of_forall₂ {R : α → β → Prop} (h : List.Forall₂ R xs ys) {y : β}
    (member : y ∈ ys) : ∃ x ∈ xs, R x y := by
  induction h with
  | nil => simp at member
  | cons head tail ih =>
    rcases List.mem_cons.mp member with rfl | later
    · exact ⟨_, by simp, head⟩
    · obtain ⟨x, inside, hx⟩ := ih later
      exact ⟨x, List.mem_cons_of_mem _ inside, hx⟩

theorem exists_right_of_forall₂ {R : α → β → Prop} (h : List.Forall₂ R xs ys) {x : α}
    (member : x ∈ xs) : ∃ y ∈ ys, R x y :=
  exists_left_of_forall₂ (R := fun y x => R x y) (List.Forall₂.flip h) member

theorem forall₂_imp_of_mem {R S : α → β → Prop} (h : List.Forall₂ R xs ys)
    (each : ∀ x y, y ∈ ys → R x y → S x y) : List.Forall₂ S xs ys := by
  induction h with
  | nil => exact .nil
  | cons head tail ih =>
    exact .cons (each _ _ (by simp) head)
      (ih fun x y member => each x y (List.mem_cons_of_mem _ member))

theorem map_eq_of_forall₂ {γ : Type} {R : α → β → Prop} {f : α → γ} {g : β → γ}
    (h : List.Forall₂ R xs ys) (same : ∀ x y, R x y → f x = g y) : xs.map f = ys.map g := by
  rw [← List.forall₂_eq_eq_eq, List.forall₂_map_left_iff, List.forall₂_map_right_iff]
  exact h.imp same

theorem eq_ok_of_toOption {ε : Type} {x : Except ε α} {a : α} (h : x.toOption = some a) :
    x = .ok a := by
  cases x with
  | error e => cases h
  | ok b => exact congrArg Except.ok (Option.some.inj h)

end Dcpu16.Runs
