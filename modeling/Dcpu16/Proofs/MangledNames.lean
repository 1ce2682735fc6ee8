import Dcpu16.Proofs.Extension

/-! Mangled names.  The parts of a mangled name have no `$`, apart from the name of a file, so the
last part can be told from what stands in front of it. -/

namespace Dcpu16

namespace Symbol

/-- The name has no `$`. -/
def Simple (name : String) : Prop := '$' ∉ name.toList

instance (name : String) : Decidable (Simple name) :=
  inferInstanceAs (Decidable (_ ∉ _))

variable {a b c d : String}

theorem toList_localName (a b : String) :
    (localName a b).toList = a.toList ++ '$' :: '$' :: b.toList := by
  have separator : separator.toList = ['$', '$'] := rfl
  simp [localName, separator]

theorem privateName_eq_localName (file name : String) :
    privateName file name = localName (fileName file) name := rfl

/-- What stands in front of a name without a `$` does not reach beyond its separator. -/
theorem front_eq_nil {xs bs ds : List Char} (hb : '$' ∉ bs)
    (reach : '$' :: '$' :: bs = xs ++ '$' :: '$' :: ds) : xs = [] := by
  match xs with
  | [] => rfl
  | [x] =>
    simp only [List.cons_append, List.nil_append, List.cons.injEq] at reach
    exact absurd (by simp [reach]) hb
  | x :: y :: xs =>
    simp only [List.cons_append, List.cons.injEq] at reach
    exact absurd (by simp [reach]) hb

/-- The last part of a name, without a `$`, can be told from what stands in front of it. -/
theorem localName_inj (hb : Simple b) (hd : Simple d) :
    localName a b = localName c d ↔ a = c ∧ b = d := by
  refine ⟨fun same => ?_, fun ⟨ha, hb⟩ => by rw [ha, hb]⟩
  have lists := congrArg String.toList same
  rw [toList_localName, toList_localName, List.append_eq_append_iff] at lists
  rcases lists with ⟨more, hc, hReach⟩ | ⟨more, ha, hReach⟩
  · obtain rfl := front_eq_nil hb hReach
    simp only [List.nil_append, List.cons.injEq, true_and] at hReach
    exact ⟨String.toList_inj.mp (by simp [hc]), String.toList_inj.mp hReach⟩
  · obtain rfl := front_eq_nil hd hReach
    simp only [List.nil_append, List.cons.injEq, true_and] at hReach
    exact ⟨String.toList_inj.mp (by simp [ha]), String.toList_inj.mp hReach.symm⟩

theorem localName_ne (hc : Simple c) : localName a b ≠ c := by
  intro same
  apply hc
  rw [← same, toList_localName]
  simp

theorem localName_ne_front : localName a b ≠ a := by
  intro same
  have lengths := congrArg (List.length ∘ String.toList) same
  simp [toList_localName] at lengths

/-- A mangled name has one last part. -/
theorem eq_of_ends {key : String} (ha : Simple a) (hb : Simple b)
    (ends : key = a ∨ ∃ front, key = localName front a)
    (ends' : key = b ∨ ∃ front, key = localName front b) : a = b := by
  rcases ends with same | ⟨front, same⟩ <;> rcases ends' with same' | ⟨front', same'⟩
  · exact same.symm.trans same'
  · exact absurd (same'.symm.trans same) (localName_ne ha)
  · exact absurd (same.symm.trans same') (localName_ne hb)
  · exact ((localName_inj ha hb).mp (same.symm.trans same')).2

theorem hasDoubleDollar_append (xs ys : List Char) :
    Text.hasDoubleDollar (xs ++ '$' :: '$' :: ys) = true := by
  induction xs with
  | nil => rfl
  | cons x xs ih =>
    rw [List.cons_append]
    unfold Text.hasDoubleDollar
    split
    · rfl
    · next same => exact (List.cons.inj same).2 ▸ ih
    · next same => cases same

theorem hasDoubleDollar_localName (a b : String) :
    Text.hasDoubleDollar (localName a b).toList = true := by
  rw [toList_localName]
  exact hasDoubleDollar_append _ _

theorem hasDoubleDollar_simple (h : Simple a) : Text.hasDoubleDollar a.toList = false := by
  have list (xs : List Char) (none : '$' ∉ xs) : Text.hasDoubleDollar xs = false := by
    induction xs with
    | nil => rfl
    | cons x xs ih =>
      rw [Text.hasDoubleDollar]
      · exact ih fun member => none (List.mem_cons_of_mem _ member)
      · rintro _ rfl
        simp at none
  exact list _ h

/-- The last part of a mangled name is the name of a label.  So a name with a dot in front and
without a separator, if it stands there, is the name of a label. -/
theorem simple_of_localName (dot : b.toList.head? = some '.')
    (whole : Text.hasDoubleDollar b.toList = false) (hd : Simple d)
    (same : localName a b = localName c d) : Simple b := by
  have lists := congrArg String.toList same
  rw [toList_localName, toList_localName, List.append_eq_append_iff] at lists
  rcases lists with ⟨more, -, reach⟩ | ⟨more, -, reach⟩
  · match more with
    | [] =>
      simp only [List.nil_append, List.cons.injEq, true_and] at reach
      rwa [Simple, reach]
    | [x] =>
      simp only [List.cons_append, List.nil_append, List.cons.injEq] at reach
      simp [reach] at dot
    | x :: y :: xs =>
      simp only [List.cons_append, List.cons.injEq] at reach
      rw [reach.2.2, hasDoubleDollar_append] at whole
      cases whole
  · obtain rfl := front_eq_nil hd reach
    simp only [List.nil_append, List.cons.injEq, true_and] at reach
    rwa [Simple, ← reach]

/-- The name can be that of a label below `owner`: it has a dot in front exactly if there is an
owner. -/
structure LabelName (owner : Option String) (name : String) : Prop where
  simple : Simple name
  dot : name.toList.head? = some '.' ↔ owner.isSome
  owner : ∀ g, owner = some g → Simple g

/-- The mangled name of a label in a file that hides some of its labels. -/
def keyIn (file : String) (hidden : List String) : Option String → String → String
  | none, name => if name ∈ hidden then privateName file name else name
  | some owner, name =>
    localName (if owner ∈ hidden then privateName file owner else owner) name

theorem keyIn_none (file : String) (hidden : List String) (name : String) :
    keyIn file hidden none name = if name ∈ hidden then privateName file name else name := rfl

theorem keyIn_some (file : String) (hidden : List String) (owner name : String) :
    keyIn file hidden (some owner) name = localName (keyIn file hidden none owner) name := rfl

/-- The key of a label is its name, or ends in it. -/
theorem keyIn_ends (file : String) (hidden : List String) (owner : Option String) (name : String) :
    keyIn file hidden owner name = name ∨
      ∃ front, keyIn file hidden owner name = localName front name := by
  cases owner with
  | none =>
    rw [keyIn_none]
    split
    · exact .inr ⟨_, privateName_eq_localName file name⟩
    · exact .inl rfl
  | some g => exact .inr ⟨_, keyIn_some file hidden g name⟩

/-- Of a file, the mangled name of a label tells no more than whether the label is hidden, and then
the name of the file. -/
theorem keyIn_congr {file file' : String} {hidden hidden' : List String} {owner : Option String}
    (same : owner.getD a ∈ hidden ↔ owner.getD a ∈ hidden')
    (files : owner.getD a ∈ hidden → fileName file = fileName file') :
    keyIn file hidden owner a = keyIn file' hidden' owner a := by
  suffices top : ∀ b, (b ∈ hidden ↔ b ∈ hidden') → (b ∈ hidden → fileName file = fileName file') →
      keyIn file hidden none b = keyIn file' hidden' none b by
    cases owner with
    | none => exact top a same files
    | some g => rw [keyIn_some, keyIn_some, top g same files]
  intro b same files
  rw [keyIn_none, keyIn_none]
  by_cases inside : b ∈ hidden
  · rw [if_pos inside, if_pos (same.mp inside), privateName_eq_localName,
      privateName_eq_localName, files inside]
  · rw [if_neg inside, if_neg fun inside' => inside (same.mpr inside')]

theorem keyIn_none_inj {file file' : String} {hidden hidden' : List String} (ha : Simple a)
    (hb : Simple b) (same : keyIn file hidden none a = keyIn file' hidden' none b) :
    a = b ∧ (a ∈ hidden ↔ a ∈ hidden') ∧ (a ∈ hidden → fileName file = fileName file') := by
  rw [keyIn_none, keyIn_none] at same
  by_cases inside : a ∈ hidden <;> by_cases inside' : b ∈ hidden'
  · rw [if_pos inside, if_pos inside', privateName_eq_localName, privateName_eq_localName,
      localName_inj ha hb] at same
    obtain ⟨files, rfl⟩ := same
    exact ⟨rfl, by simp [inside, inside'], fun _ => files⟩
  · rw [if_pos inside, if_neg inside'] at same
    exact absurd same (localName_ne hb)
  · rw [if_neg inside, if_pos inside'] at same
    exact absurd same.symm (localName_ne ha)
  · rw [if_neg inside, if_neg inside'] at same
    subst same
    exact ⟨rfl, by simp [inside, inside'], fun h => absurd h inside⟩

/-- A mangled name tells the label, whether it is hidden, and then also the file. -/
theorem keyIn_inj {file file' : String} {hidden hidden' : List String}
    {owner owner' : Option String} (ha : LabelName owner a) (hb : LabelName owner' b)
    (same : keyIn file hidden owner a = keyIn file' hidden' owner' b) :
    owner = owner' ∧ a = b ∧ (owner.getD a ∈ hidden ↔ owner.getD a ∈ hidden') ∧
      (owner.getD a ∈ hidden → fileName file = fileName file') := by
  -- A key without an owner does not end in a name with a dot.
  have apart {file file' : String} {hidden hidden' : List String} {g a b : String}
      (ha : LabelName none a) (hb : LabelName (some g) b) :
      keyIn file hidden none a ≠ keyIn file' hidden' (some g) b := by
    intro same
    rw [keyIn_none, keyIn_some] at same
    split at same
    · rw [privateName_eq_localName, localName_inj ha.simple hb.simple] at same
      have dot := hb.dot.mpr rfl
      rw [← same.2, ha.dot] at dot
      cases dot
    · exact localName_ne ha.simple same.symm
  cases owner with
  | none =>
    cases owner' with
    | none =>
      obtain ⟨rfl, rest⟩ := keyIn_none_inj ha.simple hb.simple same
      exact ⟨rfl, rfl, rest⟩
    | some g => exact absurd same (apart ha hb)
  | some g =>
    cases owner' with
    | none => exact absurd same.symm (apart hb ha)
    | some g' =>
      obtain ⟨fronts, rfl⟩ := (localName_inj ha.simple hb.simple).mp same
      obtain ⟨rfl, rest⟩ := keyIn_none_inj (ha.owner g rfl) (hb.owner g' rfl) fronts
      exact ⟨rfl, rfl, rest⟩

/-- The name of a symbol that does not take it from a parent. -/
def ownName (sym : Symbol) : String :=
  if sym.visibility = .hidden then privateName sym.place.file sym.name else sym.name

end Symbol

namespace SymbolStore

variable {s t : SymbolStore} {x y p : Nat} {sym child psym : Symbol} {key : String}

/-! ### What mangled names depend on -/

/-- The symbols of `s` have the same identity in `t`. -/
def IdentityIn (s t : SymbolStore) : Prop :=
  ∀ ⦃x : Nat⦄ ⦃sym : Symbol⦄, s.get? x = some sym →
    ∃ later, t.get? x = some later ∧ later.identity = sym.identity

theorem IdentityIn.trans {u : SymbolStore} (h : s.IdentityIn t) (h' : t.IdentityIn u) :
    s.IdentityIn u := by
  intro x sym found
  obtain ⟨mid, hMid, same⟩ := h found
  obtain ⟨last, hLast, same'⟩ := h' hMid
  exact ⟨last, hLast, same'.trans same⟩

theorem RemainIn.identityIn (h : s.RemainIn t) : s.IdentityIn t := by
  intro x sym found
  obtain ⟨later, found', remains⟩ := h found
  exact ⟨later, found', (Symbol.unmarked_eq_iff.mp remains.unmarked).1⟩

theorem identityIn_of_unmarked (h : t.unmarked = s.unmarked) : s.IdentityIn t := by
  intro x sym found
  obtain ⟨later, found', same⟩ := get?_of_unmarked h.symm found
  exact ⟨later, found', (Symbol.unmarked_eq_iff.mp same).1⟩

theorem identityIn_add {place : Place} {name : String} {parent : Option Nat} {id : Nat}
    (h : s.add? place name parent = some (id, t)) : s.IdentityIn t := by
  intro x sym found
  rw [get?_add h, if_neg (Nat.ne_of_lt (lt_size_of_get? found)), found]
  exact ⟨_, rfl, by split <;> rfl⟩

theorem IdentityIn.mangled? (h : s.IdentityIn t) (named : s.mangled? x = some key) :
    t.mangled? x = some key := by
  suffices all : ∀ fuel x key, s.mangledWithin fuel x = some key →
      t.mangledWithin fuel x = some key from all _ _ _ named
  intro fuel
  induction fuel with
  | zero => simp [mangledWithin]
  | succ fuel ih =>
    intro x key named
    rw [mangledWithin] at named ⊢
    cases found : s.get? x with
    | none => simp [found] at named
    | some sym =>
      obtain ⟨later, found', same⟩ := h found
      obtain ⟨name, place, parent, visibility⟩ := Symbol.identity_eq_iff.mp same
      simp only [found] at named
      simp only [found', name, place, parent, visibility]
      split at named
      · next p _ hParent =>
        obtain ⟨front, hFront, rfl⟩ := Option.map_eq_some_iff.mp named
        simp [ih _ _ hFront]
      · exact named
      · exact named

theorem exists_get?_of_mangled? (h : s.mangled? x = some key) : ∃ sym, s.get? x = some sym := by
  cases found : s.get? x with
  | none => simp [SymbolStore.mangled?, mangledWithin, found] at h
  | some sym => exact ⟨sym, rfl⟩

/-- A symbol that has no parent, or is hidden, is known by its own name. -/
theorem mangledWithin_own (found : s.get? x = some sym)
    (own : sym.parent = none ∨ sym.visibility = .hidden) (fuel : Nat) :
    s.mangledWithin (fuel + 1) x = some sym.ownName := by
  rw [mangledWithin, found]
  rcases own with top | hidden
  · cases visibility : sym.visibility <;> simp [Symbol.ownName, top, visibility]
  · simp [Symbol.ownName, hidden]

theorem mangled?_own (found : s.get? x = some sym)
    (own : sym.parent = none ∨ sym.visibility = .hidden) : s.mangled? x = some sym.ownName :=
  mangledWithin_own found own x

end SymbolStore

end Dcpu16
