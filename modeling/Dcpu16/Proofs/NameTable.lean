import Dcpu16.NameTable

/-! What a table of names answers after a name is inserted or erased.  The names of a table that is
built by `insert` and `erase` alone are distinct. -/

namespace Dcpu16.NameTable

variable {α : Type} {t u : NameTable α} {name other : String} {value old : α}

@[simp] theorem find?_empty : (empty : NameTable α).find? name = none := rfl

@[simp] theorem names_empty : (empty : NameTable α).names = [] := rfl

theorem mem_names : name ∈ t.names ↔ ∃ value, (name, value) ∈ t.entries := by
  simp [names]

theorem find?_eq_none : t.find? name = none ↔ name ∉ t.names := by
  rw [mem_names, find?, List.lookup_eq_none_iff]
  constructor
  · rintro h ⟨value, member⟩
    simpa using h _ member
  · rintro h ⟨key, value⟩ member
    rw [bne_iff_ne]
    rintro rfl
    exact h ⟨value, member⟩

theorem mem_of_find? (h : t.find? name = some value) : (name, value) ∈ t.entries := by
  obtain ⟨before, after, split, -⟩ := List.lookup_eq_some_iff.mp h
  simp [split]

theorem find?_of_mem (distinct : t.names.Nodup) (member : (name, value) ∈ t.entries) :
    t.find? name = some value := by
  obtain ⟨before, after, split⟩ := List.append_of_mem member
  refine List.lookup_eq_some_iff.mpr ⟨before, after, split, fun entry earlier => ?_⟩
  rw [names, split, List.map_append, List.nodup_append] at distinct
  have differs := distinct.2.2 _ (List.mem_map_of_mem earlier) name (by simp)
  simpa using Ne.symm differs

theorem find?_append (t : NameTable α) (es : List (String × α)) (name : String) :
    (⟨t.entries ++ es⟩ : NameTable α).find? name =
      (t.find? name).or ((⟨es⟩ : NameTable α).find? name) := by
  simp only [find?, List.lookup_append]

/-- A table with further entries behind its own answers as before. -/
theorem find?_of_prefix (h : t.entries <+: u.entries) (found : t.find? name = some value) :
    u.find? name = some value := by
  obtain ⟨es, split⟩ := h
  have answer := t.find?_append es name
  rw [split, found] at answer
  exact answer

theorem insert_new (fresh : t.find? name = none) (value : α) :
    t.insert name value = ⟨t.entries ++ [(name, value)]⟩ := by
  simp only [insert, fresh]

theorem names_insert_new (fresh : t.find? name = none) (value : α) :
    (t.insert name value).names = t.names ++ [name] := by
  simp [insert_new fresh, names]

theorem names_insert_old (found : t.find? name = some old) (value : α) :
    (t.insert name value).names = t.names := by
  simp only [insert, found, names, List.map_map]
  apply List.map_congr_left
  intro entry _
  by_cases same : entry.1 = name <;> simp [same]

theorem names_insert_nodup (distinct : t.names.Nodup) (name : String) (value : α) :
    (t.insert name value).names.Nodup := by
  cases found : t.find? name with
  | some old => rwa [names_insert_old found]
  | none =>
    rw [names_insert_new found, List.nodup_append]
    refine ⟨distinct, by simp, fun a member b last same => ?_⟩
    have ha : a = name := same.trans (by simpa using last)
    exact find?_eq_none.mp found (ha ▸ member)

theorem names_erase_nodup (distinct : t.names.Nodup) (name : String) :
    (t.erase name).names.Nodup :=
  distinct.sublist (List.filter_sublist.map _)

theorem lookup_replace (es : List (String × α)) (name other : String) (value : α) :
    (es.map fun e => if e.1 = name then (name, value) else e).lookup other =
      if other = name then (es.lookup name).map fun _ => value else es.lookup other := by
  induction es with
  | nil => simp
  | cons entry es ih =>
    obtain ⟨key, old⟩ := entry
    by_cases same : key = name
    · subst same
      by_cases here : other = key
      · simp [here]
      · simp [List.lookup_cons, here, beq_eq_false_iff_ne.mpr here, ih]
    · by_cases here : other = key
      · simp [here, same]
      · rw [List.map_cons, if_neg same, List.lookup_cons, List.lookup_cons, List.lookup_cons, ih,
          beq_eq_false_iff_ne.mpr here, beq_eq_false_iff_ne.mpr (Ne.symm same)]

@[simp] theorem find?_insert (t : NameTable α) (name other : String) (value : α) :
    (t.insert name value).find? other = if other = name then some value else t.find? other := by
  cases found : t.find? name with
  | none =>
    rw [insert_new found, find?_append]
    by_cases same : other = name
    · subst same
      rw [found]
      simp [find?]
    · simp [find?, same, List.lookup_cons, beq_eq_false_iff_ne.mpr same]
  | some old =>
    simp only [insert, found]
    have here : t.entries.lookup name = some old := found
    rw [find?, lookup_replace, here]
    rfl

theorem lookup_remove (es : List (String × α)) (name other : String) :
    (es.filter fun e => e.1 ≠ name).lookup other =
      if other = name then none else es.lookup other := by
  induction es with
  | nil => simp
  | cons entry es ih =>
    obtain ⟨key, old⟩ := entry
    rw [List.filter_cons, List.lookup_cons]
    by_cases same : key = name
    · rw [if_neg (by simp [same]), ih, same]
      by_cases here : other = name
      · simp [here]
      · simp [here, beq_eq_false_iff_ne.mpr here]
    · rw [if_pos (by simp [same]), List.lookup_cons, ih]
      by_cases here : other = key
      · simp [here, same]
      · simp [beq_eq_false_iff_ne.mpr here]

@[simp] theorem find?_erase (t : NameTable α) (name other : String) :
    (t.erase name).find? other = if other = name then none else t.find? other :=
  lookup_remove t.entries name other

/-- The names of `t`, and behind them the entries of `es` whose names are not in `t`. -/
def joined (t : NameTable α) (es : List (String × α)) : NameTable α :=
  ⟨t.entries ++ es.filter fun e => (t.find? e.1).isNone⟩

@[simp] theorem joined_nil (t : NameTable α) : t.joined [] = t := by
  simp [joined]

/-- What `t` has for a name comes before what `es` has for it. -/
theorem find?_joined (t : NameTable α) (es : List (String × α)) (name : String) :
    (t.joined es).find? name = (t.find? name).or (es.lookup name) := by
  rw [joined, find?_append]
  cases found : t.find? name with
  | some value => rfl
  | none =>
    simp only [Option.none_or]
    induction es with
    | nil => rfl
    | cons e es ih =>
      obtain ⟨other, value⟩ := e
      simp only [find?, List.filter_cons] at ih found ⊢
      by_cases same : name = other
      · simp [← same, found]
      · rw [List.lookup_cons, beq_eq_false_iff_ne.mpr same]
        split
        · rw [List.lookup_cons, beq_eq_false_iff_ne.mpr same]
          exact ih
        · exact ih

theorem names_joined_nodup {es : List (String × α)} (distinct : t.names.Nodup)
    (distinct' : (es.map Prod.fst).Nodup) : (t.joined es).names.Nodup := by
  rw [names, joined, List.map_append, List.nodup_append]
  refine ⟨distinct, distinct'.sublist (List.filter_sublist.map _), fun a old b new same => ?_⟩
  obtain ⟨entry, member, rfl⟩ := List.mem_map.mp new
  have fresh : t.find? entry.1 = none := by simpa using (List.mem_filter.mp member).2
  exact find?_eq_none.mp fresh (same ▸ old)

theorem joined_cons {e : String × α} {es : List (String × α)} (fresh : e.1 ∉ es.map Prod.fst) :
    t.joined (e :: es) = (t.joined [e]).joined es := by
  have same : (es.filter fun x => ((t.joined [e]).find? x.1).isNone) =
      es.filter fun x => (t.find? x.1).isNone := by
    refine List.filter_congr fun x member => ?_
    have differs : x.1 ≠ e.1 := fun eq => fresh (eq ▸ List.mem_map_of_mem member)
    obtain ⟨name, value⟩ := e
    rw [find?_joined, List.lookup_cons, beq_eq_false_iff_ne.mpr differs]
    simp
  rw [joined, joined, same, joined, List.filter_cons]
  split <;> simp_all

end NameTable

end Dcpu16
