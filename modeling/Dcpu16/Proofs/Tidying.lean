import Dcpu16.Proofs.Reading
import Dcpu16.Text.Tidy

/-! The tidy form of a line.  Outside quotes it has no comment, and no white space but one blank
between two items; `IsTidyFrom` says this of a text.  A tidy text is its own tidy form. -/

namespace Dcpu16.Text

/-- May a character of a tidy text stand here? -/
def TidyState.admits : TidyState → Char → Bool
  | .start, c | .gap, c => c ≠ ';' && !isBlank c
  | .item, c => c ≠ ';' && (c = ' ' || !isBlank c)
  | .quoted, _ | .escaped, _ => true

/-- The state behind a character of a tidy text. -/
def TidyState.next : TidyState → Char → TidyState
  | .quoted, c => if c = '\\' then .escaped else if c = '"' then .item else .quoted
  | .escaped, _ => .quoted
  | _, c => if c = ' ' then .gap else .afterItem c

/-- The text is tidy from a state on.  It does not end in a gap. -/
def IsTidyFrom : TidyState → List Char → Prop
  | state, [] => state ≠ .gap
  | state, c :: cs => state.admits c ∧ IsTidyFrom (state.next c) cs

/-- A character that stands for itself wherever it is: no blank, no quote and no semicolon. -/
def isPlain (c : Char) : Bool :=
  !isBlank c && c ≠ ';' && c ≠ '"'

variable {state : TidyState} {c : Char} {cs front rest : List Char}

theorem isBlank_blank : isBlank ' ' = true := by decide

theorem ne_blank_of_isBlank (h : isBlank c = false) : c ≠ ' ' := by
  rintro rfl
  cases isBlank_blank.symm.trans h

theorem isPlain_iff : isPlain c = true ↔ isBlank c = false ∧ c ≠ ';' ∧ c ≠ '"' := by
  simp [isPlain, and_assoc]

/-! ### Tidy text and the tidy form -/

theorem isTidyFrom_gap_iff : IsTidyFrom .gap cs ↔ cs ≠ [] ∧ IsTidyFrom .start cs := by
  cases cs with
  | nil => simp [IsTidyFrom]
  | cons c cs => simp [IsTidyFrom, TidyState.admits, TidyState.next]

theorem isTidyFrom_item_blank :
    IsTidyFrom .item (' ' :: cs) ↔ cs ≠ [] ∧ IsTidyFrom .start cs := by
  simp [IsTidyFrom, TidyState.admits, TidyState.next, isTidyFrom_gap_iff]

/-- Outside quotes, behind a character that is kept. -/
theorem isTidyFrom_cons (outside : state = .start ∨ state = .item) (blank : isBlank c = false)
    (comment : c ≠ ';') : IsTidyFrom state (c :: cs) ↔ IsTidyFrom (.afterItem c) cs := by
  have other := ne_blank_of_isBlank blank
  rcases outside with rfl | rfl <;>
    simp [IsTidyFrom, TidyState.admits, TidyState.next, blank, comment, other]

/-- What can come first in a tidy text. -/
theorem isTidyFrom_start_cons :
    IsTidyFrom .start (c :: cs) ↔ isBlank c = false ∧ c ≠ ';' ∧ IsTidyFrom (.afterItem c) cs := by
  constructor
  · intro h
    obtain ⟨comment, blank⟩ : c ≠ ';' ∧ isBlank c = false := by
      simpa [TidyState.admits] using h.1
    exact ⟨blank, comment, (isTidyFrom_cons (.inl rfl) blank comment).mp h⟩
  · rintro ⟨blank, comment, rest⟩
    exact (isTidyFrom_cons (.inl rfl) blank comment).mpr rest

theorem head_of_isTidyFrom (h : IsTidyFrom .start cs) : ∀ c ∈ cs.head?, isBlank c = false := by
  intro c head
  cases cs with
  | nil => cases head
  | cons d cs =>
    obtain rfl := Option.some.inj head
    exact (isTidyFrom_start_cons.mp h).1

/-- The state in which the tidy form of the rest is read: white space after an item shows only in
front of the next one. -/
def TidyState.shown : TidyState → TidyState
  | .gap => .item
  | state => state

/-- The blank that a gap puts in front of the next item. -/
def TidyState.owed : TidyState → List Char
  | .gap => [' ']
  | _ => []

@[simp] theorem shown_afterItem (c : Char) :
    (TidyState.afterItem c).shown = TidyState.afterItem c := by
  unfold TidyState.afterItem
  split <;> rfl

@[simp] theorem owed_afterItem (c : Char) : (TidyState.afterItem c).owed = [] := by
  unfold TidyState.afterItem
  split <;> rfl

@[simp] theorem shown_next_quoted (c : Char) :
    (TidyState.quoted.next c).shown = TidyState.quoted.next c := by
  unfold TidyState.next
  dsimp only
  split
  · rfl
  · split <;> rfl

@[simp] theorem owed_next_quoted (c : Char) : (TidyState.quoted.next c).owed = [] := by
  unfold TidyState.next
  dsimp only
  split
  · rfl
  · split <;> rfl

/-- The tidy form is tidy. -/
theorem isTidyFrom_tidyFrom (state : TidyState) (cs : List Char) :
    IsTidyFrom state.shown (tidyFrom state cs) := by
  induction cs generalizing state with
  | nil => cases state <;> simp [tidyFrom, IsTidyFrom, TidyState.shown]
  | cons c cs ih =>
    have kept := ih (.afterItem c)
    rw [shown_afterItem] at kept
    cases state with
    | start =>
      rw [tidyFrom]
      split
      · simp [IsTidyFrom, TidyState.shown]
      split
      · exact ih .start
      · next comment blank =>
        exact (isTidyFrom_cons (.inl rfl) (by simpa using blank) comment).mpr kept
    | item =>
      rw [tidyFrom]
      split
      · simp [IsTidyFrom, TidyState.shown]
      split
      · exact ih .gap
      · next comment blank =>
        exact (isTidyFrom_cons (.inr rfl) (by simpa using blank) comment).mpr kept
    | gap =>
      rw [tidyFrom]
      split
      · simp [IsTidyFrom, TidyState.shown]
      split
      · exact ih .gap
      · next comment blank =>
        refine isTidyFrom_item_blank.mpr ⟨by simp, ?_⟩
        exact (isTidyFrom_cons (.inl rfl) (by simpa using blank) comment).mpr kept
    | quoted => exact ⟨rfl, shown_next_quoted c ▸ ih (TidyState.quoted.next c)⟩
    | escaped => exact ⟨rfl, ih .quoted⟩

/-- Tidy text is its own tidy form. -/
theorem tidyFrom_of_isTidyFrom (h : IsTidyFrom state cs) :
    tidyFrom state cs = state.owed ++ cs := by
  induction cs generalizing state with
  | nil =>
    cases state with
    | gap => exact absurd rfl h
    | _ => rfl
  | cons c cs ih =>
    have kept (rest : IsTidyFrom (.afterItem c) cs) : tidyFrom (.afterItem c) cs = cs := by
      simpa using ih rest
    cases state with
    | start =>
      obtain ⟨blank, comment, rest⟩ := isTidyFrom_start_cons.mp h
      simp [tidyFrom, comment, blank, kept rest, TidyState.owed]
    | gap =>
      obtain ⟨blank, comment, rest⟩ := isTidyFrom_start_cons.mp (isTidyFrom_gap_iff.mp h).2
      simp [tidyFrom, comment, blank, kept rest, TidyState.owed]
    | item =>
      obtain ⟨comment, rfl | blank⟩ : c ≠ ';' ∧ (c = ' ' ∨ isBlank c = false) := by
        simpa [TidyState.admits] using h.1
      · have rest : tidyFrom .gap cs = ' ' :: cs := ih h.2
        simp [tidyFrom, isBlank_blank, rest, TidyState.owed]
      · have rest := (isTidyFrom_cons (.inr rfl) blank comment).mp h
        simp [tidyFrom, comment, blank, kept rest, TidyState.owed]
    | quoted =>
      have rest := ih h.2
      rw [owed_next_quoted] at rest
      exact congrArg (c :: ·) rest
    | escaped => exact congrArg (c :: ·) (ih h.2)

theorem tidy_of_isTidyFrom (h : IsTidyFrom .start cs) : tidy cs = cs :=
  tidyFrom_of_isTidyFrom h

/-! ### Parts of tidy text -/

/-- Up to a character that is no blank, a tidy text is tidy. -/
theorem isTidyFrom_of_append (h : IsTidyFrom state (front ++ rest)) (nonempty : front ≠ [])
    (last : ∀ c ∈ front.getLast?, isBlank c = false) : IsTidyFrom state front := by
  induction front generalizing state with
  | nil => exact absurd rfl nonempty
  | cons c front ih =>
    refine ⟨h.1, ?_⟩
    cases front with
    | nil =>
      have other := ne_blank_of_isBlank (last c rfl)
      show state.next c ≠ .gap
      unfold TidyState.next
      split
      · split
        · simp
        · split <;> simp
      · simp
      · rw [if_neg other]
        unfold TidyState.afterItem
        split <;> simp
    | cons d front => exact ih h.2 (by simp) (by simpa using last)

/-- Plain characters do not matter where there has been an item, and in front of a text they are its
first item. -/
theorem isTidyFrom_plain_append (plain : ∀ c ∈ front, isPlain c = true) :
    IsTidyFrom .item (front ++ rest) ↔ IsTidyFrom .item rest := by
  induction front with
  | nil => rfl
  | cons c front ih =>
    obtain ⟨blank, comment, quote⟩ := isPlain_iff.mp (plain c (by simp))
    rw [List.cons_append, isTidyFrom_cons (.inr rfl) blank comment, TidyState.afterItem,
      if_neg quote]
    exact ih fun d member => plain d (by simp [member])

theorem isTidyFrom_plain_cons (plain : isPlain c = true) :
    IsTidyFrom .item (c :: rest) ↔ IsTidyFrom .item rest := by
  have front : ∀ d ∈ [c], isPlain d = true := by simpa using plain
  exact isTidyFrom_plain_append front

theorem isTidyFrom_start_append (plain : ∀ c ∈ front, isPlain c = true) (nonempty : front ≠ []) :
    IsTidyFrom .start (front ++ rest) ↔ IsTidyFrom .item rest := by
  obtain ⟨c, front, rfl⟩ := List.exists_cons_of_ne_nil nonempty
  obtain ⟨blank, comment, quote⟩ := isPlain_iff.mp (plain c (by simp))
  rw [List.cons_append, isTidyFrom_cons (.inl rfl) blank comment, TidyState.afterItem,
    if_neg quote]
  exact isTidyFrom_plain_append fun d member => plain d (by simp [member])

/-- A blank and one more item. -/
theorem isTidyFrom_blank_append (plain : ∀ c ∈ front, isPlain c = true) (nonempty : front ≠ []) :
    IsTidyFrom .item (' ' :: (front ++ rest)) ↔ IsTidyFrom .item rest := by
  rw [isTidyFrom_item_blank, isTidyFrom_start_append plain nonempty]
  simp [nonempty]

/-- Where there is no quote there is no semicolon either. -/
theorem semicolon_not_mem (h : IsTidyFrom state cs)
    (outside : state ≠ .quoted ∧ state ≠ .escaped) (quote : '"' ∉ cs) : ';' ∉ cs := by
  induction cs generalizing state with
  | nil => simp
  | cons c cs ih =>
    obtain ⟨here, later⟩ : c ≠ '"' ∧ '"' ∉ cs := by simpa [eq_comm] using quote
    have comment : c ≠ ';' := by
      have admitted := h.1
      rintro rfl
      cases state <;> simp [TidyState.admits] at admitted outside
    have outside' : state.next c ≠ .quoted ∧ state.next c ≠ .escaped := by
      cases state <;> simp [TidyState.next, TidyState.afterItem, here] at outside ⊢ <;>
        split <;> simp
    have rest := ih h.2 outside' later
    simp [comment.symm, rest]

/-! ### The tidy form of a text with parts -/

theorem ne_semicolon_of_isBlank (h : isBlank c = true) : c ≠ ';' := by
  rintro rfl
  cases h

/-- White space in front of an item does not matter. -/
theorem tidyFrom_blanks (between : state = .start ∨ state = .gap)
    (blank : ∀ c ∈ front, isBlank c = true) :
    tidyFrom state (front ++ rest) = tidyFrom state rest := by
  induction front with
  | nil => rfl
  | cons c front ih =>
    obtain ⟨here, later⟩ := List.forall_mem_cons.mp blank
    have comment := ne_semicolon_of_isBlank here
    rcases between with rfl | rfl
    · rw [List.cons_append, tidyFrom, if_neg comment, if_pos here, ih later]
    · rw [List.cons_append, tidyFrom, if_neg comment, if_pos here, ih later]

/-- White space behind an item opens a gap. -/
theorem tidyFrom_item_blanks (blank : ∀ c ∈ front, isBlank c = true) (nonempty : front ≠ []) :
    tidyFrom .item (front ++ rest) = tidyFrom .gap rest := by
  obtain ⟨c, front, rfl⟩ := List.exists_cons_of_ne_nil nonempty
  obtain ⟨here, later⟩ := List.forall_mem_cons.mp blank
  rw [List.cons_append, tidyFrom, if_neg (ne_semicolon_of_isBlank here), if_pos here,
    tidyFrom_blanks (.inr rfl) later]

/-- Plain characters are kept. -/
theorem tidyFrom_plain (plain : ∀ c ∈ front, isPlain c = true) :
    tidyFrom .item (front ++ rest) = front ++ tidyFrom .item rest := by
  induction front with
  | nil => rfl
  | cons c front ih =>
    obtain ⟨here, later⟩ := List.forall_mem_cons.mp plain
    obtain ⟨blank, comment, quote⟩ := isPlain_iff.mp here
    rw [List.cons_append, tidyFrom, if_neg comment, if_neg (by simp [blank]), TidyState.afterItem,
      if_neg quote, ih later, List.cons_append]

theorem tidyFrom_start_plain (plain : ∀ c ∈ front, isPlain c = true) (nonempty : front ≠ []) :
    tidyFrom .start (front ++ rest) = front ++ tidyFrom .item rest := by
  obtain ⟨c, front, rfl⟩ := List.exists_cons_of_ne_nil nonempty
  obtain ⟨here, later⟩ := List.forall_mem_cons.mp plain
  obtain ⟨blank, comment, quote⟩ := isPlain_iff.mp here
  rw [List.cons_append, tidyFrom, if_neg comment, if_neg (by simp [blank]), TidyState.afterItem,
    if_neg quote, tidyFrom_plain later, List.cons_append]

/-! ### Lines -/

/-- A tidy line without white space at its end. -/
structure IsLine (text : List Char) : Prop where
  tidy : IsTidyFrom .start text
  last : ∀ c ∈ text.getLast?, isBlank c = false

theorem IsLine.trim (h : IsLine cs) : trim cs = cs :=
  trim_of_ends (head_of_isTidyFrom h.tidy) h.last

/-- What is read of a line is its tidy form, trimmed. -/
theorem isLine_trim_tidy (raw : List Char) : IsLine (Text.trim (Text.tidy raw)) := by
  have tidied : IsTidyFrom .start (Text.tidy raw) := isTidyFrom_tidyFrom .start raw
  generalize Text.tidy raw = text at tidied
  have last := last_trim text
  have front : Text.trim text <+: text := by
    have started := trimStart_of_head (head_of_isTidyFrom tidied)
    rw [trim_eq_rdropWhile, started]
    exact List.rdropWhile_prefix isBlank text
  obtain ⟨rest, split⟩ := front
  refine ⟨?_, last⟩
  by_cases nonempty : Text.trim text = []
  · rw [nonempty]
    simp [IsTidyFrom]
  · rw [← split] at tidied
    exact isTidyFrom_of_append tidied nonempty last

/-- Behind a first item without quotes the rest of a line is one too. -/
theorem isLine_append_blank (plain : ∀ c ∈ front, isPlain c = true) (nonempty : front ≠ []) :
    IsLine (front ++ ' ' :: rest) ↔ rest ≠ [] ∧ IsLine rest := by
  have split : IsTidyFrom .start (front ++ ' ' :: rest) ↔ rest ≠ [] ∧ IsTidyFrom .start rest := by
    rw [isTidyFrom_start_append plain nonempty, isTidyFrom_item_blank]
  constructor
  · rintro ⟨tidy, last⟩
    obtain ⟨some, tidy⟩ := split.mp tidy
    refine ⟨some, tidy, ?_⟩
    rwa [List.append_cons, List.getLast?_append_of_ne_nil _ some] at last
  · rintro ⟨some, tidy, last⟩
    refine ⟨split.mpr ⟨some, tidy⟩, ?_⟩
    rwa [List.append_cons, List.getLast?_append_of_ne_nil _ some]

theorem isLine_of_plain (plain : ∀ c ∈ front, isPlain c = true) : IsLine front := by
  refine ⟨?_, fun c last => (isPlain_iff.mp (plain c (List.mem_of_getLast? last))).1⟩
  by_cases nonempty : front = []
  · rw [nonempty]
    simp [IsTidyFrom]
  · rw [← List.append_nil front, isTidyFrom_start_append plain nonempty]
    simp [IsTidyFrom]

end Dcpu16.Text
