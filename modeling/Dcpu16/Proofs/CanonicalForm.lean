import Dcpu16.Proofs.Tidying
import Mathlib.Data.List.Forall2

/-! The tidy form of a line is a canonical one.  A line divides in a single way into items, each
with the white space in front of it, and a tail of white space and comment.  An item is a character
outside quotes, or a quoted segment with its quotes; the last segment may lack its closing quote.
Tidying keeps the items, cuts the white space between two of them down to one blank, and drops
the rest. -/

namespace Dcpu16.Text

variable {c : Char} {cs body gap item rest line tail : List Char} {state : TidyState}

/-! ### Lines in chunks -/

/-- A text behind a quote that does not end the segment: a quote in it stands behind a backslash
that is not itself escaped. -/
inductive Inside : List Char → Prop
  | nil : Inside []
  | plain {c : Char} {body : List Char} (quote : c ≠ '"') (backslash : c ≠ '\\')
      (rest : Inside body) : Inside (c :: body)
  | escape (c : Char) {body : List Char} (rest : Inside body) : Inside ('\\' :: c :: body)

/-- A character outside quotes, or a quoted segment. -/
inductive IsItem : List Char → Prop
  | single {c : Char} (plain : isPlain c = true) : IsItem [c]
  | segment {body : List Char} (inside : Inside body) : IsItem ('"' :: (body ++ ['"']))

/-- A quoted segment that the line ends in.  The last character may be a backslash with nothing to
escape. -/
inductive IsOpen : List Char → Prop
  | text {body : List Char} (inside : Inside body) : IsOpen ('"' :: body)
  | backslash {body : List Char} (inside : Inside body) : IsOpen ('"' :: (body ++ ['\\']))

/-- An item and the white space in front of it. -/
structure Chunk where
  gap : List Char
  item : List Char

/-- The line is these chunks and a tail without items, which is white space up to the end of the
line or up to a comment. -/
inductive Divides : List Char → List Chunk → List Char → Prop
  | tail {gap rest : List Char} (blank : ∀ c ∈ gap, isBlank c = true)
      (comment : ∀ c ∈ rest.head?, c = ';') : Divides (gap ++ rest) [] (gap ++ rest)
  | item {gap item rest tail : List Char} {chunks : List Chunk}
      (blank : ∀ c ∈ gap, isBlank c = true) (item_ok : IsItem item)
      (rest_ok : Divides rest chunks tail) :
      Divides (gap ++ (item ++ rest)) (⟨gap, item⟩ :: chunks) tail
  | unclosed {gap item : List Char} (blank : ∀ c ∈ gap, isBlank c = true)
      (item_ok : IsOpen item) : Divides (gap ++ item) [⟨gap, item⟩] []

/-- The chunk with one blank for its white space, if it has any. -/
def Chunk.spaced (chunk : Chunk) : Chunk :=
  ⟨if chunk.gap = [] then [] else [' '], chunk.item⟩

/-- The chunks of the tidy form. -/
def canonical : List Chunk → List Chunk
  | [] => []
  | first :: chunks => ⟨[], first.item⟩ :: chunks.map Chunk.spaced

/-- The text of some chunks. -/
def joined (chunks : List Chunk) : List Char :=
  chunks.flatMap fun chunk => chunk.gap ++ chunk.item

variable {chunks others : List Chunk}

/-! ### A line divides in one way -/

/-- White space in front of something else is cut off in one way. -/
theorem blanks_append_inj {gap gap' rest rest' : List Char} (blank : ∀ c ∈ gap, isBlank c = true)
    (blank' : ∀ c ∈ gap', isBlank c = true) (head : ∀ c ∈ rest.head?, isBlank c = false)
    (head' : ∀ c ∈ rest'.head?, isBlank c = false) (same : gap ++ rest = gap' ++ rest') :
    gap = gap' ∧ rest = rest' := by
  induction gap generalizing gap' with
  | nil =>
    cases gap' with
    | nil => exact ⟨rfl, same⟩
    | cons c gap' =>
      obtain rfl : rest = c :: (gap' ++ rest') := same
      exact absurd (blank' c (by simp)) (by simp [head c rfl])
  | cons c gap ih =>
    obtain ⟨here, later⟩ := List.forall_mem_cons.mp blank
    cases gap' with
    | nil =>
      obtain rfl : c :: (gap ++ rest) = rest' := same
      exact absurd here (by simp [head' c rfl])
    | cons d gap' =>
      simp only [List.cons_append, List.cons.injEq] at same
      obtain ⟨rfl, same⟩ := same
      obtain ⟨rfl, rfl⟩ := ih later (List.forall_mem_cons.mp blank').2 same
      exact ⟨rfl, rfl⟩

theorem inside_plain (quote : c ≠ '"') (backslash : c ≠ '\\') : Inside (c :: cs) ↔ Inside cs := by
  constructor
  · intro h
    cases h with
    | plain _ _ rest => exact rest
    | escape => exact absurd rfl backslash
  · exact .plain quote backslash

theorem inside_escape : Inside ('\\' :: c :: cs) ↔ Inside cs := by
  constructor
  · intro h
    cases h with
    | plain _ backslash => exact absurd rfl backslash
    | escape _ rest => exact rest
  · exact .escape c

theorem not_inside_quote : ¬ Inside ('"' :: cs) := by
  intro h
  cases h with
  | plain quote => exact quote rfl

theorem Inside.not_append_quote (h : Inside body) : ¬ Inside (body ++ '"' :: rest) := by
  induction h with
  | nil => exact not_inside_quote
  | plain quote backslash _ ih => rwa [List.cons_append, inside_plain quote backslash]
  | escape c _ ih => rwa [List.cons_append, List.cons_append, inside_escape]

/-- The first quote that is not escaped ends a segment. -/
theorem Inside.append_quote_inj {body body' rest rest' : List Char} (h : Inside body)
    (h' : Inside body') (same : body ++ '"' :: rest = body' ++ '"' :: rest') :
    body = body' ∧ rest = rest' := by
  -- Otherwise the longer text has the quote that ends the shorter one.
  rcases List.append_eq_append_iff.mp same with ⟨more, rfl, split⟩ | ⟨more, rfl, split⟩
  · cases more with
    | nil => simpa using split
    | cons d more =>
      obtain ⟨rfl, -⟩ := List.cons.inj split
      exact absurd h' h.not_append_quote
  · cases more with
    | nil => simpa [eq_comm] using split
    | cons d more =>
      obtain ⟨rfl, -⟩ := List.cons.inj split
      exact absurd h h'.not_append_quote

/-- A segment that is closed is none that the line ends in. -/
theorem Inside.not_isOpen (h : Inside body) : ¬ IsOpen ('"' :: (body ++ '"' :: rest)) := by
  intro unclosed
  generalize same : '"' :: (body ++ '"' :: rest) = item at unclosed
  cases unclosed with
  | text whole =>
    obtain rfl := (List.cons.inj same).2
    exact h.not_append_quote whole
  | @backslash body' whole =>
    replace same := (List.cons.inj same).2
    -- The backslash is the last character, so it stands behind the quote.
    rcases List.eq_nil_or_concat' rest with rfl | ⟨rest, last, rfl⟩
    · exact absurd (List.append_inj' same rfl).2 (by decide)
    · rw [← List.cons_append, ← List.append_assoc] at same
      obtain ⟨rfl, -⟩ := List.append_inj' same rfl
      exact h.not_append_quote whole

theorem IsItem.append_inj {item item' rest rest' : List Char} (h : IsItem item)
    (h' : IsItem item') (same : item ++ rest = item' ++ rest') : item = item' ∧ rest = rest' := by
  cases h with
  | @single c plain =>
    cases h' with
    | single => simpa using same
    | segment => exact absurd (List.cons.inj same).1 (isPlain_iff.mp plain).2.2
  | @segment body inside =>
    cases h' with
    | single plain => exact absurd (List.cons.inj same).1.symm (isPlain_iff.mp plain).2.2
    | @segment body' inside' =>
      have bodies : body ++ '"' :: rest = body' ++ '"' :: rest' := by simpa using same
      obtain ⟨rfl, rfl⟩ := inside.append_quote_inj inside' bodies
      exact ⟨rfl, rfl⟩

theorem IsItem.not_isOpen (h : IsItem item) : ¬ IsOpen (item ++ rest) := by
  cases h with
  | single plain =>
    have quote := (isPlain_iff.mp plain).2.2
    intro unclosed
    cases unclosed with
    | text => exact quote rfl
    | backslash => exact quote rfl
  | segment inside => simpa using inside.not_isOpen

/-- An item begins with neither white space nor the start of a comment. -/
structure Begins (text : List Char) : Prop where
  blank : ∀ c ∈ text.head?, isBlank c = false
  comment : ¬ ∀ c ∈ text.head?, c = ';'

theorem IsItem.begins (h : IsItem item) (rest : List Char) : Begins (item ++ rest) := by
  cases h with
  | single plain =>
    obtain ⟨blank, comment, -⟩ := isPlain_iff.mp plain
    exact ⟨by simpa using blank, by simpa using comment⟩
  | segment => exact ⟨by simp; decide, by simp⟩

theorem IsOpen.begins (h : IsOpen item) : Begins item := by
  cases h with
  | text => exact ⟨by simp; decide, by simp⟩
  | backslash => exact ⟨by simp; decide, by simp⟩

theorem isBlank_of_comment (comment : ∀ c ∈ rest.head?, c = ';') :
    ∀ c ∈ rest.head?, isBlank c = false := by
  intro c head
  rw [comment c head]
  decide

/-- How a line with this white space at its front divides. -/
theorem Divides.behind_gap (h : Divides (gap ++ rest) chunks tail)
    (blank : ∀ c ∈ gap, isBlank c = true) (head : ∀ c ∈ rest.head?, isBlank c = false) :
    ((∀ c ∈ rest.head?, c = ';') ∧ chunks = [] ∧ tail = gap ++ rest) ∨
      (∃ item later more, IsItem item ∧ rest = item ++ later ∧ chunks = ⟨gap, item⟩ :: more ∧
        Divides later more tail) ∨
      IsOpen rest ∧ chunks = [⟨gap, rest⟩] ∧ tail = [] := by
  generalize same : gap ++ rest = line at h
  cases h with
  | tail blank' comment =>
    obtain ⟨rfl, rfl⟩ := blanks_append_inj blank blank' head (isBlank_of_comment comment) same
    exact .inl ⟨comment, rfl, rfl⟩
  | @item _ item later _ more blank' item_ok rest_ok =>
    obtain ⟨rfl, rfl⟩ := blanks_append_inj blank blank' head (item_ok.begins later).blank same
    exact .inr (.inl ⟨item, later, more, item_ok, rfl, rfl, rest_ok⟩)
  | unclosed blank' item_ok =>
    obtain ⟨rfl, rfl⟩ := blanks_append_inj blank blank' head item_ok.begins.blank same
    exact .inr (.inr ⟨item_ok, rfl, rfl⟩)

/-- A line divides in at most one way. -/
theorem Divides.unique {tail' : List Char} (h : Divides line chunks tail)
    (h' : Divides line others tail') : others = chunks ∧ tail' = tail := by
  induction h generalizing others with
  | tail blank comment =>
    rcases h'.behind_gap blank (isBlank_of_comment comment) with
      ⟨-, rfl, rfl⟩ | ⟨item, later, more, item_ok, rfl, -, -⟩ | ⟨item_ok, -, -⟩
    · exact ⟨rfl, rfl⟩
    · exact absurd comment (item_ok.begins later).comment
    · exact absurd comment item_ok.begins.comment
  | @item gap item rest tail chunks blank item_ok _ ih =>
    rcases h'.behind_gap blank (item_ok.begins rest).blank with
      ⟨comment, -, -⟩ | ⟨item', later, more, item_ok', same, rfl, rest_ok'⟩ | ⟨item_ok', -, -⟩
    · exact absurd comment (item_ok.begins rest).comment
    · obtain ⟨rfl, rfl⟩ := item_ok.append_inj item_ok' same
      obtain ⟨rfl, rfl⟩ := ih rest_ok'
      exact ⟨rfl, rfl⟩
    · exact absurd item_ok' item_ok.not_isOpen
  | unclosed blank item_ok =>
    rcases h'.behind_gap blank item_ok.begins.blank with
      ⟨comment, -, -⟩ | ⟨item', later, more, item_ok', rfl, -, -⟩ | ⟨-, rfl, rfl⟩
    · exact absurd comment item_ok.begins.comment
    · exact absurd item_ok item_ok'.not_isOpen
    · exact ⟨rfl, rfl⟩

/-! ### Every line divides -/

/-- White space in front belongs to the first chunk, or to the tail. -/
theorem Divides.cons_blank (h : Divides line chunks tail) (blank : isBlank c = true) :
    ∃ chunks tail, Divides (c :: line) chunks tail := by
  cases h with
  | tail blanks comment =>
    exact ⟨_, _, .tail (List.forall_mem_cons.mpr ⟨blank, blanks⟩) comment⟩
  | item blanks item_ok rest_ok =>
    exact ⟨_, _, .item (List.forall_mem_cons.mpr ⟨blank, blanks⟩) item_ok rest_ok⟩
  | unclosed blanks item_ok =>
    exact ⟨_, _, .unclosed (List.forall_mem_cons.mpr ⟨blank, blanks⟩) item_ok⟩

theorem Divides.cons_item (h : Divides rest chunks tail) (item_ok : IsItem item) :
    ∃ chunks tail, Divides (item ++ rest) chunks tail :=
  ⟨_, _, .item (List.forall_mem_nil _) item_ok h⟩

/-- What follows a quote: a segment that is closed, or one that runs to the end. -/
inductive Quoted : List Char → Prop
  | closed {body : List Char} (inside : Inside body) (rest : List Char) :
      Quoted (body ++ '"' :: rest)
  | text {body : List Char} (inside : Inside body) : Quoted body
  | backslash {body : List Char} (inside : Inside body) : Quoted (body ++ ['\\'])

theorem Quoted.cons_plain (h : Quoted cs) (quote : c ≠ '"') (backslash : c ≠ '\\') :
    Quoted (c :: cs) := by
  cases h with
  | closed inside rest => exact .closed (.plain quote backslash inside) rest
  | text inside => exact .text (.plain quote backslash inside)
  | backslash inside => exact .backslash (.plain quote backslash inside)

theorem Quoted.cons_escape (h : Quoted cs) (c : Char) : Quoted ('\\' :: c :: cs) := by
  cases h with
  | closed inside rest => exact .closed (.escape c inside) rest
  | text inside => exact .text (.escape c inside)
  | backslash inside => exact .backslash (.escape c inside)

theorem Quoted.total (cs : List Char) : Quoted cs := by
  induction cs using List.twoStepInduction with
  | nil => exact .text .nil
  | singleton c =>
    by_cases quote : c = '"'
    · subst quote
      exact .closed .nil []
    by_cases backslash : c = '\\'
    · subst backslash
      exact .backslash .nil
    · exact .text (.plain quote backslash .nil)
  | cons_cons c d cs behind next =>
    by_cases quote : c = '"'
    · subst quote
      exact .closed .nil (d :: cs)
    by_cases backslash : c = '\\'
    · subst backslash
      exact behind.cons_escape d
    · exact (next d).cons_plain quote backslash

/-- Every line divides. -/
theorem exists_divides (line : List Char) : ∃ chunks tail, Divides line chunks tail := by
  -- Behind a closing quote the line goes on at any distance.
  induction length : line.length using Nat.strong_induction_on generalizing line with
  | _ n ih =>
    subst length
    cases line with
    | nil => exact ⟨_, _, .tail (List.forall_mem_nil _) (by simp)⟩
    | cons c cs =>
      by_cases blank : isBlank c = true
      · obtain ⟨chunks, tail, rest⟩ := ih cs.length (by simp) cs rfl
        exact rest.cons_blank blank
      by_cases comment : c = ';'
      · subst comment
        exact ⟨_, _, .tail (List.forall_mem_nil _) (by simp)⟩
      by_cases quote : c = '"'
      · subst quote
        cases Quoted.total cs with
        | @closed body inside rest =>
          obtain ⟨chunks, tail, rest_ok⟩ := ih rest.length (by simp; omega) rest rfl
          simpa using rest_ok.cons_item (.segment inside)
        | text inside => exact ⟨_, _, .unclosed (List.forall_mem_nil _) (.text inside)⟩
        | backslash inside => exact ⟨_, _, .unclosed (List.forall_mem_nil _) (.backslash inside)⟩
      · obtain ⟨chunks, tail, rest⟩ := ih cs.length (by simp) cs rfl
        have plain : isPlain c = true := isPlain_iff.mpr ⟨by simpa using blank, comment, quote⟩
        exact rest.cons_item (.single plain)

/-! ### The chunks of the tidy form -/

theorem tidyFrom_inside (h : Inside body) (rest : List Char) :
    tidyFrom .quoted (body ++ rest) = body ++ tidyFrom .quoted rest := by
  induction h with
  | nil => rfl
  | plain quote backslash _ ih =>
    rw [List.cons_append, tidyFrom, if_neg backslash, if_neg quote, ih, List.cons_append]
  | escape c _ ih =>
    rw [List.cons_append, List.cons_append, tidyFrom, if_pos rfl, tidyFrom, ih, List.cons_append,
      List.cons_append]

/-- Where an item can begin, the first character of one is kept, behind the blank that is due. -/
theorem tidyFrom_cons (outside : state ≠ .quoted ∧ state ≠ .escaped) (blank : isBlank c = false)
    (comment : c ≠ ';') :
    tidyFrom state (c :: cs) = state.owed ++ c :: tidyFrom (.afterItem c) cs := by
  cases state with
  | quoted => exact absurd rfl outside.1
  | escaped => exact absurd rfl outside.2
  | _ => simp [tidyFrom, blank, comment, TidyState.owed]

theorem tidyFrom_item (outside : state ≠ .quoted ∧ state ≠ .escaped) (h : IsItem item) :
    tidyFrom state (item ++ rest) = state.owed ++ (item ++ tidyFrom .item rest) := by
  cases h with
  | single plain =>
    obtain ⟨blank, comment, quote⟩ := isPlain_iff.mp plain
    rw [List.singleton_append, tidyFrom_cons outside blank comment, TidyState.afterItem,
      if_neg quote, List.singleton_append]
  | @segment body inside =>
    have closed : tidyFrom .quoted ('"' :: rest) = '"' :: tidyFrom .item rest := rfl
    rw [List.cons_append, tidyFrom_cons outside (by decide) (by decide), TidyState.afterItem,
      if_pos rfl, List.append_assoc, tidyFrom_inside inside, List.singleton_append, closed]
    simp

theorem tidyFrom_open (outside : state ≠ .quoted ∧ state ≠ .escaped) (h : IsOpen item) :
    tidyFrom state item = state.owed ++ item := by
  cases h with
  | @text body inside =>
    have kept : tidyFrom .quoted body = body := by
      simpa [tidyFrom] using tidyFrom_inside inside []
    rw [tidyFrom_cons outside (by decide) (by decide), TidyState.afterItem, if_pos rfl, kept]
  | @backslash body inside =>
    have kept : tidyFrom .quoted ['\\'] = ['\\'] := rfl
    rw [tidyFrom_cons outside (by decide) (by decide), TidyState.afterItem, if_pos rfl,
      tidyFrom_inside inside, kept]

theorem tidyFrom_tail (outside : state ≠ .quoted ∧ state ≠ .escaped)
    (comment : ∀ c ∈ rest.head?, c = ';') : tidyFrom state rest = [] := by
  cases rest with
  | nil => simp [tidyFrom]
  | cons c rest =>
    obtain rfl := comment c rfl
    cases state with
    | quoted => exact absurd rfl outside.1
    | escaped => exact absurd rfl outside.2
    | _ => rfl

/-- The state behind an item and white space. -/
def TidyState.behind (gap : List Char) : TidyState :=
  if gap = [] then .item else .gap

theorem tidyFrom_behind (blank : ∀ c ∈ gap, isBlank c = true) (rest : List Char) :
    tidyFrom .item (gap ++ rest) = tidyFrom (.behind gap) rest := by
  by_cases empty : gap = []
  · simp [TidyState.behind, empty]
  · rw [tidyFrom_item_blanks blank empty, TidyState.behind, if_neg empty]

theorem behind_outside (gap : List Char) :
    TidyState.behind gap ≠ .quoted ∧ TidyState.behind gap ≠ .escaped := by
  unfold TidyState.behind
  split <;> simp

@[simp] theorem owed_behind (gap item : List Char) :
    (TidyState.behind gap).owed = (Chunk.spaced ⟨gap, item⟩).gap := by
  unfold TidyState.behind Chunk.spaced
  split <;> simp_all [TidyState.owed]

@[simp] theorem joined_nil : joined [] = [] := rfl

@[simp] theorem joined_cons (chunk : Chunk) (chunks : List Chunk) :
    joined (chunk :: chunks) = chunk.gap ++ (chunk.item ++ joined chunks) := by
  simp [joined]

/-- Behind an item, the tidy form is made of the spaced chunks. -/
theorem tidyFrom_item_eq (h : Divides line chunks tail) :
    tidyFrom .item line = joined (chunks.map Chunk.spaced) := by
  induction h with
  | tail blank comment =>
    rw [tidyFrom_behind blank, tidyFrom_tail (behind_outside _) comment]
    rfl
  | @item gap item rest tail chunks blank item_ok _ ih =>
    rw [tidyFrom_behind blank, tidyFrom_item (behind_outside _) item_ok, ih, owed_behind gap item]
    simp [Chunk.spaced]
  | @unclosed gap item blank item_ok =>
    rw [tidyFrom_behind blank, tidyFrom_open (behind_outside _) item_ok, owed_behind gap item]
    simp [Chunk.spaced]

theorem tidy_eq_joined (h : Divides line chunks tail) : tidy line = joined (canonical chunks) := by
  have outside : TidyState.start ≠ .quoted ∧ TidyState.start ≠ .escaped := by simp
  unfold tidy
  cases h with
  | tail blank comment =>
    rw [tidyFrom_blanks (.inl rfl) blank, tidyFrom_tail outside comment]
    rfl
  | item blank item_ok rest_ok =>
    rw [tidyFrom_blanks (.inl rfl) blank, tidyFrom_item outside item_ok, tidyFrom_item_eq rest_ok]
    simp [canonical, TidyState.owed]
  | unclosed blank item_ok =>
    rw [tidyFrom_blanks (.inl rfl) blank, tidyFrom_open outside item_ok]
    simp [canonical, TidyState.owed]

theorem isBlank_of_mem_spaced (chunk : Chunk) : ∀ c ∈ chunk.spaced.gap, isBlank c = true := by
  unfold Chunk.spaced
  split <;> simp [isBlank_blank]

theorem divides_joined_spaced (h : Divides line chunks tail) :
    Divides (joined (chunks.map Chunk.spaced)) (chunks.map Chunk.spaced) [] := by
  induction h with
  | tail => exact .tail (List.forall_mem_nil _) (by simp)
  | item blank item_ok _ ih =>
    rw [List.map_cons, joined_cons]
    exact .item (isBlank_of_mem_spaced _) item_ok ih
  | unclosed blank item_ok =>
    rw [List.map_cons, List.map_nil, joined_cons, joined_nil, List.append_nil]
    exact .unclosed (isBlank_of_mem_spaced _) item_ok

/-- The chunks of the tidy form are the canonical ones, and nothing follows them. -/
theorem divides_tidy (h : Divides line chunks tail) :
    Divides (tidy line) (canonical chunks) [] := by
  rw [tidy_eq_joined h]
  cases h with
  | tail => exact .tail (List.forall_mem_nil _) (by simp)
  | item blank item_ok rest_ok =>
    rw [canonical, joined_cons]
    exact .item (List.forall_mem_nil _) item_ok (divides_joined_spaced rest_ok)
  | unclosed blank item_ok =>
    rw [canonical, List.map_nil, joined_cons, joined_nil, List.append_nil]
    exact .unclosed (List.forall_mem_nil _) item_ok

theorem canonical_items (chunks : List Chunk) :
    (canonical chunks).map Chunk.item = chunks.map Chunk.item := by
  cases chunks with
  | nil => rfl
  | cons first chunks => simp [canonical, Chunk.spaced]

/-- Tidying a line twice is tidying it once.  The line divides in one way, and so does its tidy
form.  Both have the same items in the same order; in the tidy form nothing stands in front of the
first item and behind the last one, and in front of any other item there is one blank where the line
has white space, and nothing where it has none. -/
theorem tidy_canonical (raw : List Char) :
    tidy (tidy raw) = tidy raw ∧
      ∃ chunks tail shown,
        (∀ ps t, Divides raw ps t ↔ ps = chunks ∧ t = tail) ∧
        (∀ ps t, Divides (tidy raw) ps t ↔ ps = shown ∧ t = []) ∧
        shown.map Chunk.item = chunks.map Chunk.item ∧
        (∀ first ∈ shown.head?, first.gap = []) ∧
        List.Forall₂ (fun chunk spaced => spaced.gap = if chunk.gap = [] then [] else [' '])
          chunks.tail shown.tail := by
  obtain ⟨chunks, tail, divided⟩ := exists_divides raw
  have tidied := divides_tidy divided
  refine ⟨tidy_of_isTidyFrom (isTidyFrom_tidyFrom .start raw), chunks, tail, canonical chunks,
    ?_, ?_, canonical_items chunks, ?_, ?_⟩
  · intro ps t
    exact ⟨divided.unique, fun same => same.1 ▸ same.2 ▸ divided⟩
  · intro ps t
    exact ⟨tidied.unique, fun same => same.1 ▸ same.2 ▸ tidied⟩
  · cases chunks <;> simp [canonical]
  · cases chunks with
    | nil => exact .nil
    | cons first chunks =>
      rw [canonical, List.tail_cons, List.tail_cons, List.forall₂_map_right_iff]
      exact List.forall₂_same.mpr fun _ _ => rfl

end Dcpu16.Text
