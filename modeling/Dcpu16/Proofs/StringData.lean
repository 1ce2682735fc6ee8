import Dcpu16.Proofs.RoundTrip
import Dcpu16.Source.Data

/-! Text as data.  A text between quotes is written with its quotes and backslashes escaped; other
characters stand for themselves or for an escape.  Tidying a line and taking escapes apart agree on
where such a text ends, so that a line for it yields the bytes of the text, whatever else is on the
line.  Nothing but a text between quotes is read. -/

namespace Dcpu16

open Text

namespace Data

/-- The escapes: what stands behind the backslash, and what it stands for. -/
def escapes : List (Char × Char) :=
  [('n', '\n'), ('t', '\t'), ('r', '\r'), ('0', '\x00'), ('\\', '\\'), ('"', '"')]

/-- How a text can be written between quotes. -/
inductive Spelled : List Char → List Char → Prop
  | nil : Spelled [] []
  | plain {c : Char} {body text : List Char} (quote : c ≠ '"') (backslash : c ≠ '\\')
      (rest : Spelled body text) : Spelled (c :: body) (c :: text)
  | escape {code c : Char} {body text : List Char} (listed : (code, c) ∈ escapes)
      (rest : Spelled body text) : Spelled ('\\' :: code :: body) (c :: text)

/-- A text between quotes. -/
def quote (body : List Char) : List Char :=
  '"' :: (body ++ ['"'])

variable {body text rest : List Char}

/-! ### Escapes -/

theorem escaped?_eq_some {code c : Char} : escaped? code = some c ↔ (code, c) ∈ escapes := by
  unfold escaped?
  split <;> simp_all [escapes, eq_comm]

theorem unescape?_of_spelled (h : Spelled body text) : unescape? body = some text := by
  induction h with
  | nil => rfl
  | @plain c body text quote backslash _ ih =>
    rw [unescape?.eq_4 _ _ (fun same _ => backslash same) fun _ _ same _ => backslash same,
      if_neg quote, ih]
    rfl
  | escape listed _ ih =>
    rw [unescape?, escaped?_eq_some.mpr listed, ih]
    rfl

theorem spelled_of_unescape? (h : unescape? body = some text) : Spelled body text := by
  fun_induction unescape? body generalizing text with
  | case1 =>
    cases h
    exact .nil
  | case2 => cases h
  | case3 code body ih =>
    obtain ⟨c, found, h⟩ := Option.bind_eq_some_iff.mp h
    obtain ⟨text, later, same⟩ := Option.bind_eq_some_iff.mp h
    cases same
    exact .escape (escaped?_eq_some.mp found) (ih later)
  | case4 => cases h
  | case5 c body alone escape quote ih =>
    obtain ⟨text, later, rfl⟩ := Option.map_eq_some_iff.mp h
    refine .plain quote ?_ (ih later)
    -- A backslash is followed by something, or it is the last character.
    rintro rfl
    cases body with
    | nil => exact alone rfl rfl
    | cons code body => exact escape code body rfl rfl

theorem unquote?_eq_some : unquote? rest = some text ↔
    ∃ body, rest = quote body ∧ Spelled body text := by
  unfold unquote?
  simp only [Option.bind_eq_bind, Option.bind_eq_some_iff, dropHead?_eq_some, dropLast?_eq_some]
  constructor
  · rintro ⟨_, rfl, body, rfl, read⟩
    exact ⟨body, rfl, spelled_of_unescape? read⟩
  · rintro ⟨body, rfl, spelled⟩
    exact ⟨_, rfl, body, rfl, unescape?_of_spelled spelled⟩

/-- Every text can be written, and on a single line. -/
theorem exists_spelled (text : List Char) : ∃ body, Spelled body text ∧ '\n' ∉ body := by
  induction text with
  | nil => exact ⟨[], .nil, List.not_mem_nil⟩
  | cons c text ih =>
    obtain ⟨body, spelled, single⟩ := ih
    by_cases special : c = '"' ∨ c = '\\' ∨ c = '\n'
    · rcases special with rfl | rfl | rfl
      · exact ⟨'\\' :: '"' :: body, .escape (by decide) spelled, by simp [single]⟩
      · exact ⟨'\\' :: '\\' :: body, .escape (by decide) spelled, by simp [single]⟩
      · exact ⟨'\\' :: 'n' :: body, .escape (by decide) spelled, by simp [single]⟩
    · obtain ⟨quote, backslash, newline⟩ : c ≠ '"' ∧ c ≠ '\\' ∧ c ≠ '\n' := by
        simpa only [not_or] using special
      exact ⟨c :: body, .plain quote backslash spelled, by simp [single, newline.symm]⟩

/-! ### Lines -/

/-- A text that is written correctly is kept between its quotes: the next quote ends it. -/
theorem tidyFrom_spelled (h : Spelled body text) (rest : List Char) :
    tidyFrom .quoted (body ++ '"' :: rest) = body ++ '"' :: tidyFrom .item rest := by
  induction h with
  | nil => rfl
  | plain quote backslash _ ih =>
    rw [List.cons_append, tidyFrom, if_neg backslash, if_neg quote, ih, List.cons_append]
  | escape _ _ ih =>
    rw [List.cons_append, List.cons_append, tidyFrom, if_pos rfl, tidyFrom, ih, List.cons_append,
      List.cons_append]

theorem isLine_quote (h : Spelled body text) : IsLine (quote body) := by
  have kept : tidyFrom .start (quote body) = quote body :=
    congrArg ('"' :: ·) (tidyFrom_spelled h [])
  refine ⟨kept ▸ isTidyFrom_tidyFrom .start (quote body), ?_⟩
  rw [quote, ← List.cons_append, List.getLast?_concat]
  rintro c ⟨⟩
  decide

end Data

/-- What stands around the rest of a line with a directive.  The name of the directive is in any
case, and a comment may follow. -/
structure DirectiveLine (d : Directive) where
  indent : List Char
  name : List Char
  gap : List Char
  space : List Char
  comment : Option (List Char)
  indented : ∀ c ∈ indent, isBlank c = true
  named : lower name = d.name.toList
  separated : gap ≠ []
  blank : ∀ c ∈ gap, isBlank c = true
  spaced : ∀ c ∈ space, isBlank c = true

namespace DirectiveLine

variable {d : Directive} (line : DirectiveLine d)

/-- The text behind the rest of the line. -/
def ending : List Char :=
  line.space ++ (line.comment.map (';' :: ·)).getD []

/-- The whole line. -/
def around (rest : List Char) : List Char :=
  line.indent ++ (line.name ++ (line.gap ++ (rest ++ line.ending)))

theorem tidyFrom_ending : tidyFrom .item line.ending = [] := by
  have comment (state : TidyState) (outside : state = .item ∨ state = .gap) :
      tidyFrom state ((line.comment.map (';' :: ·)).getD []) = [] := by
    rcases outside with rfl | rfl <;> cases line.comment <;> rfl
  unfold ending
  by_cases none : line.space = []
  · rw [none]
    exact comment .item (.inl rfl)
  · rw [tidyFrom_item_blanks line.spaced none]
    exact comment .gap (.inr rfl)

theorem isToken_name : IsToken line.name :=
  Directive.isToken_of_ofName? (Directive.ofName?_of_lower line.named)

theorem tidy_around {body text : List Char} (h : Data.Spelled body text) :
    tidy (line.around (Data.quote body)) = line.name ++ ' ' :: Data.quote body := by
  have isToken := line.isToken_name
  have rest : Data.quote body ++ line.ending = '"' :: (body ++ '"' :: line.ending) := by
    simp [Data.quote]
  rw [around, tidy, tidyFrom_blanks (.inl rfl) line.indented,
    tidyFrom_start_plain isToken.plain isToken.nonempty,
    tidyFrom_item_blanks line.blank line.separated, rest]
  show line.name ++ ' ' :: '"' :: tidyFrom .quoted (body ++ '"' :: line.ending) = _
  rw [Data.tidyFrom_spelled h, line.tidyFrom_ending]
  rfl

theorem parse_around {body text : List Char} (h : Data.Spelled body text) :
    Statement.parse (tidy (line.around (Data.quote body))) =
      .ok ⟨none, .directive d (String.ofList (Data.quote body))⟩ := by
  have nonempty : Data.quote body ≠ [] := List.cons_ne_nil _ _
  rw [line.tidy_around h, ← Statement.spaced_of_ne_nil nonempty]
  exact Statement.parse_directive line.named (Data.isLine_quote h)

end DirectiveLine

/-! ### Words -/

/-- The directive for a text, with or without a zero behind it. -/
def Directive.forText (terminated : Bool) : Directive :=
  if terminated then .asciz else .string

namespace Data

/-- One word for each byte of a text, and perhaps a zero behind them. -/
def textWords (terminated : Bool) (text : String) : List Word :=
  text.toUTF8.data.toList.map UInt8.toUInt16 ++ if terminated then [0] else []

theorem utf8Words_eq (text : List Char) :
    utf8Words text = (String.ofList text).toUTF8.data.toList.map UInt8.toUInt16 := by
  rw [utf8Words, String.toUTF8, String.toByteArray_ofList, List.utf8Encode,
    List.toList_data_toByteArray]

theorem parse_forText_eq_ok {terminated : Bool} {rest : String} {words : List Word} :
    parse (.forText terminated) rest = .ok words ↔ ∃ text, unquote? rest.toList = some text ∧
      words = textWords terminated (String.ofList text) := by
  have read : parse (.forText terminated) rest = (readString rest.toList).map fun words =>
      words ++ if terminated then [0] else [] := by
    cases terminated with
    | true => rfl
    | false =>
      show readString rest.toList = _
      cases readString rest.toList <;> simp [Except.map]
  rw [read]
  unfold readString
  cases unquote? rest.toList with
  | none => simp [Except.map]
  | some text => simp [Except.map, textWords, utf8Words_eq, eq_comm]

/-- A text is exact from its line to its words.  However it is written, and whatever stands around
it, a line for it yields the bytes of the text.  Only texts between quotes are read, and they yield
the bytes of what they are written for. -/
theorem parse_text_exact (terminated : Bool) :
    (∀ text : String,
      (∃ body, Spelled body text.toList ∧ '\n' ∉ body) ∧
      ∀ body, Spelled body text.toList → ∀ line : DirectiveLine (.forText terminated), ∃ rest,
        Statement.parse (tidy (line.around (quote body))) =
            .ok ⟨none, .directive (.forText terminated) rest⟩ ∧
          parse (.forText terminated) rest = .ok (textWords terminated text)) ∧
    ∀ (rest : String) (words : List Word), parse (.forText terminated) rest = .ok words ↔
      ∃ body text, rest.toList = quote body ∧ Spelled body text ∧
        words = textWords terminated (String.ofList text) := by
  constructor
  · intro text
    refine ⟨exists_spelled text.toList, fun body spelled line => ?_⟩
    refine ⟨String.ofList (quote body), line.parse_around spelled, ?_⟩
    rw [parse_forText_eq_ok]
    refine ⟨text.toList, ?_, by rw [String.ofList_toList]⟩
    rw [String.toList_ofList]
    exact unquote?_eq_some.mpr ⟨body, rfl, spelled⟩
  · intro rest words
    rw [parse_forText_eq_ok]
    constructor
    · rintro ⟨text, read, rfl⟩
      obtain ⟨body, whole, spelled⟩ := unquote?_eq_some.mp read
      exact ⟨body, text, whole, spelled, rfl⟩
    · rintro ⟨body, text, whole, spelled, rfl⟩
      exact ⟨text, unquote?_eq_some.mpr ⟨body, whole, spelled⟩, rfl⟩

/-- A line that is indented, with a name in both cases and a comment that opens a quote. -/
def commentedLine : DirectiveLine (.forText true) where
  indent := ['\t', ' ']
  name := ['.', 'A', 's', 'c', 'i', 'Z']
  gap := [' ', '\t']
  space := [' ']
  comment := some [' ', 'a', ' ', '"', 'b']
  indented := List.all_eq_true.mp rfl
  named := by decide
  separated := by decide
  blank := List.all_eq_true.mp rfl
  spaced := List.all_eq_true.mp rfl

/-- The text has a semicolon, blanks and escapes, a character of two bytes, and a bare tab. -/
theorem parse_text_exact_commented :
    let body := "é;  \\\"\t\\0".toList
    let raw := "\t .AsciZ \t\"é;  \\\"\t\\0\" ; a \"b".toList
    Spelled body "é;  \"\t\x00".toList ∧ commentedLine.around (quote body) = raw ∧
      ∃ rest, Statement.parse (tidy raw) = .ok ⟨none, .directive .asciz rest⟩ ∧
        parse .asciz rest = .ok [0xC3, 0xA9, 0x3B, 0x20, 0x20, 0x22, 0x09, 0, 0] := by
  intro body raw
  have spelled : Spelled body "é;  \"\t\x00".toList := spelled_of_unescape? (by decide)
  have line : commentedLine.around (quote body) = raw := by decide
  have words : textWords true "é;  \"\t\x00" =
      [0xC3, 0xA9, 0x3B, 0x20, 0x20, 0x22, 0x09, 0, 0] := by
    decide
  obtain ⟨rest, parsed, read⟩ :=
    ((parse_text_exact true).1 "é;  \"\t\x00").2 body spelled commentedLine
  rw [line] at parsed
  rw [words] at read
  exact ⟨spelled, line, rest, parsed, read⟩

end Data

end Dcpu16
