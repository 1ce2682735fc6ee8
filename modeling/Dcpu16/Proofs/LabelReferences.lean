import Dcpu16.Proofs.Grammar
import Dcpu16.Proofs.RoundTrip

/-! Labels as operands.  Whatever name a line gives to a label, an operand expression can refer to
it: alone, or with a literal added or subtracted. -/

namespace Dcpu16

open Text

/-! ### Tokens -/

theorem IsLiteral.isToken {token : List Char} {w : Word} (h : IsLiteral token w) :
    IsToken token := by
  cases h with
  | decimal nonempty value => exact isToken_of_digitsFrom? nonempty value.digitsFrom?
  | @hexadecimal x digits _ mark nonempty value =>
    refine ⟨by simp, fun c member => ?_⟩
    rcases List.mem_cons.mp member with rfl | member
    · decide
    rcases List.mem_cons.mp member with rfl | member
    · rcases mark with rfl | rfl <;> decide
    · exact (isToken_of_digitsFrom? nonempty value.digitsFrom?).chars c member

theorem isSpacer_of_isTokenChar {c : Char} (h : isTokenChar c = true) : isSpacer c = false := by
  have item := isSeparator_of_isTokenChar h
  rw [Piece.isSeparator, ← isSpacer, Bool.or_eq_false_iff] at item
  exact item.1

/-- The run that a token is, behind a gap. -/
def IsToken.segment {token gap : List Char} (h : IsToken token)
    (spacers : ∀ c ∈ gap, isSpacer c = true) : Segment :=
  ⟨gap, token, spacers, h.nonempty, fun c member => isSpacer_of_isTokenChar (h.chars c member)⟩

/-! ### Tokens in a row -/

/-- The gap is white space around one sign. -/
structure Sign.IsGap (sign : Sign) (gap : List Char) : Prop where
  split : ∃ before after, gap = before ++ sign.char :: after ∧
    ∀ c ∈ before ++ after, isBlank c = true

namespace Sign.IsGap

variable {sign : Sign} {gap : List Char}

theorem mem_cases (h : sign.IsGap gap) {c : Char} (member : c ∈ gap) :
    c = sign.char ∨ isBlank c = true := by
  obtain ⟨before, after, rfl, blank⟩ := h.split
  rcases List.mem_append.mp member with front | member
  · exact .inr (blank c (List.mem_append_left _ front))
  rcases List.mem_cons.mp member with here | back
  · exact .inl here
  · exact .inr (blank c (List.mem_append_right _ back))

theorem isSpacer (h : sign.IsGap gap) : ∀ c ∈ gap, isSpacer c = true := by
  intro c member
  rcases h.mem_cases member with rfl | blank
  · cases sign <;> decide
  · simp [Dcpu16.isSpacer, blank]

theorem char_mem (h : sign.IsGap gap) : '+' ∈ gap ∨ '-' ∈ gap := by
  obtain ⟨before, after, rfl, -⟩ := h.split
  cases sign with
  | plus => exact .inl (by simp [Sign.char])
  | minus => exact .inr (by simp [Sign.char])

/-- The last sign of the gap is its only one. -/
theorem getLast?_signs (h : sign.IsGap gap) :
    (gap.filterMap Sign.ofChar?).getLast? = some sign := by
  obtain ⟨before, after, rfl, blank⟩ := h.split
  have free {cs : List Char} (part : cs ⊆ before ++ after) : cs.filterMap Sign.ofChar? = [] := by
    refine List.filterMap_eq_nil_iff.mpr fun c member => ?_
    have isBlank := blank c (part member)
    unfold Sign.ofChar?
    split
    · cases isBlank
    · cases isBlank
    · rfl
  have here : Sign.ofChar? sign.char = some sign := by cases sign <;> rfl
  simp [free (List.subset_append_left _ _), free (List.subset_append_right _ _), here]

end Sign.IsGap

namespace Expr

/-- A term behind another one: a gap with its sign, and its token. -/
structure Link where
  sign : Sign
  gap : List Char
  token : List Char
  atom : Atom
  signed : sign.IsGap gap
  spells : Spells token atom

namespace Link

/-- The term that is written. -/
def term (l : Link) : Term := ⟨some l.sign, l.atom⟩

/-- The text of the gap and the token. -/
def text (l : Link) : List Char := l.gap ++ l.token

/-- The gap and the token as a run behind it. -/
def segment (l : Link) : Segment := l.spells.isToken.segment l.signed.isSpacer

end Link

variable {first second gap : List Char} {sign : Sign} {a b : Atom}

/-- A token, and more of them behind their signs. -/
theorem parse_links (spells : Spells first a) (links : List Link)
    (bases : ((⟨none, a⟩ :: links.map Link.term).filter fun t => t.atom.isBase).length ≤ 1)
    (indirect : Bool) :
    parse (bracket indirect (first ++ links.flatMap Link.text)) =
      .ok ⟨⟨none, a⟩ :: links.map Link.term, indirect⟩ := by
  obtain ⟨token, read⟩ := spells
  have absent {c : Char} (other : isTokenChar c = false) (item : isSpacer c = false) :
      c ∉ first ++ links.flatMap Link.text := by
    intro member
    rcases List.mem_append.mp member with front | member
    · exact token.not_mem other front
    obtain ⟨l, -, inside⟩ := List.mem_flatMap.mp member
    rcases List.mem_append.mp inside with gap | back
    · cases item.symm.trans (l.signed.isSpacer c gap)
    · exact l.spells.isToken.not_mem other back
  let left : Segment := token.segment (List.forall_mem_nil _)
  have cut : IsCut (first ++ links.flatMap Link.text) (left :: links.map Link.segment) [] := by
    refine ⟨?_, fun s member => ?_, List.forall_mem_nil _⟩
    · have joined : Segment.join (links.map Link.segment) = links.flatMap Link.text :=
        List.flatMap_map ..
      rw [List.append_nil, ← joined]
      rfl
    · obtain ⟨l, -, rfl⟩ := List.mem_map.mp member
      rcases l.signed.char_mem with plus | minus
      · exact List.ne_nil_of_mem plus
      · exact List.ne_nil_of_mem minus
  have terms : readTerms true none (Piece.cut (first ++ links.flatMap Link.text)) =
      .ok (⟨none, a⟩ :: links.map Link.term, none) := by
    refine (readTerms_cut_eq_ok (absent rfl rfl) cut).mpr ⟨fun s member => ?_, ?_, by simp, by simp⟩
    · obtain ⟨l, -, rfl⟩ := List.mem_map.mp member
      exact l.signed.char_mem
    · have lexeme : Atom.Lexeme left.run a := Segment.read_run_eq_ok.mp read
      refine .cons ⟨lexeme, rfl⟩ ?_
      rw [List.forall₂_map_left_iff, List.forall₂_map_right_iff, List.forall₂_same]
      intro l _
      have lexeme' : Atom.Lexeme l.segment.run l.atom := Segment.read_run_eq_ok.mp l.spells.read
      exact ⟨lexeme', l.signed.getLast?_signs.symm⟩
  refine parse_bracket_of_readTerms ?_ ?_ (by simp [token.nonempty]) (absent rfl rfl)
    (absent rfl rfl) (absent rfl rfl) terms bases indirect
  · rw [List.head?_append_of_ne_nil _ token.nonempty]
    exact fun c head => isBlank_of_isTokenChar (token.chars c (List.mem_of_mem_head? head))
  · -- The text ends with a token, the first or that of the last link.
    have ends (front : List Char) {last : List Char} (isToken : IsToken last) :
        ∀ c ∈ (front ++ last).getLast?, isBlank c = false := by
      rw [List.getLast?_append_of_ne_nil _ isToken.nonempty]
      exact fun c last => isBlank_of_isTokenChar (isToken.chars c (List.mem_of_getLast? last))
    rcases links.eq_nil_or_concat with rfl | ⟨front, l, rfl⟩
    · rw [List.flatMap_nil, List.append_nil]
      exact ends [] token
    · have back : first ++ (front.concat l).flatMap Link.text =
          (first ++ (front.flatMap Link.text ++ l.gap)) ++ l.token := by
        simp [Link.text]
      rw [back]
      exact ends _ l.spells.isToken

/-- Two tokens with a sign between them. -/
theorem parse_pair (spells : Spells first a) (spells' : Spells second b) (signed : sign.IsGap gap)
    (bases : ([⟨none, a⟩, ⟨some sign, b⟩].filter fun t : Term => t.atom.isBase).length ≤ 1)
    (indirect : Bool) :
    parse (bracket indirect (first ++ (gap ++ second))) =
      .ok ⟨[⟨none, a⟩, ⟨some sign, b⟩], indirect⟩ := by
  let link : Link := ⟨sign, gap, second, b, signed, spells'⟩
  have text : [link].flatMap Link.text = gap ++ second := List.append_nil _
  rw [← text]
  exact parse_links spells [link] bases indirect

end Expr

/-! ### Names of labels -/

theorem IsLiteral.spells {token : List Char} {w : Word} (h : IsLiteral token w) :
    Expr.Spells token (.literal w) :=
  ⟨h.isToken, Atom.read_of_lexeme (h.isToken.not_mem rfl) (.literal h)⟩

theorem Label.isSymbolName_of_isName {name : List Char} (h : isName name = true) :
    isSymbolName name = true := by
  have head {c : Char} (h : isHead c = true) : isSymbolHead c = true := by
    rw [isSymbolHead, ← isHead, h, Bool.true_or]
  cases name with
  | nil => cases h
  | cons c cs =>
    simp only [isName, isSymbolName, Bool.and_eq_true, List.all_eq_true, Bool.or_eq_true] at h ⊢
    exact ⟨head h.1, fun d member => (h.2 d member).imp_left head⟩

namespace Statement

variable {line : List Char} {s : Statement} {label : Label}

/-- A name that is kept from registers and special values is read as a reference. -/
theorem IsLabelName.spells {name : List Char} (h : IsLabelName name) :
    Expr.Spells name (.reference (String.ofList name)) := by
  have token := Label.isToken_of_isName h.isName
  obtain ⟨noRegister, noSpecial⟩ := Bool.or_eq_false_iff.mp h.free
  refine ⟨token, Atom.read_of_lexeme (token.not_mem rfl) (.reference ?_ ?_ ?_)⟩
  · exact Label.isSymbolName_of_isName h.isName
  · exact Register.ofName?_eq_none.mp (by simpa using noRegister)
  · exact SpecialValue.ofName?_eq_none.mp (by simpa using noSpecial)

theorem isLabelName_of_parse (h : parse line = .ok s) (labelled : s.label = some label) :
    IsLabelName label.name.toList := by
  rcases readFrom_of_parse h with ⟨unlabelled, -⟩ | ⟨token, rest, first, -, found, free, same, -⟩
  · cases unlabelled.symm.trans labelled
  · cases same.symm.trans labelled
    obtain ⟨name, isName, rfl, -⟩ := Label.ofToken?_eq_some found
    exact ⟨by simpa using isName, by simpa using free⟩

/-- A label that a line can begin with can be referred to, alone or with a literal that is added or
subtracted. -/
theorem parse_label_reference (h : parse line = .ok s) (labelled : s.label = some label) :
    Expr.parse label.name.toList = .ok ⟨[⟨none, .reference label.name⟩], false⟩ ∧
      ∀ (sign : Sign) (gap token : List Char) (w : Word) (indirect : Bool),
        sign.IsGap gap → IsLiteral token w →
          Expr.parse (Expr.bracket indirect (label.name.toList ++ (gap ++ token))) =
            .ok ⟨[⟨none, .reference label.name⟩, ⟨some sign, .literal w⟩], indirect⟩ := by
  have spells := (isLabelName_of_parse h labelled).spells
  rw [String.ofList_toList] at spells
  constructor
  · have chain : Expr.IsChain (fun _ => label.name.toList) [⟨none, .reference label.name⟩] :=
      ⟨by simp, by simp, by simp [Atom.isBase], by simpa using spells⟩
    simpa [Expr.bracket, Expr.text, Expr.textAfter, Term.leadingSign] using
      Expr.parse_bracket chain false
  · intro sign gap token w indirect signed literal
    exact Expr.parse_pair spells literal.spells signed (by simp [Atom.isBase]) indirect

/-- The name of a register, with a dot in front and a digit behind. -/
theorem parse_label_reference_like_register :
    parse ".A0: SET A, 1".toList =
        .ok ⟨some ⟨".A0"⟩, .instruction (.basic .set) [⟨[⟨none, .register .a⟩], false⟩,
          ⟨[⟨none, .literal 1⟩], false⟩]⟩ ∧
      Expr.parse ".A0".toList = .ok ⟨[⟨none, .reference ".A0"⟩], false⟩ ∧
      Expr.parse "[.A0\t+0X1f]".toList =
        .ok ⟨[⟨none, .reference ".A0"⟩, ⟨some .plus, .literal 0x1F⟩], true⟩ ∧
      Expr.parse ".A0 - 65535".toList =
        .ok ⟨[⟨none, .reference ".A0"⟩, ⟨some .minus, .literal 65535⟩], false⟩ := by
  have read : parse ".A0: SET A, 1".toList =
      .ok ⟨some ⟨".A0"⟩, .instruction (.basic .set) [⟨[⟨none, .register .a⟩], false⟩,
        ⟨[⟨none, .literal 1⟩], false⟩]⟩ := Runs.eq_ok_of_toOption (by decide +kernel)
  obtain ⟨alone, pair⟩ := parse_label_reference read rfl
  have plus : Sign.plus.IsGap ['\t', '+'] := ⟨['\t'], [], rfl, List.all_eq_true.mp rfl⟩
  have minus : Sign.minus.IsGap [' ', '-', ' '] := ⟨[' '], [' '], rfl, List.all_eq_true.mp rfl⟩
  have hexadecimal : IsLiteral "0X1f".toList 0x1F :=
    .hexadecimal (.inr rfl) (by simp) ⟨[1, 15], .cons rfl (.cons rfl .nil), rfl⟩
  have decimal : IsLiteral "65535".toList 65535 :=
    .decimal (by simp) ⟨[6, 5, 5, 3, 5],
      .cons rfl (.cons rfl (.cons rfl (.cons rfl (.cons rfl .nil)))), rfl⟩
  exact ⟨read, alone, pair _ _ _ _ true plus hexadecimal, pair _ _ _ _ false minus decimal⟩

end Statement

end Dcpu16
