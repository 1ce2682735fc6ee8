import Dcpu16.Image
import Dcpu16.Proofs.Grammar
import Dcpu16.Proofs.RoundTrip

/-! Operands without a term.  A semicolon separates the runs of an operand as white space does, but
it is not trimmed.  So a text of semicolons and white space is read as an expression without a term,
which stands for zero.  No line of a source has such an operand, since a semicolon starts a comment
there.  The entry of a program can be one. -/

namespace Dcpu16

open Text

/-- Semicolons, perhaps with white space between them. -/
structure IsHollow (text : List Char) : Prop where
  comment : ';' ∈ text
  separators : ∀ c ∈ text, c = ';' ∨ isBlank c = true

/-- Text that is cut into nothing. -/
theorem Piece.cut_eq_nil {body : List Char} :
    cut body = [] ↔ ∀ c ∈ body, c = ';' ∨ isBlank c = true := by
  constructor
  · intro empty c member
    by_contra other
    obtain ⟨comment, blank⟩ := not_or.mp other
    obtain ⟨piece, listed, -⟩ := mem_cut member (by simpa using blank) comment
    rw [empty] at listed
    cases listed
  · intro lost
    have separators : ∀ c ∈ body, isSeparator c = true := by
      intro c member
      rcases lost c member with rfl | blank
      · decide
      · simp [isSeparator, blank]
    have signs : signs body = [] := by
      rw [Piece.signs, List.map_eq_nil_iff, ← List.getLast?_eq_none_iff, getLast?_signs_eq_none]
      constructor
      · intro plus
        exact absurd (lost _ plus) (by decide)
      · intro minus
        exact absurd (lost _ minus) (by decide)
    calc
      cut body = Piece.signs body ++ [] := foldr_step_gap separators ([], [])
      _ = [] := by rw [signs, List.append_nil]

namespace Expr

/-- Terms are read from nothing exactly if there is no piece. -/
theorem readTerms_eq_nil {pieces : List Piece} :
    readTerms true none pieces = .ok ([], none) ↔ pieces = [] := by
  constructor
  · intro read
    exact ((termsRead_of_readTerms read).empty rfl rfl).2
  · rintro rfl
    rfl

/-- An expression without a term is read from semicolons, with or without brackets around them, and
from nothing else. -/
theorem parse_eq_termless {text : List Char} {indirect : Bool} :
    parse text = .ok ⟨[], indirect⟩ ↔
      ∃ inner, trim text = bracket indirect inner ∧ IsHollow inner := by
  rw [parse_eq_ok]
  constructor
  · rintro ⟨inner, outer, -, -, nonempty, -, read, -⟩
    have lost := Piece.cut_eq_nil.mp (readTerms_eq_nil.mp read)
    refine ⟨inner, outer, ?_, fun c member => ?_⟩
    · -- The last character of the body is no white space.
      obtain ⟨c, last⟩ := Option.ne_none_iff_exists'.mp (mt List.getLast?_eq_none_iff.mp nonempty)
      have member := List.mem_of_getLast? last
      rcases lost c member with rfl | blank
      · exact mem_of_mem_trim member
      · cases (last_trim inner c last).symm.trans blank
    · cases blank : isBlank c with
      | true => exact .inr rfl
      | false => exact .inl ((lost c (mem_trim member blank)).resolve_right (by simp [blank]))
  · rintro ⟨inner, outer, hollow⟩
    have absent {c : Char} (other : ¬ (c = ';' ∨ isBlank c = true)) : c ∉ inner :=
      fun member => other (hollow.separators c member)
    have comment : ';' ∈ trim inner := mem_trim hollow.comment (by decide)
    refine ⟨inner, outer, absent (by decide), absent (by decide), List.ne_nil_of_mem comment, ?_,
      ?_, Nat.zero_le 1⟩
    · intro brace
      exact absent (by decide) (mem_of_mem_trim (List.mem_of_mem_head? brace))
    · rw [readTerms_eq_nil, Piece.cut_eq_nil]
      intro c member
      exact hollow.separators c (mem_of_mem_trim member)

/-- Without a term an expression is the literal zero. -/
theorem eval_termless (indirect : Bool) (slot : Slot) (scope : Scope) :
    eval ⟨[], indirect⟩ slot scope = eval ⟨[⟨none, .literal 0⟩], indirect⟩ slot scope := by
  cases indirect <;> cases slot <;> rfl

end Expr

/-! ### Lines -/

/-- The operands of a line have terms. -/
theorem Body.Written.terms_ne_nil {text : List Char} {op : Opcode} {operands : List Expr}
    (h : Written text (.instruction op operands)) {e : Expr} (member : e ∈ operands) :
    e.terms ≠ [] := by
  cases h with
  | something line nonempty cut unlabelled read =>
    rcases read_eq_ok read with ⟨op', named, inLine⟩ | ⟨d, -, other⟩ | other | ⟨other, -⟩
    · have isToken := Opcode.isToken_of_ofName? named
      have rest := Statement.isLine_rest line cut isToken.plain isToken.nonempty
      rcases chains_of_readOperands rest inLine with ⟨o, source, -, same, chain⟩ |
        ⟨o, destination, source, -, same, chain, chain'⟩
      · cases same
        obtain rfl := List.mem_singleton.mp member
        exact chain.nonempty
      · cases same
        rcases List.mem_pair.mp member with rfl | rfl
        · exact chain.nonempty
        · exact chain'.nonempty
    · cases other
    · cases other
    · cases other

/-- Every operand of a source line has a term. -/
theorem Statement.terms_ne_nil {raw : List Char} {s : Statement} {op : Opcode}
    {operands : List Expr} (h : parse (tidy raw) = .ok s) (body : s.body = .instruction op operands)
    {e : Expr} (member : e ∈ operands) : e.terms ≠ [] := by
  have line := isLine_trim_tidy raw
  have trimmed : parse (trim (tidy raw)) = .ok s := by rwa [parse, line.trim, ← parse]
  rcases parse_eq_ok line trimmed with ⟨-, written⟩ | ⟨name, rest, -, -, written⟩
  · rw [body] at written
    exact written.terms_ne_nil member
  · rw [body] at written
    exact written.terms_ne_nil member

namespace Expr

/-- A text is read as an expression without a term exactly if it is made of semicolons and white
space.  As a line of a source no text has such an operand.  Where one is evaluated it counts as
zero. -/
theorem termless_iff_hollow (text : List Char) (indirect : Bool) :
    (parse text = .ok ⟨[], indirect⟩ ↔
      ∃ inner, trim text = bracket indirect inner ∧ IsHollow inner) ∧
    (∀ s op operands, Statement.parse (tidy text) = .ok s → s.body = .instruction op operands →
      ∀ e ∈ operands, e.terms ≠ []) ∧
    ∀ slot scope,
      eval ⟨[], indirect⟩ slot scope = eval ⟨[⟨none, .literal 0⟩], indirect⟩ slot scope := by
  refine ⟨parse_eq_termless, ?_, eval_termless indirect⟩
  intro s op operands read body e member
  exact Statement.terms_ne_nil read body member

/-- The entry `;` is an operand without a term, and the program jumps to the address zero. -/
theorem parse_lone_semicolon :
    parse ";".toList = .ok ⟨[], false⟩ ∧
      (assemble [] { entry := some ";" }).result.toOption.map Image.words = some [0x8781] := by
  decide +kernel

end Expr

end Dcpu16
