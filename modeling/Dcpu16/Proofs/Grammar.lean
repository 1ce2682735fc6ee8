import Dcpu16.Proofs.Printing
import Mathlib.Data.List.Forall2
import Mathlib.Data.Nat.Digits.Defs
import Mathlib.Tactic.Ring

/-! The grammar of operand expressions.  A text is cut into its longest runs of characters other
than white space and signs.  Every run is the token of an atom, and the last sign in front of it is
the sign of its term.  Exactly the texts of this form are read, and each as the expression that it
is written for. -/

namespace Dcpu16

open Text

/-! ### Numerals -/

namespace Text.Numeral

variable {base n m : Nat} {cs : List Char}

/-- The number that digits denote.  The first of them counts most. -/
def Denotes (base : Nat) (cs : List Char) (n : Nat) : Prop :=
  ∃ ds, List.Forall₂ (fun c d => digit? base c = some d) cs ds ∧ Nat.ofDigits base ds.reverse = n

theorem digitsFrom?_eq_some :
    digitsFrom? base n cs = some m ↔ ∃ k, Denotes base cs k ∧ n * base ^ cs.length + k = m := by
  induction cs generalizing n with
  | nil => simp [digitsFrom?, Denotes]
  | cons c cs ih =>
    rw [digitsFrom?]
    cases digit : digit? base c with
    | none =>
      refine iff_of_false (by simp) ?_
      rintro ⟨k, ⟨ds, digits, -⟩, -⟩
      cases digits with
      | cons first _ => cases digit.symm.trans first
    | some d =>
      have grow {ds : List Nat} (length : cs.length = ds.length) :
          n * base ^ (c :: cs).length + Nat.ofDigits base (d :: ds).reverse =
            (n * base + d) * base ^ cs.length + Nat.ofDigits base ds.reverse := by
        rw [List.reverse_cons, Nat.ofDigits_append, Nat.ofDigits_singleton, List.length_reverse,
          ← length, List.length_cons, pow_succ]
        ring
      dsimp only
      rw [ih]
      constructor
      · rintro ⟨_, ⟨ds, digits, rfl⟩, rfl⟩
        exact ⟨_, ⟨d :: ds, .cons digit digits, rfl⟩, grow digits.length_eq⟩
      · rintro ⟨_, ⟨_, digits, rfl⟩, rfl⟩
        cases digits with
        | cons first digits =>
          cases digit.symm.trans first
          exact ⟨_, ⟨_, digits, rfl⟩, (grow digits.length_eq).symm⟩

theorem Denotes.digitsFrom? (h : Denotes base cs m) : Numeral.digitsFrom? base 0 cs = some m :=
  digitsFrom?_eq_some.mpr ⟨m, h, by rw [Nat.zero_mul, Nat.zero_add]⟩

theorem digits?_eq_some : digits? base cs = some m ↔ cs ≠ [] ∧ Denotes base cs m := by
  rw [digits?]
  split
  · next empty => simp_all
  · next nonempty => simpa [digitsFrom?_eq_some] using fun _ => nonempty

theorem readNat?_eq_some (unsigned : '+' ∉ cs) :
    readNat? base cs = some m ↔ cs ≠ [] ∧ Denotes base cs m := by
  have digits : readNat? base cs = digits? base cs := by
    unfold readNat?
    split
    · exact absurd List.mem_cons_self unsigned
    · rfl
  rw [digits, digits?_eq_some]

/-- The number of digits bounds the number. -/
theorem Denotes.lt (above : 1 < base) (h : Denotes base cs m) : m < base ^ cs.length := by
  obtain ⟨ds, digits, rfl⟩ := h
  have digit {c : Char} {d : Nat} (value : digit? base c = some d) : d < base := by
    simpa using (Option.filter_eq_some_iff.mp value).2
  have both : List.Forall₂ (fun d c => d < base ∧ digit? base c = some d) ds cs :=
    digits.flip.imp fun d c value => ⟨digit value, value⟩
  have small : ∀ d ∈ ds, d < base := ((List.forall₂_and_left ds cs).mp both).1
  have below := Nat.ofDigits_lt_base_pow_length above fun d member =>
    small d (List.mem_reverse.mp member)
  rwa [List.length_reverse, ← digits.length_eq] at below

/-- A sign in front only makes a numeral longer. -/
theorem lt_of_readNat? (above : 1 < base) (h : readNat? base cs = some m) :
    m < base ^ cs.length := by
  unfold readNat? at h
  split at h
  · next digits =>
    calc
      m < base ^ digits.length := (digits?_eq_some.mp h).2.lt above
      _ ≤ base ^ ('+' :: digits).length :=
        Nat.pow_le_pow_right (Nat.zero_lt_of_lt above) (Nat.le_succ _)
  · exact (digits?_eq_some.mp h).2.lt above

theorem afterHexMark?_eq_some {digits : List Char} :
    afterHexMark? cs = some digits ↔ ∃ x, (x = 'x' ∨ x = 'X') ∧ cs = '0' :: x :: digits := by
  unfold afterHexMark?
  split <;> simp_all

end Text.Numeral

/-- A token for a word: digits, or hexadecimal digits after their mark. -/
inductive IsLiteral : List Char → Word → Prop
  | decimal {digits : List Char} {w : Word} (nonempty : digits ≠ [])
      (value : Numeral.Denotes 10 digits w.toNat) : IsLiteral digits w
  | hexadecimal {x : Char} {digits : List Char} {w : Word} (mark : x = 'x' ∨ x = 'X')
      (nonempty : digits ≠ []) (value : Numeral.Denotes 16 digits w.toNat) :
      IsLiteral ('0' :: x :: digits) w

/-- The value of a literal, however large it is. -/
def literalValue? (token : List Char) : Option Nat :=
  match Numeral.afterHexMark? token with
  | some digits => Numeral.readNat? 16 digits
  | none => Numeral.readNat? 10 token

theorem readLiteral_eq (token : List Char) : readLiteral token =
    match (literalValue? token).filter (· < 0x10000) with
    | some n => .ok (UInt16.ofNat n)
    | none => .error (.badLiteral (String.ofList token)) :=
  rfl

theorem readLiteral_eq_ok {token : List Char} {w : Word} :
    readLiteral token = .ok w ↔ literalValue? token = some w.toNat := by
  rw [readLiteral_eq]
  cases literalValue? token with
  | none => simp
  | some n =>
    by_cases small : n < 0x10000
    · have kept : (some n).filter (fun n => decide (n < 0x10000)) = some n :=
        Option.filter_some_pos (decide_eq_true small)
      rw [kept, Except.ok.injEq, Option.some.injEq]
      constructor
      · rintro rfl
        exact (UInt16.toNat_ofNat_of_lt' small).symm
      · rintro rfl
        exact UInt16.ofNat_toNat
    · rw [Option.filter_some_neg (by simpa using small)]
      refine iff_of_false (by simp) ?_
      rintro ⟨⟩
      exact small w.toNat_lt

theorem literalValue?_eq_some {token : List Char} {w : Word} (unsigned : '+' ∉ token) :
    literalValue? token = some w.toNat ↔ IsLiteral token w := by
  unfold literalValue?
  constructor
  · intro h
    cases mark : Numeral.afterHexMark? token with
    | none =>
      rw [mark] at h
      obtain ⟨nonempty, value⟩ := (Numeral.readNat?_eq_some unsigned).mp h
      exact .decimal nonempty value
    | some digits =>
      rw [mark] at h
      obtain ⟨x, isMark, rfl⟩ := Numeral.afterHexMark?_eq_some.mp mark
      have unsigned' : '+' ∉ digits := fun member => unsigned (by simp [member])
      obtain ⟨nonempty, value⟩ := (Numeral.readNat?_eq_some unsigned').mp h
      exact .hexadecimal isMark nonempty value
  · intro h
    cases h with
    | decimal nonempty value =>
      rw [Numeral.afterHexMark?_of_digitsFrom? value.digitsFrom?]
      exact (Numeral.readNat?_eq_some unsigned).mpr ⟨nonempty, value⟩
    | @hexadecimal x digits _ mark nonempty value =>
      have unsigned' : '+' ∉ digits := fun member => unsigned (by simp [member])
      rw [Numeral.afterHexMark?_eq_some.mpr ⟨x, mark, rfl⟩]
      exact (Numeral.readNat?_eq_some unsigned').mpr ⟨nonempty, value⟩

/-! ### Names -/

theorem Register.ofName?_eq_some {token : List Char} {r : Register} :
    ofName? (String.ofList token) = some r ↔ lower token = r.name.toList := by
  constructor
  · intro h
    simpa [isNamed] using List.find?_some h
  · intro named
    simp only [ofName?, isNamed, String.toList_ofList, named]
    cases r <;> rfl

theorem SpecialValue.ofName?_eq_some {token : List Char} {v : SpecialValue} :
    ofName? (String.ofList token) = some v ↔ lower token = v.name.toList := by
  constructor
  · intro h
    simpa [isNamed] using List.find?_some h
  · intro named
    simp only [ofName?, isNamed, String.toList_ofList, named]
    cases v <;> rfl

/-- A digit is the same in lower case. -/
theorem isDigit_toLower {c : Char} (digit : c.isDigit = true) : c.toLower.isDigit = true := by
  unfold Char.toLower
  split
  · next upper =>
    have range := toNat_of_isDigit digit
    have range' : 65 ≤ c.toNat ∧ c.toNat ≤ 90 := upper
    omega
  · exact digit

theorem isDigit_head_of_lower {token : List Char}
    (letter : ((lower token).head?.map Char.isDigit).getD false = false) :
    (token.head?.map Char.isDigit).getD false = false := by
  cases token with
  | nil => rfl
  | cons c cs =>
    rw [Bool.eq_false_iff]
    intro digit
    cases letter.symm.trans (isDigit_toLower digit)

theorem Register.ofName?_eq_none {token : List Char} :
    ofName? (String.ofList token) = none ↔ ∀ r : Register, lower token ≠ r.name.toList := by
  rw [Option.eq_none_iff_forall_ne_some]
  exact forall_congr' fun _ => not_congr ofName?_eq_some

theorem SpecialValue.ofName?_eq_none {token : List Char} :
    ofName? (String.ofList token) = none ↔ ∀ v : SpecialValue, lower token ≠ v.name.toList := by
  rw [Option.eq_none_iff_forall_ne_some]
  exact forall_congr' fun _ => not_congr ofName?_eq_some

namespace Atom

/-- A token for an atom.  A name counts as a register or special value in any case, and otherwise it
refers to a symbol. -/
inductive Lexeme : List Char → Atom → Prop
  | literal {token : List Char} {w : Word} (value : IsLiteral token w) : Lexeme token (.literal w)
  | register {token : List Char} {r : Register} (named : lower token = r.name.toList) :
      Lexeme token (.register r)
  | special {token : List Char} {v : SpecialValue} (named : lower token = v.name.toList) :
      Lexeme token (.special v)
  | reference {token : List Char} (symbol : isSymbolName token = true)
      (noRegister : ∀ r : Register, lower token ≠ r.name.toList)
      (noSpecial : ∀ v : SpecialValue, lower token ≠ v.name.toList) :
      Lexeme token (.reference (String.ofList token))

variable {token : List Char} {atom : Atom}

theorem lexeme_of_read (unsigned : '+' ∉ token) (h : Atom.read token = .ok atom) :
    Lexeme token atom := by
  unfold Atom.read at h
  split at h
  · cases read : readLiteral token with
    | error e => simp [read, Except.map] at h
    | ok w =>
      simp only [read, Except.map, Except.ok.injEq] at h
      subst h
      exact .literal ((literalValue?_eq_some unsigned).mp (readLiteral_eq_ok.mp read))
  · dsimp only at h
    split at h
    · next r named =>
      cases h
      exact .register (Register.ofName?_eq_some.mp named)
    · next v _ named =>
      cases h
      exact .special (SpecialValue.ofName?_eq_some.mp named)
    · next noRegister noSpecial =>
      split at h
      · next symbol =>
        cases h
        exact .reference symbol (Register.ofName?_eq_none.mp noRegister)
          (SpecialValue.ofName?_eq_none.mp noSpecial)
      · cases h

theorem read_of_lexeme (unsigned : '+' ∉ token) (h : Lexeme token atom) :
    Atom.read token = .ok atom := by
  cases h with
  | literal value =>
    have read := readLiteral_eq_ok.mpr ((literalValue?_eq_some unsigned).mpr value)
    have digit : ((token.head?.map Char.isDigit).getD false) = true := by
      cases value with
      | hexadecimal => rfl
      | decimal nonempty value =>
        obtain ⟨c, cs, rfl⟩ := List.exists_cons_of_ne_nil nonempty
        exact Numeral.isDigit_of_digit?
          (Numeral.isSome_of_digitsFrom? value.digitsFrom? List.mem_cons_self)
    rw [Atom.read, if_pos digit, read]
    rfl
  | @register r named =>
    have head : ((token.head?.map Char.isDigit).getD false) = false := by
      refine isDigit_head_of_lower ?_
      rw [named]
      cases r <;> rfl
    simp [Atom.read, head, Register.ofName?_eq_some.mpr named]
  | @special v named =>
    have head : ((token.head?.map Char.isDigit).getD false) = false := by
      refine isDigit_head_of_lower ?_
      rw [named]
      cases v <;> rfl
    have noRegister : Register.ofName? (String.ofList token) = none := by
      rw [Register.ofName?_eq_none, named]
      intro r
      cases v <;> cases r <;> decide
    simp [Atom.read, head, noRegister, SpecialValue.ofName?_eq_some.mpr named]
  | reference symbol noRegister noSpecial =>
    have read : Atom.read (String.ofList token).toList = .ok (.reference (String.ofList token)) :=
      read_reference (by simpa using symbol) (Register.ofName?_eq_none.mpr noRegister)
        (SpecialValue.ofName?_eq_none.mpr noSpecial)
    rwa [String.toList_ofList] at read

end Atom

/-! ### Runs -/

/-- White space or a sign. -/
def isSpacer (c : Char) : Bool :=
  isBlank c || c = '+' || c = '-'

/-- The sign that a character is. -/
def Sign.ofChar? : Char → Option Sign
  | '+' => some .plus
  | '-' => some .minus
  | _ => none

/-- A run of characters, and the white space and signs in front of it. -/
structure Segment where
  gap : List Char
  run : List Char
  spacers : ∀ c ∈ gap, isSpacer c = true
  nonempty : run ≠ []
  items : ∀ c ∈ run, isSpacer c = false

/-- The last sign in front of the run. -/
def Segment.sign? (s : Segment) : Option Sign :=
  (s.gap.filterMap Sign.ofChar?).getLast?

/-- The text of runs with their gaps. -/
def Segment.join (segments : List Segment) : List Char :=
  segments.flatMap fun s => s.gap ++ s.run

/-- A text cut into its runs.  Behind the last one comes `rest`.  The runs are as long as can be,
since something else stands between any two of them. -/
structure IsCut (body : List Char) (segments : List Segment) (rest : List Char) : Prop where
  whole : body = Segment.join segments ++ rest
  apart : ∀ s ∈ segments.tail, s.gap ≠ []
  spacers : ∀ c ∈ rest, isSpacer c = true

theorem exists_isCut (body : List Char) : ∃ segments rest, IsCut body segments rest := by
  induction body with
  | nil => exact ⟨[], [], rfl, List.forall_mem_nil _, List.forall_mem_nil _⟩
  | cons c body ih =>
    obtain ⟨segments, rest, rfl, apart, spacers⟩ := ih
    cases spacer : isSpacer c with
    | true =>
      cases segments with
      | nil =>
        exact ⟨[], c :: rest, rfl, List.forall_mem_nil _,
          List.forall_mem_cons.mpr ⟨spacer, spacers⟩⟩
      | cons s segments =>
        let longer : Segment :=
          ⟨c :: s.gap, s.run, List.forall_mem_cons.mpr ⟨spacer, s.spacers⟩, s.nonempty, s.items⟩
        exact ⟨longer :: segments, rest, rfl, apart, spacers⟩
    | false =>
      -- The character joins the first run if nothing stands between them.
      by_cases touches : ∃ s ∈ segments.head?, s.gap = []
      · obtain ⟨s, head, empty⟩ := touches
        obtain ⟨segments, rfl⟩ := List.head?_eq_some_iff.mp head
        let longer : Segment :=
          ⟨[], c :: s.run, List.forall_mem_nil _, List.cons_ne_nil _ _,
            List.forall_mem_cons.mpr ⟨spacer, s.items⟩⟩
        refine ⟨longer :: segments, rest, ?_, apart, spacers⟩
        simp [Segment.join, longer, empty]
      · let first : Segment :=
          ⟨[], [c], List.forall_mem_nil _, List.cons_ne_nil _ _,
            List.forall_mem_singleton.mpr spacer⟩
        refine ⟨first :: segments, rest, rfl, fun s member => ?_, spacers⟩
        cases segments with
        | nil => cases member
        | cons next segments =>
          rcases List.mem_cons.mp member with rfl | later
          · exact fun empty => touches ⟨s, rfl, empty⟩
          · exact apart s later

namespace Piece

/-- The signs of a gap. -/
def signs (gap : List Char) : List Piece :=
  (gap.filterMap Sign.ofChar?).map sign

theorem ofSeparator_append_signs (c : Char) (gap : List Char) :
    ofSeparator c ++ signs gap = signs (c :: gap) := by
  unfold ofSeparator signs Sign.ofChar?
  by_cases plus : c = '+'
  · simp [plus]
  · by_cases minus : c = '-'
    · simp [minus]
    · simp [plus, minus]

section Gap

variable {gap : List Char} (separators : ∀ c ∈ gap, isSeparator c = true)
  (state : List Char × List Piece)
include separators

theorem foldr_step_gap : consRun (gap.foldr step state).1 (gap.foldr step state).2 =
    signs gap ++ consRun state.1 state.2 := by
  induction gap with
  | nil => rfl
  | cons c gap ih =>
    have here := separators c List.mem_cons_self
    have later := ih fun d member => separators d (List.mem_cons_of_mem c member)
    rw [List.foldr_cons, step, if_pos here, consRun_nil, later, ← List.append_assoc,
      ofSeparator_append_signs]

theorem fst_foldr_step_gap (nonempty : gap ≠ []) : (gap.foldr step state).1 = [] := by
  obtain ⟨c, gap, rfl⟩ := List.exists_cons_of_ne_nil nonempty
  rw [List.foldr_cons, step, if_pos (separators c List.mem_cons_self)]

end Gap

theorem isSeparator_of_isSpacer {c : Char} (spacer : isSpacer c = true) : isSeparator c = true := by
  rw [isSeparator, ← isSpacer, spacer, Bool.true_or]

theorem isSeparator_of_item {c : Char} (item : isSpacer c = false) (comment : c ≠ ';') :
    isSeparator c = false := by
  rw [isSeparator, ← isSpacer, item]
  simpa using comment

end Piece

/-- The pieces of runs with their gaps. -/
def Segment.pieces (segments : List Segment) : List Piece :=
  segments.flatMap fun s => Piece.signs s.gap ++ [.run s.run]

namespace Piece

variable {segments : List Segment} {rest : List Char}

/-- If something stands in front of the first run, no run has been begun there. -/
theorem fst_foldr_step_join (apart : ∀ s ∈ segments, s.gap ≠ [])
    (spacers : ∀ c ∈ rest, isSpacer c = true) :
    ((Segment.join segments ++ rest).foldr step ([], [])).1 = [] := by
  cases segments with
  | nil =>
    by_cases empty : rest = []
    · rw [empty]
      rfl
    · exact fst_foldr_step_gap (fun c member => isSeparator_of_isSpacer (spacers c member)) _ empty
  | cons s segments =>
    rw [Segment.join, List.flatMap_cons, List.append_assoc, List.append_assoc, List.foldr_append]
    exact fst_foldr_step_gap (fun c member => isSeparator_of_isSpacer (s.spacers c member)) _
      (apart s List.mem_cons_self)

theorem cut_join (comment : ∀ s ∈ segments, ';' ∉ s.run) (apart : ∀ s ∈ segments.tail, s.gap ≠ [])
    (spacers : ∀ c ∈ rest, isSpacer c = true) :
    cut (Segment.join segments ++ rest) = Segment.pieces segments ++ signs rest := by
  induction segments with
  | nil =>
    rw [cut]
    exact (foldr_step_gap (fun c member => isSeparator_of_isSpacer (spacers c member)) _).trans
      (List.append_nil _)
  | cons s segments ih =>
    have later := ih (fun s' member => comment s' (List.mem_cons_of_mem _ member))
      fun s' member => apart s' (List.mem_of_mem_tail member)
    rw [List.tail_cons] at apart
    have begun := fst_foldr_step_join apart spacers
    rw [cut] at later ⊢
    rw [begun, consRun_nil] at later
    have items (c : Char) (member : c ∈ s.run) : isSeparator c = false :=
      isSeparator_of_item (s.items c member) fun same =>
        comment s List.mem_cons_self (same ▸ member)
    have gap (c : Char) (member : c ∈ s.gap) : isSeparator c = true :=
      isSeparator_of_isSpacer (s.spacers c member)
    have whole : Segment.join (s :: segments) ++ rest =
        s.gap ++ (s.run ++ (Segment.join segments ++ rest)) := by
      simp [Segment.join]
    rw [whole, List.foldr_append, foldr_step_gap gap, List.foldr_append, foldr_step_run items,
      begun, List.append_nil, later]
    simp [consRun, s.nonempty, Segment.pieces]

end Piece

/-! ### Terms -/

namespace Expr

variable {isFirst : Bool} {sign left : Option Sign} {pieces : List Piece} {ts : List Term}

theorem readTerms_signs (isFirst : Bool) (sign : Option Sign) (gap : List Char)
    (pieces : List Piece) :
    readTerms isFirst sign (Piece.signs gap ++ pieces) =
      readTerms isFirst ((gap.filterMap Sign.ofChar?).getLast?.or sign) pieces := by
  unfold Piece.signs
  induction gap.filterMap Sign.ofChar? generalizing sign with
  | nil => rfl
  | cons s signs ih =>
    rw [List.map_cons, List.cons_append, readTerms, ih, List.getLast?_cons]
    cases signs.getLast? <;> rfl

/-- One run and the gap in front of it. -/
theorem readTerms_segment_eq_ok (s : Segment) :
    readTerms isFirst none (Piece.signs s.gap ++ .run s.run :: pieces) = .ok (ts, left) ↔
      (isFirst = true ∨ s.sign?.isSome) ∧ ∃ atom us, Atom.read s.run = .ok atom ∧
        readTerms false none pieces = .ok (us, left) ∧ ⟨s.sign?, atom⟩ :: us = ts := by
  rw [readTerms_signs, Option.or_none, ← Segment.sign?, readTerms_run_eq_ok]

theorem readTerms_join_eq_ok {segments : List Segment} {rest : List Char} :
    readTerms isFirst none (Segment.pieces segments ++ Piece.signs rest) = .ok (ts, left) ↔
      (isFirst = true ∨ ∀ s ∈ segments.head?, s.sign?.isSome) ∧
      (∀ s ∈ segments.tail, s.sign?.isSome) ∧
      List.Forall₂ (fun s t => s.sign? = t.sign ∧ Atom.read s.run = .ok t.atom) segments ts ∧
      (rest.filterMap Sign.ofChar?).getLast? = left := by
  induction segments generalizing isFirst ts with
  | nil =>
    have signs := readTerms_signs isFirst none rest []
    rw [List.append_nil, Option.or_none, readTerms] at signs
    rw [Segment.pieces, List.flatMap_nil, List.nil_append, signs, Except.ok.injEq, Prod.mk.injEq]
    constructor
    · rintro ⟨rfl, last⟩
      exact ⟨.inr (by simp), List.forall_mem_nil _, .nil, last⟩
    · rintro ⟨-, -, none, last⟩
      cases none
      exact ⟨rfl, last⟩
  | cons s segments ih =>
    have first : Segment.pieces (s :: segments) ++ Piece.signs rest =
        Piece.signs s.gap ++ .run s.run :: (Segment.pieces segments ++ Piece.signs rest) := by
      simp [Segment.pieces]
    have signed : (∀ s' ∈ segments, s'.sign?.isSome) ↔
        (∀ s' ∈ segments.head?, s'.sign?.isSome) ∧ ∀ s' ∈ segments.tail, s'.sign?.isSome := by
      cases segments <;> simp
    rw [first, readTerms_segment_eq_ok, List.tail_cons, signed]
    simp only [ih]
    constructor
    · rintro ⟨leads, atom, us, read, ⟨later, tail, terms, last⟩, rfl⟩
      exact ⟨leads.imp_right fun some s' head => Option.some.inj head ▸ some,
        ⟨later.resolve_left (by simp), tail⟩, .cons ⟨rfl, read⟩ terms, last⟩
    · rintro ⟨leads, ⟨later, tail⟩, terms, last⟩
      cases terms with
      | @cons _ t _ us head terms =>
        obtain ⟨sign, atom⟩ := t
        obtain ⟨rfl, read⟩ := head
        exact ⟨leads.imp_right fun some => some s rfl, atom, us, read,
          ⟨.inr later, tail, terms, last⟩, rfl⟩

end Expr

/-! ### Expressions -/

theorem getLast?_signs_eq_none {gap : List Char} :
    (gap.filterMap Sign.ofChar?).getLast? = none ↔ '+' ∉ gap ∧ '-' ∉ gap := by
  have other (c : Char) : Sign.ofChar? c = none ↔ c ≠ '+' ∧ c ≠ '-' := by
    unfold Sign.ofChar?
    split <;> simp_all
  rw [List.getLast?_eq_none_iff, List.filterMap_eq_nil_iff]
  constructor
  · intro h
    exact ⟨fun plus => ((other _).mp (h _ plus)).1 rfl,
      fun minus => ((other _).mp (h _ minus)).2 rfl⟩
  · rintro ⟨plus, minus⟩ c member
    exact (other c).mpr ⟨fun same => plus (same ▸ member), fun same => minus (same ▸ member)⟩

namespace Segment

theorem isSome_sign? {s : Segment} : s.sign?.isSome ↔ '+' ∈ s.gap ∨ '-' ∈ s.gap := by
  rw [Option.isSome_iff_ne_none, Ne, sign?, getLast?_signs_eq_none]
  tauto

theorem read_run_eq_ok {s : Segment} {atom : Atom} :
    Atom.read s.run = .ok atom ↔ Atom.Lexeme s.run atom := by
  have unsigned : '+' ∉ s.run := fun member => by cases s.items _ member
  exact ⟨Atom.lexeme_of_read unsigned, Atom.read_of_lexeme unsigned⟩

end Segment

namespace Expr

/-- How an expression is written.  `inner` is the text between the brackets, if there are any, and
`segments` are its runs, one for each term. -/
structure Derivation (text : List Char) (e : Expr) (inner : List Char) (segments : List Segment)
    (rest : List Char) : Prop where
  brackets : trim text = bracket e.indirect inner
  opens : '[' ∉ inner
  closes : ']' ∉ inner
  nonempty : trim inner ≠ []
  brace : (trim inner).head? ≠ some '\x7b'
  cut : IsCut (trim inner) segments rest
  runs : segments ≠ []
  signed : ∀ s ∈ segments.tail, '+' ∈ s.gap ∨ '-' ∈ s.gap
  complete : '+' ∉ rest ∧ '-' ∉ rest
  terms : List.Forall₂ (fun s t => Atom.Lexeme s.run t.atom ∧ t.sign = s.sign?) segments e.terms
  bases : (e.terms.filter fun t => t.atom.isBase).length ≤ 1

variable {text body rest : List Char} {segments : List Segment} {ts : List Term}

theorem readTerms_cut_eq_ok (comment : ';' ∉ body) (cut : IsCut body segments rest) :
    readTerms true none (Piece.cut body) = .ok (ts, none) ↔
      (∀ s ∈ segments.tail, '+' ∈ s.gap ∨ '-' ∈ s.gap) ∧
      List.Forall₂ (fun s t => Atom.Lexeme s.run t.atom ∧ t.sign = s.sign?) segments ts ∧
      '+' ∉ rest ∧ '-' ∉ rest := by
  have noComment : ∀ s ∈ segments, ';' ∉ s.run := by
    intro s listed member
    apply comment
    rw [cut.whole]
    exact List.mem_append_left _ (List.mem_flatMap.mpr ⟨s, listed, List.mem_append_right _ member⟩)
  rw [cut.whole, Piece.cut_join noComment cut.apart cut.spacers, readTerms_join_eq_ok,
    getLast?_signs_eq_none]
  simp only [Segment.isSome_sign?, Segment.read_run_eq_ok, true_or, true_and]
  have each : List.Forall₂ (fun s t => s.sign? = t.sign ∧ Atom.Lexeme s.run t.atom) segments ts ↔
      List.Forall₂ (fun s t => Atom.Lexeme s.run t.atom ∧ t.sign = s.sign?) segments ts :=
    ⟨fun h => h.imp fun _ _ both => ⟨both.2, both.1.symm⟩,
      fun h => h.imp fun _ _ both => ⟨both.2.symm, both.1⟩⟩
  rw [each]

/-- Text that does not end with a blank has a run, or a sign behind all runs. -/
theorem segments_ne_nil {inner : List Char} (nonempty : trim inner ≠ [])
    (cut : IsCut (trim inner) segments rest) (complete : '+' ∉ rest ∧ '-' ∉ rest) :
    segments ≠ [] := by
  rintro rfl
  have whole : trim inner = rest := cut.whole
  obtain ⟨c, last⟩ := Option.ne_none_iff_exists'.mp (mt List.getLast?_eq_none_iff.mp nonempty)
  have blank := last_trim inner c last
  have member : c ∈ rest := whole ▸ List.mem_of_getLast? last
  have spacer : c = '+' ∨ c = '-' := by simpa [isSpacer, blank] using cut.spacers c member
  rcases spacer with rfl | rfl
  · exact complete.1 member
  · exact complete.2 member

/-- A text without a comment is read as an expression exactly if the expression is written so. -/
theorem parse_eq_ok_iff_derivation (comment : ';' ∉ text) (e : Expr) :
    parse text = .ok e ↔ ∃ inner segments rest, Derivation text e inner segments rest := by
  have noComment {inner : List Char} (outer : trim text = bracket e.indirect inner) :
      ';' ∉ trim inner := by
    rwa [← mem_body outer (by decide) (by decide) (by decide)]
  rw [parse_eq_ok]
  constructor
  · rintro ⟨inner, outer, opens, closes, nonempty, brace, read, bases⟩
    obtain ⟨segments, rest, cut⟩ := exists_isCut (trim inner)
    obtain ⟨signed, terms, complete⟩ := (readTerms_cut_eq_ok (noComment outer) cut).mp read
    exact ⟨inner, segments, rest, outer, opens, closes, nonempty, brace, cut,
      segments_ne_nil nonempty cut complete, signed, complete, terms, bases⟩
  · rintro ⟨inner, segments, rest, h⟩
    have read := (readTerms_cut_eq_ok (noComment h.brackets) h.cut).mpr
      ⟨h.signed, h.terms, h.complete⟩
    exact ⟨inner, h.brackets, h.opens, h.closes, h.nonempty, h.brace, read, h.bases⟩

/-- Signs pile up in front of a term, white space is of any kind, and names are in any case. -/
theorem parse_eq_ok_iff_derivation_mixed :
    let text := " [\t+-0X00fF\u3000--+ _end.x\n- Sp ]\n".toList
    let e : Expr := ⟨[⟨some .minus, .literal 0xFF⟩, ⟨some .plus, .reference "_end.x"⟩,
      ⟨some .minus, .special .sp⟩], true⟩
    ';' ∉ text ∧ parse text = .ok e ∧
      (∃ inner segments rest, Derivation text e inner segments rest) ∧
      ¬ ∃ e' inner segments rest, Derivation "[1 + 2 3]".toList e' inner segments rest := by
  intro text e
  have comment : ';' ∉ text := by decide
  have read : parse text = .ok e := by decide
  refine ⟨comment, read, (parse_eq_ok_iff_derivation comment e).mp read, ?_⟩
  rintro ⟨e', written⟩
  have read' := (parse_eq_ok_iff_derivation (by decide) e').mpr written
  have refused : parse "[1 + 2 3]".toList = .error (.missingOperator "3") := by decide
  cases refused.symm.trans read'

end Expr

end Dcpu16
