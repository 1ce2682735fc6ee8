import Dcpu16.Proofs.Reading

/-! Operand expressions that have been read can be written, and read again.  An expression that was
read is a chain of terms, and each of its atoms is spelled by its own text. -/

namespace Dcpu16

open Text

/-! ### Names in any case -/

theorem isTokenChar_of_toLower {c : Char} (h : isTokenChar c.toLower = true) :
    isTokenChar c = true := by
  unfold Char.toLower at h
  split at h
  · next upper => exact isTokenChar_iff.mpr (.inl (.inl (.inl (.inl (.inl upper)))))
  · exact h

theorem isToken_of_isNamed {name : String} {token : List Char} (named : IsToken name.toList)
    (h : isNamed name (String.ofList token) = true) : IsToken token := by
  have same : token.map Char.toLower = name.toList := by simpa [isNamed, lower] using h
  refine ⟨?_, fun c member => isTokenChar_of_toLower (named.chars _ ?_)⟩
  · rintro rfl
    exact named.nonempty same.symm
  · exact same ▸ List.mem_map_of_mem member

theorem Register.isToken_of_ofName? {token : List Char} {r : Register}
    (h : ofName? (String.ofList token) = some r) : IsToken token := by
  have named := List.find?_some h
  exact isToken_of_isNamed (Expr.spells_register r).isToken named

theorem SpecialValue.isToken_of_ofName? {token : List Char} {v : SpecialValue}
    (h : ofName? (String.ofList token) = some v) : IsToken token := by
  have named := List.find?_some h
  exact isToken_of_isNamed (Expr.spells_special v).isToken named

/-! ### Atoms -/

theorem isToken_of_isSymbolName {token : List Char} (h : isSymbolName token = true) :
    IsToken token := by
  cases token with
  | nil => cases h
  | cons c cs =>
    simp only [isSymbolName, Bool.and_eq_true, List.all_eq_true] at h
    refine ⟨by simp, fun d member => ?_⟩
    rcases List.mem_cons.mp member with rfl | later
    · simp [isTokenChar, h.1]
    · exact h.2 d later

theorem isDigit_of_isSymbolHead {c : Char} (h : isSymbolHead c = true) : c.isDigit = false := by
  rw [Bool.eq_false_iff]
  intro digit
  have range := toNat_of_isDigit digit
  simp only [isSymbolHead, Bool.or_eq_true, decide_eq_true_eq] at h
  rcases h with ((letter | rfl) | rfl) | rfl
  · have range' : (65 ≤ c.toNat ∧ c.toNat ≤ 90) ∨ (97 ≤ c.toNat ∧ c.toNat ≤ 122) := by
      unfold Char.isAlpha Char.isUpper Char.isLower at letter
      simpa [UInt32.le_iff_toNat_le] using letter
    omega
  all_goals exact absurd range (by decide)

/-- A name that a term can refer to: it is spelled as a symbol, and not as a register or a special
value. -/
def Atom.IsLegal : Atom → Prop
  | .reference name => isSymbolName name.toList = true ∧ Register.ofName? name = none ∧
      SpecialValue.ofName? name = none
  | _ => True

namespace Atom

/-- The text of an atom. -/
def spelling (atom : Atom) : List Char := atom.render.toList

theorem read_reference {name : String} (symbol : isSymbolName name.toList = true)
    (noRegister : Register.ofName? name = none) (noSpecial : SpecialValue.ofName? name = none) :
    Atom.read name.toList = .ok (.reference name) := by
  have head : ((name.toList.head?.map Char.isDigit).getD false) = false := by
    cases chars : name.toList with
    | nil => rfl
    | cons c cs =>
      simp only [chars, isSymbolName, Bool.and_eq_true] at symbol
      exact isDigit_of_isSymbolHead symbol.1
  simp [Atom.read, head, noRegister, noSpecial, symbol]

theorem spells_spelling {atom : Atom} (legal : atom.IsLegal) :
    Expr.Spells atom.spelling atom := by
  cases atom with
  | literal value =>
    have text : spelling (.literal value) = '0' :: 'x' :: (Numeral.hex value.toNat).toList := by
      simp [spelling, render]
    rw [text]
    exact Expr.spells_hex (Numeral.hex_ne_nil _) (Numeral.digitsFrom?_hex _)
  | register r => exact Expr.spells_register r
  | special v => exact Expr.spells_special v
  | reference name =>
    obtain ⟨symbol, noRegister, noSpecial⟩ := legal
    exact ⟨isToken_of_isSymbolName symbol, read_reference symbol noRegister noSpecial⟩

/-- The characters of a literal are digits, perhaps with a sign. -/
theorem chars_of_readNat? {base n : Nat} {cs : List Char} (h : Numeral.readNat? base cs = some n) :
    ∀ c ∈ cs, isTokenChar c = true ∨ c = '+' := by
  have digits {ds : List Char} (h : Numeral.digits? base ds = some n) :
      ∀ c ∈ ds, isTokenChar c = true := by
    unfold Numeral.digits? at h
    split at h
    · cases h
    · next nonempty => exact (isToken_of_digitsFrom? (by simpa using nonempty) h).chars
  unfold Numeral.readNat? at h
  split at h
  · intro c member
    rcases List.mem_cons.mp member with rfl | later
    · exact .inr rfl
    · exact .inl (digits h c later)
  · exact fun c member => .inl (digits h c member)

theorem chars_of_readLiteral {token : List Char} {w : Word} (h : readLiteral token = .ok w) :
    ∀ c ∈ token, isTokenChar c = true ∨ c = '+' := by
  unfold readLiteral at h
  cases mark : Numeral.afterHexMark? token with
  | none =>
    simp only [mark] at h
    split at h
    · next value => exact chars_of_readNat? (Option.filter_eq_some_iff.mp value).1
    · cases h
  | some digits =>
    simp only [mark] at h
    split at h
    · next value =>
      have chars := chars_of_readNat? (Option.filter_eq_some_iff.mp value).1
      have spelled : token = '0' :: 'x' :: digits ∨ token = '0' :: 'X' :: digits := by
        unfold Numeral.afterHexMark? at mark
        split at mark <;> simp_all
      intro c member
      have cases : c = '0' ∨ c = 'x' ∨ c = 'X' ∨ c ∈ digits := by
        rcases spelled with rfl | rfl <;> simp_all <;> tauto
      rcases cases with rfl | rfl | rfl | inside
      · exact .inl rfl
      · exact .inl rfl
      · exact .inl rfl
      · exact chars c inside
    · cases h

/-- An atom that was read is legal, and its token has no other characters than tokens have. -/
theorem read_eq_ok {token : List Char} {atom : Atom} (h : Atom.read token = .ok atom) :
    atom.IsLegal ∧ ∀ c ∈ token, isTokenChar c = true ∨ c = '+' := by
  unfold Atom.read at h
  split at h
  · cases literal : readLiteral token with
    | error e => simp [literal, Except.map] at h
    | ok w =>
      simp only [literal, Except.map, Except.ok.injEq] at h
      subst h
      exact ⟨trivial, chars_of_readLiteral literal⟩
  · dsimp only at h
    split at h
    · next r named =>
      cases h
      exact ⟨trivial, fun c member => .inl ((Register.isToken_of_ofName? named).chars c member)⟩
    · next v _ named =>
      cases h
      exact ⟨trivial, fun c member => .inl ((SpecialValue.isToken_of_ofName? named).chars c member)⟩
    · next noRegister noSpecial =>
      split at h
      · next symbol =>
        cases h
        exact ⟨⟨by simpa using symbol, noRegister, noSpecial⟩,
          fun c member => .inl ((isToken_of_isSymbolName symbol).chars c member)⟩
      · cases h

end Atom

/-! ### Pieces -/

namespace Piece

/-- The characters of a piece. -/
def chars : Piece → List Char
  | sign s => [s.char]
  | run token => token

/-- Cutting a text loses its white space and semicolons, and nothing else. -/
theorem flatMap_chars_cut (body : List Char) :
    (cut body).flatMap chars = body.filter fun c => !(isBlank c || c = ';') := by
  have chars_consRun (token : List Char) (pieces : List Piece) :
      (consRun token pieces).flatMap chars = token ++ pieces.flatMap chars := by
    cases token <;> rfl
  rw [cut, chars_consRun]
  induction body with
  | nil => rfl
  | cons c body ih =>
    rw [List.foldr_cons, step]
    split
    · next separates =>
      rw [List.nil_append, List.flatMap_append, chars_consRun, ih]
      by_cases plus : c = '+'
      · subst plus
        rfl
      by_cases minus : c = '-'
      · subst minus
        rfl
      -- The other separators are lost.
      have lost : (isBlank c || c = ';') = true := by
        simpa [isSeparator, plus, minus] using separates
      rw [List.filter_cons, lost]
      simp [ofSeparator, plus, minus]
    · next item =>
      have kept : (isBlank c || c = ';') = false := by
        simp [isSeparator] at item
        simp [item]
      rw [List.cons_append, ih, List.filter_cons, kept]
      rfl

theorem mem_cut {body : List Char} {c : Char} (member : c ∈ body) (blank : isBlank c = false)
    (comment : c ≠ ';') : ∃ piece ∈ cut body, c ∈ piece.chars := by
  rw [← List.mem_flatMap, flatMap_chars_cut, List.mem_filter]
  exact ⟨member, by simp [blank, comment]⟩

end Piece

namespace Expr

variable {text body : List Char} {e : Expr} {ts : List Term}

/-- Terms that have been read: all but the first are signed, and their atoms are legal.  Every run
has been read, and without a run there is nothing or a sign left over. -/
structure TermsRead (isFirst : Bool) (sign : Option Sign) (pieces : List Piece) (ts : List Term)
    (left : Option Sign) : Prop where
  legal : ∀ t ∈ ts, t.atom.IsLegal
  leads : isFirst = true ∨ ∀ t ∈ ts.head?, t.sign.isSome
  signed : ∀ t ∈ ts.tail, t.sign.isSome
  runs : ∀ token, .run token ∈ pieces → ∃ atom, Atom.read token = .ok atom
  empty : ts = [] → left = none → sign = none ∧ pieces = []

theorem termsRead_of_readTerms {isFirst : Bool} {sign left : Option Sign} {pieces : List Piece}
    (h : readTerms isFirst sign pieces = .ok (ts, left)) :
    TermsRead isFirst sign pieces ts left := by
  induction pieces generalizing isFirst sign ts with
  | nil =>
    obtain ⟨rfl, rfl⟩ := Prod.mk.inj (Except.ok.inj h)
    exact ⟨by simp, by simp, by simp, by simp, fun _ none => ⟨none, rfl⟩⟩
  | cons piece pieces ih =>
    cases piece with
    | sign s =>
      have rest := ih h
      exact ⟨rest.legal, rest.leads, rest.signed,
        fun token member => rest.runs token (by simpa using member),
        fun none unsigned => absurd (rest.empty none unsigned).1 (Option.some_ne_none s)⟩
    | run token =>
      obtain ⟨signed, atom, us, read, later, rfl⟩ := readTerms_run_eq_ok.mp h
      have rest := ih later
      refine ⟨fun t member => ?_, signed.imp_right fun some t head => ?_, fun t member => ?_,
        fun token' member => ?_, fun isNil => absurd isNil (List.cons_ne_nil _ _)⟩
      · rcases List.mem_cons.mp member with rfl | inRest
        · exact (Atom.read_eq_ok read).1
        · exact rest.legal t inRest
      · obtain rfl := Option.some.inj head
        exact some
      · -- Behind a run the next term needs a sign, and so do those after it.
        have heads := rest.leads.resolve_left (by simp)
        cases us with
        | nil => cases member
        | cons u us =>
          rcases List.mem_cons.mp member with rfl | inTail
          · exact heads t rfl
          · exact rest.signed t inTail
      · rcases List.mem_cons.mp member with same | inRest
        · cases same
          exact ⟨atom, read⟩
        · exact rest.runs token' inRest

/-! ### Whole operands -/

/-- The characters of an operand, white space and brackets apart, are those of its body. -/
theorem mem_body {inner : List Char} {indirect : Bool} (outer : trim text = bracket indirect inner)
    {c : Char} (blank : isBlank c = false) (opens : c ≠ '[') (closes : c ≠ ']') :
    c ∈ text ↔ c ∈ trim inner := by
  have inside : c ∈ bracket indirect inner ↔ c ∈ inner := by
    cases indirect <;> simp [bracket, opens, closes]
  calc
    c ∈ text ↔ c ∈ trim text := ⟨fun h => mem_trim h blank, mem_of_mem_trim⟩
    _ ↔ c ∈ inner := by rw [outer, inside]
    _ ↔ c ∈ trim inner := ⟨fun h => mem_trim h blank, mem_of_mem_trim⟩

/-- There is no quote in an operand that can be read. -/
theorem quote_not_mem_of_parse (h : parse text = .ok e) : '"' ∉ text := by
  obtain ⟨inner, outer, -, -, -, -, read, -⟩ := parse_eq_ok.mp h
  rw [mem_body outer (by decide) (by decide) (by decide)]
  intro member
  obtain ⟨piece, listed, inside⟩ := Piece.mem_cut member (by decide) (by decide)
  cases piece with
  | sign s => cases s <;> simp [Piece.chars, Sign.char] at inside
  | run token =>
    obtain ⟨atom, hAtom⟩ := (termsRead_of_readTerms read).runs token listed
    exact absurd ((Atom.read_eq_ok hAtom).2 _ inside) (by decide)

/-- An expression that has been read from a text without a comment is a chain of terms. -/
theorem isChain_of_parse (h : parse text = .ok e) (comment : ';' ∉ text) :
    IsChain Atom.spelling e.terms := by
  obtain ⟨inner, outer, -, -, nonempty, -, read, bases⟩ := parse_eq_ok.mp h
  have terms := termsRead_of_readTerms read
  refine ⟨fun none => ?_, terms.signed, bases,
    fun t member => Atom.spells_spelling (terms.legal t member)⟩
  -- The last character of the body is in some piece, so there is a term or a sign left over.
  obtain ⟨c, last⟩ := Option.ne_none_iff_exists'.mp (mt List.getLast?_eq_none_iff.mp nonempty)
  have blank := last_trim inner c last
  have member := List.mem_of_getLast? last
  have other : c ≠ ';' := by
    rintro rfl
    exact comment ((mem_body outer blank (by decide) (by decide)).mpr member)
  obtain ⟨piece, listed, -⟩ := Piece.mem_cut member blank other
  rw [(terms.empty none rfl).2] at listed
  cases listed

theorem toList_renderTerms (ts : List Term) :
    (renderTerms ts).toList = Expr.text Atom.spelling ts := by
  have next (t : Term) : t.renderNext.toList = t.innerSign ++ t.atom.spelling := by
    obtain ⟨sign, atom⟩ := t
    rcases sign with _ | _ | _ <;>
      simp [Term.renderNext, Term.isNegative, Term.innerSign, Sign.char, Atom.spelling]
  have later (ts : List Term) :
      (String.join (ts.map Term.renderNext)).toList = textAfter Atom.spelling ts := by
    induction ts with
    | nil => simp [textAfter]
    | cons t ts ih =>
      rw [List.map_cons, String.join_cons, String.toList_append, ih, next, textAfter_cons,
        List.append_assoc]
  cases ts with
  | nil => rfl
  | cons t ts =>
    have first : t.renderFirst.toList = t.leadingSign ++ t.atom.spelling := by
      obtain ⟨sign, atom⟩ := t
      rcases sign with _ | _ | _ <;>
        simp [Term.renderFirst, Term.leadingSign, Sign.char, Atom.spelling]
    rw [renderTerms, String.toList_append, first, later, Expr.text, List.append_assoc]

theorem toList_render (e : Expr) :
    e.render.toList = bracket e.indirect (Expr.text Atom.spelling e.terms) := by
  unfold render bracket
  split <;> simp [toList_renderTerms]

/-- What was read can be written and read again. -/
theorem parse_render (h : IsChain Atom.spelling e.terms) : parse e.render.toList = .ok e := by
  rw [toList_render]
  exact parse_bracket h e.indirect

/-- Writing an expression is undone by reading it, if the expression has terms with signs between
them, no two bases, and names of symbols that are not taken for a register or special value. -/
theorem parse_render_of_legal (nonempty : e.terms ≠ [])
    (signed : ∀ t ∈ e.terms.tail, t.sign.isSome)
    (bases : (e.terms.filter fun t => t.atom.isBase).length ≤ 1)
    (legal : ∀ t ∈ e.terms, t.atom.IsLegal) : parse e.render.toList = .ok e := by
  have spells : ∀ t ∈ e.terms, Spells t.atom.spelling t.atom :=
    fun t member => Atom.spells_spelling (legal t member)
  exact parse_render ⟨nonempty, signed, bases, spells⟩

/-- A name with dots and dollars, a register between literals, and a sign in front of all. -/
theorem parse_render_of_legal_four_terms :
    let e : Expr := ⟨[⟨some .minus, .reference "a.s$$x0"⟩, ⟨some .plus, .literal 0⟩,
      ⟨some .minus, .register .i⟩, ⟨some .minus, .literal 0xFFFF⟩], true⟩
    e.terms ≠ [] ∧ (∀ t ∈ e.terms.tail, t.sign.isSome) ∧
      (e.terms.filter fun t => t.atom.isBase).length ≤ 1 ∧ (∀ t ∈ e.terms, t.atom.IsLegal) ∧
      e.render = "[-a.s$$x0 + 0x0 - i - 0xffff]" ∧ parse e.render.toList = .ok e := by
  intro e
  have nonempty : e.terms ≠ [] := by decide
  have signed : ∀ t ∈ e.terms.tail, t.sign.isSome := by decide
  have bases : (e.terms.filter fun t => t.atom.isBase).length ≤ 1 := by decide
  have legal : ∀ t ∈ e.terms, t.atom.IsLegal := by
    simp only [e, Atom.IsLegal, List.forall_mem_cons, List.not_mem_nil, false_implies, implies_true,
      and_true]
    decide
  exact ⟨nonempty, signed, bases, legal, by decide,
    parse_render_of_legal nonempty signed bases legal⟩

end Expr

end Dcpu16
