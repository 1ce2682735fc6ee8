import Dcpu16.Proofs.Numerals
import Dcpu16.Source.Statement
import Mathlib.Data.List.Basic
import Mathlib.Data.List.DropRight
import Mathlib.Data.List.TakeWhile

/-! Reading operands and instructions.  An operand expression that is written as a chain of signed
tokens, with or without brackets around it, is read as those terms.  A mnemonic, a blank and
operands with commas between them are read as an instruction. -/

namespace Dcpu16

open Text

/-! ### Trimming -/

namespace Text

theorem trimStart_of_head {cs : List Char} (head : ∀ c ∈ cs.head?, isBlank c = false) :
    trimStart cs = cs := by
  cases cs with
  | nil => rfl
  | cons c cs => simp [trimStart, head c rfl]

/-- Text that neither starts nor ends with a blank is trimmed already. -/
theorem trim_of_ends {cs : List Char} (head : ∀ c ∈ cs.head?, isBlank c = false)
    (last : ∀ c ∈ cs.getLast?, isBlank c = false) : trim cs = cs := by
  rw [trim, trimStart_of_head head, trimStart_of_head (by simpa using last), List.reverse_reverse]

theorem trim_append {before : List Char} (blank : ∀ c ∈ before, isBlank c = true)
    (cs : List Char) : trim (before ++ cs) = trim cs := by
  have front : trimStart (before ++ cs) = trimStart cs := List.dropWhile_append_of_pos blank
  rw [trim, front, ← trim]

theorem trim_cons_blank {c : Char} (blank : isBlank c = true) (cs : List Char) :
    trim (c :: cs) = trim cs :=
  trim_append (List.forall_mem_singleton.mpr blank) cs

theorem trim_eq_rdropWhile (cs : List Char) : trim cs = (trimStart cs).rdropWhile isBlank := rfl

theorem last_trim (cs : List Char) : ∀ c ∈ (trim cs).getLast?, isBlank c = false := by
  intro c last
  rw [trim_eq_rdropWhile] at last
  obtain ⟨nonempty, rfl⟩ := List.mem_getLast?_eq_getLast last
  simpa using List.rdropWhile_last_not isBlank (trimStart cs) nonempty

theorem trim_sublist (cs : List Char) : (trim cs).Sublist cs :=
  (List.rdropWhile_prefix isBlank (trimStart cs)).sublist.trans (List.dropWhile_sublist isBlank)

theorem mem_of_mem_trim {cs : List Char} {c : Char} (member : c ∈ trim cs) : c ∈ cs :=
  (trim_sublist cs).subset member

/-- Only white space is trimmed. -/
theorem mem_trim {cs : List Char} {c : Char} (member : c ∈ cs) (item : isBlank c = false) :
    c ∈ trim cs := by
  have kept {ds : List Char} (member : c ∈ ds) : c ∈ trimStart ds := by
    rw [← List.takeWhile_append_dropWhile (p := isBlank) (l := ds), List.mem_append] at member
    refine member.resolve_left fun front => ?_
    cases item.symm.trans (List.mem_takeWhile_imp front)
  rw [trim, List.mem_reverse]
  exact kept (List.mem_reverse.mpr (kept member))

/-- White space around a text is trimmed, and nothing of the text. -/
theorem trim_pad {before core after : List Char} (blank : ∀ c ∈ before, isBlank c = true)
    (blank' : ∀ c ∈ after, isBlank c = true) (nonempty : core ≠ [])
    (head : ∀ c ∈ core.head?, isBlank c = false) (last : ∀ c ∈ core.getLast?, isBlank c = false) :
    trim (before ++ (core ++ after)) = core := by
  have front : trimStart (core ++ after) = core ++ after := by
    apply trimStart_of_head
    rwa [List.head?_append_of_ne_nil _ nonempty]
  have back : trimStart (core ++ after).reverse = core.reverse := by
    rw [List.reverse_append, trimStart, List.dropWhile_append_of_pos (by simpa using blank')]
    apply trimStart_of_head
    simpa using last
  rw [trim_append blank, trim, front, back, List.reverse_reverse]

theorem dropHead?_eq_some {c : Char} {cs rest : List Char} :
    dropHead? c cs = some rest ↔ cs = c :: rest := by
  cases cs with
  | nil => simp [dropHead?]
  | cons d cs =>
    rw [dropHead?]
    split
    · next same => simp [same]
    · next other => simp [other]

theorem dropLast?_eq_some {c : Char} {cs front : List Char} :
    dropLast? c cs = some front ↔ cs = front ++ [c] := by
  unfold dropLast?
  split
  · next last =>
    rw [Option.some.injEq]
    constructor
    · rintro rfl
      exact (List.dropLast_append_getLast? _ last).symm
    · rintro rfl
      exact List.dropLast_concat
  · next other =>
    refine iff_of_false (by simp) ?_
    rintro rfl
    exact other List.getLast?_concat

theorem cutAt_append {c : Char} {front : List Char} (absent : c ∉ front) (rest : List Char) :
    cutAt c (front ++ c :: rest) = (front, rest) := by
  have other : ∀ d ∈ front, (d != c) = true := by
    intro d member
    rw [bne_iff_ne]
    rintro rfl
    exact absent member
  rw [cutAt, List.takeWhile_append_of_pos other, List.dropWhile_append_of_pos other]
  simp

end Text

/-! ### Tokens -/

/-- A character that can stand in a token: a letter, a digit, or one of `_`, `.` and `$`. -/
def isTokenChar (c : Char) : Bool :=
  isSymbolHead c || c.isDigit

/-- A token is not empty, and none of its characters ends it. -/
structure IsToken (token : List Char) : Prop where
  nonempty : token ≠ []
  chars : ∀ c ∈ token, isTokenChar c = true

section TokenChar

variable {c : Char}

theorem isTokenChar_iff :
    isTokenChar c = true ↔ (((((65 ≤ c.toNat ∧ c.toNat ≤ 90) ∨ (97 ≤ c.toNat ∧ c.toNat ≤ 122)) ∨
      c = '_') ∨ c = '.') ∨ c = '$') ∨ 48 ≤ c.toNat ∧ c.toNat ≤ 57 := by
  unfold isTokenChar isSymbolHead Char.isAlpha Char.isUpper Char.isLower Char.isDigit
  simp only [Bool.or_eq_true, Bool.and_eq_true, decide_eq_true_eq, UInt32.le_iff_toNat_le,
    ge_iff_le]
  rfl

theorem toNat_of_isDigit (h : c.isDigit = true) : 48 ≤ c.toNat ∧ c.toNat ≤ 57 := by
  simpa [Char.isDigit, UInt32.le_iff_toNat_le] using h

theorem isBlank_of_isTokenChar (h : isTokenChar c = true) : isBlank c = false := by
  have range : 36 ≤ c.toNat ∧ c.toNat ≤ 122 := by
    rcases isTokenChar_iff.mp h with ((((h | h) | rfl) | rfl) | rfl) | h
    · omega
    · omega
    · decide
    · decide
    · decide
    · omega
  simp only [isBlank, blankRanges, List.any_cons, List.any_nil, Bool.or_false, Bool.or_eq_false_iff,
    Bool.and_eq_false_iff, decide_eq_false_iff_not]
  omega

theorem ne_of_isTokenChar {d : Char} (h : isTokenChar c = true) (other : isTokenChar d = false) :
    c ≠ d := by
  rintro rfl
  exact absurd (h.symm.trans other) (by decide)

theorem isSeparator_of_isTokenChar (h : isTokenChar c = true) : Piece.isSeparator c = false := by
  simp [Piece.isSeparator, isBlank_of_isTokenChar h, ne_of_isTokenChar h (d := '+') rfl,
    ne_of_isTokenChar h (d := '-') rfl, ne_of_isTokenChar h (d := ';') rfl]

theorem isTokenChar_of_hexValue? (h : (Numeral.hexValue? c).isSome) : isTokenChar c = true := by
  unfold Numeral.hexValue? at h
  rw [isTokenChar_iff]
  split at h
  · next digit =>
    change 48 ≤ c.toNat ∧ c.toNat ≤ 57 at digit
    omega
  split at h
  · next lower =>
    change 97 ≤ c.toNat ∧ c.toNat ≤ 102 at lower
    omega
  split at h
  · next upper =>
    change 65 ≤ c.toNat ∧ c.toNat ≤ 70 at upper
    omega
  · cases h

end TokenChar

theorem IsToken.of_all {token : List Char} (nonempty : token ≠ [])
    (all : token.all isTokenChar = true) : IsToken token :=
  ⟨nonempty, List.all_eq_true.mp all⟩

theorem IsToken.not_mem {token : List Char} (h : IsToken token) {c : Char}
    (other : isTokenChar c = false) : c ∉ token :=
  fun member => ne_of_isTokenChar (h.chars c member) other rfl

theorem isToken_of_digitsFrom? {base n m : Nat} {cs : List Char} (nonempty : cs ≠ [])
    (h : Numeral.digitsFrom? base n cs = some m) : IsToken cs :=
  ⟨nonempty, fun _ member =>
    isTokenChar_of_hexValue? (Numeral.hexValue?_of_digit? (Numeral.isSome_of_digitsFrom? h member))⟩

/-! ### Chains of terms -/

/-- The character for a sign. -/
def Sign.char : Sign → Char
  | plus => '+'
  | minus => '-'

namespace Piece

@[simp] theorem consRun_nil (pieces : List Piece) : consRun [] pieces = pieces := rfl

theorem consRun_token {token : List Char} (h : IsToken token) (pieces : List Piece) :
    consRun token pieces = run token :: pieces := by
  simp [consRun, h.nonempty]

theorem foldr_step_run {run : List Char} (items : ∀ c ∈ run, isSeparator c = false)
    (state : List Char × List Piece) : run.foldr step state = (run ++ state.1, state.2) := by
  induction run with
  | nil => rfl
  | cons c run ih =>
    rw [List.foldr_cons, ih fun d member => items d (by simp [member])]
    simp [step, items c List.mem_cons_self]

@[simp] theorem step_blank (token : List Char) (pieces : List Piece) :
    step ' ' (token, pieces) = ([], consRun token pieces) := by
  simp [step, ofSeparator, show isSeparator ' ' = true by decide]

@[simp] theorem step_sign (s : Sign) (token : List Char) (pieces : List Piece) :
    step s.char (token, pieces) = ([], sign s :: consRun token pieces) := by
  cases s with
  | plus => simp [Sign.char, step, ofSeparator, show isSeparator '+' = true by decide]
  | minus => simp [Sign.char, step, ofSeparator, show isSeparator '-' = true by decide]

end Piece

/-- The sign in front of the first term. -/
def Term.leadingSign (t : Term) : List Char :=
  (t.sign.map Sign.char).toList

/-- The sign between a term and the one before it. -/
def Term.innerSign (t : Term) : List Char :=
  [' ', (t.sign.getD .plus).char, ' ']

namespace Expr

/-- The text of the terms after the first, if `spell` is the text of each atom. -/
def textAfter (spell : Atom → List Char) (ts : List Term) : List Char :=
  ts.flatMap fun t => t.innerSign ++ spell t.atom

/-- The text of a chain of terms. -/
def text (spell : Atom → List Char) : List Term → List Char
  | [] => []
  | t :: ts => t.leadingSign ++ (spell t.atom ++ textAfter spell ts)

/-- The pieces of a chain of terms. -/
def pieces (spell : Atom → List Char) (ts : List Term) : List Piece :=
  ts.flatMap fun t => (t.sign.map Piece.sign).toList ++ [.run (spell t.atom)]

/-- Text in brackets, where `indirect` asks for them. -/
def bracket (indirect : Bool) (body : List Char) : List Char :=
  if indirect then '[' :: (body ++ [']']) else body

/-- A token that is read as a given atom. -/
structure Spells (token : List Char) (atom : Atom) : Prop where
  isToken : IsToken token
  read : Atom.read token = .ok atom

/-- A chain of terms that can be read: all but the first have a sign, one at most is a base, and
`spell` gives each atom a token that is read as it. -/
structure IsChain (spell : Atom → List Char) (ts : List Term) : Prop where
  nonempty : ts ≠ []
  signed : ∀ t ∈ ts.tail, t.sign.isSome
  bases : (ts.filter fun t => t.atom.isBase).length ≤ 1
  spells : ∀ t ∈ ts, Spells (spell t.atom) t.atom

variable {spell : Atom → List Char} {t : Term} {ts : List Term}

theorem IsChain.tokens (h : IsChain spell ts) : ∀ t ∈ ts, IsToken (spell t.atom) :=
  fun t member => (h.spells t member).isToken

@[simp] theorem textAfter_cons :
    textAfter spell (t :: ts) = t.innerSign ++ (spell t.atom ++ textAfter spell ts) := by
  simp [textAfter]

@[simp] theorem pieces_cons : pieces spell (t :: ts) =
    (t.sign.map Piece.sign).toList ++ .run (spell t.atom) :: pieces spell ts := by
  simp [pieces]

theorem foldr_step_token {token rest : List Char} (h : IsToken token) :
    (token ++ rest).foldr Piece.step ([], []) =
      (token ++ (rest.foldr Piece.step ([], [])).1, (rest.foldr Piece.step ([], [])).2) := by
  rw [List.foldr_append]
  exact Piece.foldr_step_run (fun c member => isSeparator_of_isTokenChar (h.chars c member)) _

/-- The pieces behind the first term. -/
theorem foldr_step_textAfter (tokens : ∀ t ∈ ts, IsToken (spell t.atom))
    (signed : ∀ t ∈ ts, t.sign.isSome) :
    (textAfter spell ts).foldr Piece.step ([], []) = ([], pieces spell ts) := by
  induction ts with
  | nil => rfl
  | cons t ts ih =>
    have token := tokens t (by simp)
    obtain ⟨sign, hSign⟩ := Option.isSome_iff_exists.mp (signed t (by simp))
    have rest := ih (fun t member => tokens t (by simp [member]))
      fun t member => signed t (by simp [member])
    rw [textAfter_cons, List.foldr_append, foldr_step_token token, rest, Term.innerSign]
    simp [hSign, Piece.consRun_token token]

theorem cut_text (tokens : ∀ u ∈ t :: ts, IsToken (spell u.atom))
    (signed : ∀ u ∈ ts, u.sign.isSome) :
    Piece.cut (text spell (t :: ts)) = pieces spell (t :: ts) := by
  have token := tokens t (by simp)
  have rest := foldr_step_textAfter (fun u member => tokens u (by simp [member])) signed
  rw [Piece.cut, text, List.foldr_append, foldr_step_token token, rest, Term.leadingSign,
    pieces_cons]
  cases t.sign <;> simp [Piece.consRun_token token]

/-! ### Reading terms -/

/-- One run: only the first may lack a sign. -/
theorem readTerms_run_eq_ok {isFirst : Bool} {sign left : Option Sign} {token : List Char}
    {rest : List Piece} :
    readTerms isFirst sign (.run token :: rest) = .ok (ts, left) ↔
      (isFirst = true ∨ sign.isSome) ∧ ∃ atom us, Atom.read token = .ok atom ∧
        readTerms false none rest = .ok (us, left) ∧ ⟨sign, atom⟩ :: us = ts := by
  rw [readTerms]
  split
  · next unsigned =>
    refine iff_of_false (by simp) fun h => ?_
    simp_all
  · next signed =>
    have leads : isFirst = true ∨ sign.isSome := by
      cases isFirst <;> cases sign <;> simp_all
    cases Atom.read token with
    | error e => simp [bind, Except.bind]
    | ok atom =>
      cases readTerms false none rest with
      | error e => simp [bind, Except.bind]
      | ok result =>
        simp only [bind, Except.bind, pure, Except.pure, leads, true_and, Except.ok.injEq]
        grind

/-- One term: only the first may lack a sign. -/
theorem readTerms_term {isFirst : Bool} (leads : isFirst = true ∨ t.sign.isSome)
    (read : Atom.read (spell t.atom) = .ok t.atom) (rest : List Piece) :
    readTerms isFirst none ((t.sign.map Piece.sign).toList ++ .run (spell t.atom) :: rest) =
      (readTerms false none rest).map fun r => (t :: r.1, r.2) := by
  obtain ⟨sign, atom⟩ := t
  cases sign with
  | none =>
    obtain rfl : isFirst = true := by simpa using leads
    simp only [Option.map_none, Option.toList_none, List.nil_append, readTerms, read]
    cases readTerms false none rest <;> rfl
  | some s =>
    simp only [Option.map_some, Option.toList_some, List.cons_append, List.nil_append, readTerms,
      read]
    cases readTerms false none rest <;> rfl

theorem readTerms_pieces {isFirst : Bool} (spells : ∀ u ∈ ts, Spells (spell u.atom) u.atom)
    (leads : isFirst = true ∨ ∀ u ∈ ts.head?, u.sign.isSome)
    (signed : ∀ u ∈ ts.tail, u.sign.isSome) :
    readTerms isFirst none (pieces spell ts) = .ok (ts, none) := by
  induction ts generalizing isFirst with
  | nil => rfl
  | cons t ts ih =>
    have rest : readTerms false none (pieces spell ts) = .ok (ts, none) :=
      ih (fun u member => spells u (by simp [member]))
        (.inr fun u head => signed u (List.mem_of_mem_head? head))
        fun u member => signed u (List.mem_of_mem_tail member)
    rw [pieces_cons, readTerms_term (leads.imp_right fun h => h t rfl) (spells t (by simp)).read,
      rest]
    rfl

/-! ### Atoms -/

theorem spells_register (r : Register) : Spells r.name.toList (.register r) := by
  cases r <;> exact ⟨.of_all (by decide) rfl, rfl⟩

theorem spells_special (v : SpecialValue) : Spells v.name.toList (.special v) := by
  cases v <;> exact ⟨.of_all (by decide) rfl, rfl⟩

/-- A token of digits whose value is a word. -/
theorem read_literal {c : Char} {cs : List Char} {w : Word} (digit : c.isDigit = true)
    (value : (match Numeral.afterHexMark? (c :: cs) with
      | some digits => Numeral.readNat? 16 digits
      | none => Numeral.readNat? 10 (c :: cs)) = some w.toNat) :
    Atom.read (c :: cs) = .ok (.literal w) := by
  have fits : (some w.toNat).filter (fun n => decide (n < 0x10000)) = some w.toNat :=
    Option.filter_some_pos (decide_eq_true w.toNat_lt)
  rw [Atom.read, if_pos (by simpa using digit), readLiteral]
  cases mark : Numeral.afterHexMark? (c :: cs) <;>
    (simp only [mark] at value
     simp only [value, fits, UInt16.ofNat_toNat, Except.map])

/-- Hexadecimal digits after their mark. -/
theorem spells_hex {digits : List Char} {w : Word} (nonempty : digits ≠ [])
    (h : Numeral.digitsFrom? 16 0 digits = some w.toNat) :
    Spells ('0' :: 'x' :: digits) (.literal w) := by
  obtain ⟨-, chars⟩ := isToken_of_digitsFrom? nonempty h
  refine ⟨⟨by simp, fun c member => ?_⟩, ?_⟩
  · rcases List.mem_cons.mp member with rfl | member
    · decide
    rcases List.mem_cons.mp member with rfl | member
    · decide
    · exact chars c member
  · have value := Numeral.readNat?_of_digits? (Numeral.digits?_of_digitsFrom? nonempty h)
    exact read_literal rfl (by simpa [Numeral.afterHexMark?] using value)

/-- Decimal digits. -/
theorem spells_decimal {digits : List Char} {w : Word} (nonempty : digits ≠ [])
    (h : Numeral.digitsFrom? 10 0 digits = some w.toNat) : Spells digits (.literal w) := by
  refine ⟨isToken_of_digitsFrom? nonempty h, ?_⟩
  have value := Numeral.readNat?_of_digits? (Numeral.digits?_of_digitsFrom? nonempty h)
  have unmarked := Numeral.afterHexMark?_of_digitsFrom? h
  obtain ⟨c, cs, rfl⟩ := List.exists_cons_of_ne_nil nonempty
  have digit := Numeral.isDigit_of_digit? (Numeral.isSome_of_digitsFrom? h List.mem_cons_self)
  exact read_literal digit (by simpa [unmarked] using value)

/-! ### Whole operands -/

/-- A character of a chain of terms. -/
def isChainChar (c : Char) : Bool :=
  isTokenChar c || c = ' ' || c = '+' || c = '-'

theorem isChainChar_sign (s : Sign) : isChainChar s.char = true := by
  cases s <;> decide

theorem isChainChar_text (tokens : ∀ u ∈ ts, IsToken (spell u.atom)) :
    ∀ c ∈ text spell ts, isChainChar c = true := by
  have token {u : Term} (inside : u ∈ ts) : ∀ c ∈ spell u.atom, isChainChar c = true :=
    fun c member => by simp [isChainChar, (tokens u inside).chars c member]
  intro c member
  cases ts with
  | nil => cases member
  | cons t ts =>
    rcases List.mem_append.mp member with sign | member
    · obtain ⟨s, -, rfl⟩ := Option.map_eq_some_iff.mp (Option.mem_toList.mp sign)
      exact isChainChar_sign s
    rcases List.mem_append.mp member with first | later
    · exact token (by simp) c first
    obtain ⟨u, inside, part⟩ := List.mem_flatMap.mp later
    rcases List.mem_append.mp part with sign | spelled
    · have plain : c = ' ' ∨ c = (u.sign.getD .plus).char := by
        unfold Term.innerSign at sign
        grind
      rcases plain with rfl | rfl
      · decide
      · exact isChainChar_sign _
    · exact token (by simp [inside]) c spelled

/-- A chain starts with a sign or a token. -/
theorem head_text (tokens : ∀ u ∈ ts, IsToken (spell u.atom)) :
    ∀ c ∈ (text spell ts).head?, isTokenChar c = true ∨ ∃ s : Sign, c = s.char := by
  intro c head
  cases ts with
  | nil => cases head
  | cons t ts =>
    obtain ⟨nonempty, chars⟩ := tokens t (by simp)
    rw [text, Term.leadingSign] at head
    cases sign : t.sign with
    | some s =>
      rw [sign] at head
      exact .inr ⟨s, (Option.some.inj head).symm⟩
    | none =>
      rw [sign, Option.map_none, Option.toList_none, List.nil_append,
        List.head?_append_of_ne_nil _ nonempty] at head
      exact .inl (chars c (List.mem_of_mem_head? head))

theorem last_append_textAfter {token : List Char} (first : IsToken token) (front : List Char)
    (tokens : ∀ u ∈ ts, IsToken (spell u.atom)) :
    ∀ c ∈ (front ++ (token ++ textAfter spell ts)).getLast?, isTokenChar c = true := by
  induction ts generalizing front token with
  | nil =>
    intro c last
    rw [textAfter, List.flatMap_nil, List.append_nil,
      List.getLast?_append_of_ne_nil _ first.nonempty] at last
    exact first.chars c (List.mem_of_getLast? last)
  | cons t ts ih =>
    have rest := ih (tokens t (by simp)) (front ++ (token ++ t.innerSign))
      fun u member => tokens u (by simp [member])
    simpa using rest

/-- A chain ends with a token. -/
theorem last_text (tokens : ∀ u ∈ ts, IsToken (spell u.atom)) :
    ∀ c ∈ (text spell ts).getLast?, isTokenChar c = true := by
  cases ts with
  | nil => simp [text]
  | cons t ts =>
    have later : ∀ u ∈ ts, IsToken (spell u.atom) := fun u member => tokens u (by simp [member])
    exact last_append_textAfter (tokens t (by simp)) t.leadingSign later

theorem text_ne_nil (h : IsChain spell ts) : text spell ts ≠ [] := by
  cases ts with
  | nil => exact absurd rfl h.nonempty
  | cons t ts => simp [text, (h.tokens t (by simp)).nonempty]

/-- Brackets and braces are not among the characters of a chain. -/
theorem not_mem_text (h : IsChain spell ts) {c : Char} (other : isChainChar c = false) :
    c ∉ text spell ts := by
  intro member
  cases (isChainChar_text h.tokens c member).symm.trans other

theorem unbracket?_bracket {body : List Char} (head : body.head? ≠ some '[')
    (last : body.getLast? ≠ some ']') (indirect : Bool) :
    unbracket? (bracket indirect body) = some (body, indirect) := by
  cases indirect with
  | true => simp [bracket, unbracket?, dropLast?]
  | false =>
    rw [bracket, if_neg (by decide)]
    unfold unbracket?
    split
    · exact absurd rfl head
    · rw [if_neg last]

/-- With brackets or without, a text neither starts nor ends with a blank if what is inside does
neither. -/
theorem ends_bracket {body : List Char} (head : ∀ c ∈ body.head?, isBlank c = false)
    (last : ∀ c ∈ body.getLast?, isBlank c = false) (indirect : Bool) :
    (∀ c ∈ (bracket indirect body).head?, isBlank c = false) ∧
      ∀ c ∈ (bracket indirect body).getLast?, isBlank c = false := by
  cases indirect with
  | true =>
    rw [bracket, if_pos rfl, ← List.cons_append, List.getLast?_concat]
    constructor
    · rintro c ⟨⟩
      decide
    · rintro c ⟨⟩
      decide
  | false => exact ⟨head, last⟩

/-- An operand neither starts nor ends with a blank. -/
theorem bracket_ends (h : IsChain spell ts) (indirect : Bool) :
    (∀ c ∈ (bracket indirect (text spell ts)).head?, isBlank c = false) ∧
      ∀ c ∈ (bracket indirect (text spell ts)).getLast?, isBlank c = false := by
  refine ends_bracket ?_ ?_ indirect
  · intro c head
    rcases head_text h.tokens c head with token | ⟨s, rfl⟩
    · exact isBlank_of_isTokenChar token
    · cases s <;> decide
  · intro c last
    exact isBlank_of_isTokenChar (last_text h.tokens c last)

theorem bracket_ne_nil (h : IsChain spell ts) (indirect : Bool) :
    bracket indirect (text spell ts) ≠ [] := by
  cases indirect with
  | true => simp [bracket]
  | false => exact text_ne_nil h

theorem not_mem_bracket (h : IsChain spell ts) {indirect : Bool} {c : Char}
    (other : isChainChar c = false) (opens : c ≠ '[') (closes : c ≠ ']') :
    c ∉ bracket indirect (text spell ts) := by
  have inside := not_mem_text h other
  cases indirect with
  | true => simp [bracket, inside, opens, closes]
  | false => exact inside

theorem bracket_of_unbracket? {cs inner : List Char} {indirect : Bool}
    (h : unbracket? cs = some (inner, indirect)) : cs = bracket indirect inner := by
  unfold unbracket? at h
  split at h
  · next rest =>
    obtain ⟨inner', closed, ends⟩ := Option.map_eq_some_iff.mp h
    cases ends
    rw [bracket, if_pos rfl, dropLast?_eq_some.mp closed]
  · split at h
    · cases h
    · cases h
      rfl

theorem parseBody_eq_ok {whole body : List Char} {indirect : Bool} {e : Expr} :
    parseBody whole body indirect = .ok e ↔
      e.indirect = indirect ∧ body ≠ [] ∧ body.head? ≠ some '\x7b' ∧
        readTerms true none (Piece.cut body) = .ok (e.terms, none) ∧
        (e.terms.filter fun t => t.atom.isBase).length ≤ 1 := by
  unfold parseBody
  constructor
  · intro h
    split at h
    · cases h
    next brace =>
    split at h
    · cases h
    next nonempty =>
    cases read : readTerms true none (Piece.cut body) with
    | error stop => simp [read, bind, Except.bind] at h
    | ok result =>
      obtain ⟨ts, left⟩ := result
      simp only [read, bind, Except.bind] at h
      split at h
      · cases h
      next complete =>
      split at h
      · cases h
      next bases =>
      cases h
      obtain rfl : left = none := by simpa using complete
      exact ⟨rfl, by simpa using nonempty, brace, rfl, Nat.le_of_not_lt bases⟩
  · rintro ⟨rfl, nonempty, brace, read, bases⟩
    rw [if_neg brace, if_neg (by simpa using nonempty), read]
    simp only [bind, Except.bind, Option.isSome_none, Bool.false_eq_true, if_false]
    rw [if_neg (by omega)]
    rfl

/-- What an expression is read from: the text between its brackets, cut into pieces. -/
theorem parse_eq_ok {text : List Char} {e : Expr} : parse text = .ok e ↔ ∃ inner,
    trim text = bracket e.indirect inner ∧ '[' ∉ inner ∧ ']' ∉ inner ∧ trim inner ≠ [] ∧
      (trim inner).head? ≠ some '\x7b' ∧
      readTerms true none (Piece.cut (trim inner)) = .ok (e.terms, none) ∧
      (e.terms.filter fun t => t.atom.isBase).length ≤ 1 := by
  have bracketed (inner : List Char) : (inner.any fun c => c = '[' || c = ']') = false ↔
      '[' ∉ inner ∧ ']' ∉ inner := by
    simp only [List.any_eq_false, Bool.or_eq_true, decide_eq_true_eq]
    constructor
    · intro h
      exact ⟨fun opens => h _ opens (.inl rfl), fun closes => h _ closes (.inr rfl)⟩
    · rintro ⟨opens, closes⟩ c member (rfl | rfl)
      · exact opens member
      · exact closes member
  constructor
  · intro h
    unfold parse at h
    dsimp only at h
    split at h
    · cases h
    split at h
    · cases h
    next inner indirect unbracketed =>
    split at h
    · cases h
    next free =>
    obtain ⟨rfl, body⟩ := parseBody_eq_ok.mp h
    obtain ⟨opens, closes⟩ := (bracketed inner).mp (by simpa using free)
    exact ⟨inner, bracket_of_unbracket? unbracketed, opens, closes, body⟩
  · rintro ⟨inner, outer, opens, closes, body⟩
    have unbracketed : unbracket? (trim text) = some (inner, e.indirect) := by
      rw [outer]
      exact unbracket?_bracket (fun head => opens (List.mem_of_mem_head? head))
        (fun last => closes (List.mem_of_getLast? last)) e.indirect
    have filled : (trim text).isEmpty = false := by
      rw [List.isEmpty_eq_false_iff]
      intro empty
      -- Nothing is between the brackets, if nothing is there.
      have : inner = [] := by cases indirect : e.indirect <;> simp_all [bracket]
      exact body.1 (by rw [this]; rfl)
    simp only [parse, filled, unbracketed, (bracketed inner).mpr ⟨opens, closes⟩,
      Bool.false_eq_true, if_false]
    exact parseBody_eq_ok.mpr ⟨rfl, body⟩

/-- A text without blanks at its ends is read in brackets and without them. -/
theorem parse_bracket_of_readTerms {body : List Char}
    (head : ∀ c ∈ body.head?, isBlank c = false) (last : ∀ c ∈ body.getLast?, isBlank c = false)
    (nonempty : body ≠ []) (opens : '[' ∉ body) (closes : ']' ∉ body) (brace : '\x7b' ∉ body)
    (read : readTerms true none (Piece.cut body) = .ok (ts, none))
    (bases : (ts.filter fun t => t.atom.isBase).length ≤ 1) (indirect : Bool) :
    parse (bracket indirect body) = .ok ⟨ts, indirect⟩ := by
  obtain ⟨head', last'⟩ := ends_bracket head last indirect
  refine parse_eq_ok.mpr ⟨body, trim_of_ends head' last', opens, closes, ?_⟩
  rw [trim_of_ends head last]
  exact ⟨nonempty, fun found => brace (List.mem_of_mem_head? found), read, bases⟩

/-- A chain of terms, with or without brackets, is read as its terms. -/
theorem parse_bracket (h : IsChain spell ts) (indirect : Bool) :
    parse (bracket indirect (text spell ts)) = .ok ⟨ts, indirect⟩ := by
  obtain ⟨head, last⟩ := bracket_ends h false
  have read : readTerms true none (Piece.cut (text spell ts)) = .ok (ts, none) := by
    obtain ⟨t, ts, rfl⟩ := List.exists_cons_of_ne_nil h.nonempty
    rw [cut_text h.tokens h.signed, readTerms_pieces h.spells (.inl rfl) h.signed]
  exact parse_bracket_of_readTerms head last (text_ne_nil h) (not_mem_text h rfl)
    (not_mem_text h rfl) (not_mem_text h rfl) read h.bases indirect

end Expr

/-! ### Instructions -/

namespace Opcode

theorem isToken_name (op : Opcode) : IsToken op.name.toList := by
  cases op with
  | basic op => cases op <;> exact .of_all (by decide) rfl
  | extended op => cases op <;> exact .of_all (by decide) rfl

theorem ofName?_name (op : Opcode) : ofName? op.name = some op := by
  cases op with
  | basic op => cases op <;> rfl
  | extended op => cases op <;> rfl

end Opcode

/-- A token has no colon, so it is no label. -/
theorem Label.ofToken?_of_isToken {token : List Char} (h : IsToken token) :
    ofToken? token = none := by
  have colon : ':' ∉ token := h.not_mem rfl
  have first : dropHead? ':' token = none := by
    rw [Option.eq_none_iff_forall_ne_some]
    intro name inFront
    exact colon (by simp [dropHead?_eq_some.mp inFront])
  have last : dropLast? ':' token = none := by
    rw [Option.eq_none_iff_forall_ne_some]
    intro name behind
    exact colon (by simp [dropLast?_eq_some.mp behind])
  simp [ofToken?, first, last]

/-- An operation and its operands on a line without a label. -/
theorem Statement.parse_instruction {op : Opcode} {rest : List Char} {operands : List Expr}
    (nonempty : rest ≠ []) (head : ∀ c ∈ rest.head?, isBlank c = false)
    (last : ∀ c ∈ rest.getLast?, isBlank c = false)
    (read : Body.readOperands op rest = .ok (.instruction op operands)) :
    parse (op.name.toList ++ ' ' :: rest) = .ok ⟨none, .instruction op operands⟩ := by
  obtain ⟨named, chars⟩ := op.isToken_name
  have trimmed : trim (op.name.toList ++ ' ' :: rest) = op.name.toList ++ ' ' :: rest := by
    refine trim_of_ends (fun c first => ?_) fun c final => ?_
    · rw [List.head?_append_of_ne_nil _ named] at first
      exact isBlank_of_isTokenChar (chars c (List.mem_of_mem_head? first))
    · rw [List.append_cons, List.getLast?_append_of_ne_nil _ nonempty] at final
      exact last c final
  have token : ' ' ∉ op.name.toList := op.isToken_name.not_mem rfl
  have cut : firstToken (op.name.toList ++ ' ' :: rest) = (op.name.toList, rest) := by
    rw [firstToken, cutAt_append token]
    exact congrArg (Prod.mk _) (trim_of_ends head last)
  have body : Body.read op.name.toList rest = .ok (.instruction op operands) := by
    simp only [Body.read, String.ofList_toList, op.ofName?_name, read]
  simp [parse, trimmed, cut, Label.ofToken?_of_isToken op.isToken_name, body, Except.map]

namespace Body

theorem readOperands_one {op : ExtendedOp} {s : List Char} {source : Expr} (nonempty : s ≠ [])
    (whole : ',' ∉ s) (read : Expr.parse s = .ok source) :
    readOperands (.extended op) s = .ok (.instruction (.extended op) [source]) := by
  rw [readOperands, if_neg (by simpa using nonempty), List.splitOn_eq_singleton whole]
  simp only [List.mapM_cons, List.mapM_nil, read]
  rfl

theorem readOperands_two {op : BasicOp} {d s : List Char} {destination source : Expr}
    (whole : ',' ∉ d) (whole' : ',' ∉ s) (first : Expr.parse d = .ok destination)
    (second : Expr.parse s = .ok source) :
    readOperands (.basic op) (d ++ ',' :: ' ' :: s) =
      .ok (.instruction (.basic op) [destination, source]) := by
  have parts : (d ++ ',' :: ' ' :: s).splitOn ',' = [d, ' ' :: s] := by
    have inFront : ∀ c ∈ d, (c == ',') = false := by
      intro c member
      rw [beq_eq_false_iff_ne]
      rintro rfl
      exact whole member
    rw [List.splitOn, List.splitOnP_append_cons_of_forall_mem inFront ',' rfl, ← List.splitOn,
      List.splitOn_eq_singleton (by simp [whole'])]
  have blank : Expr.parse (' ' :: s) = .ok source := by
    rw [Expr.parse, trim_cons_blank (by decide), ← Expr.parse, second]
  rw [readOperands, if_neg (by simp), parts]
  simp only [List.mapM_cons, List.mapM_nil, first, blank]
  rfl

end Body

/-! ### Lines that have been read -/

/-- A text and the body that is read from it: no text, or a first token that is no label and the
rest. -/
inductive Body.ReadFrom : List Char → Body → Prop
  | nothing : ReadFrom [] .empty
  | something {text token rest : List Char} {body : Body} (nonempty : text ≠ [])
      (cut : Statement.firstToken text = (token, rest)) (unlabelled : Label.ofToken? token = none)
      (read : Body.read token rest = .ok body) : ReadFrom text body

namespace Statement

variable {line text token rest : List Char} {s : Statement}

theorem readFrom_of_read (nonempty : text ≠ []) (cut : firstToken text = (token, rest))
    (unlabelled : Label.ofToken? token = none) {label : Option Label}
    (h : (Body.read token rest).map (fun body => ⟨label, body⟩) = .ok s) :
    s.label = label ∧ Body.ReadFrom text s.body := by
  cases read : Body.read token rest with
  | error e => simp [read, Except.map] at h
  | ok body =>
    simp only [read, Except.map, Except.ok.injEq] at h
    subst h
    exact ⟨rfl, .something nonempty cut unlabelled read⟩

theorem readFrom_of_parseLabelled {label : Label} (h : parseLabelled label text = .ok s) :
    s.label = some label ∧ Body.ReadFrom text s.body := by
  unfold parseLabelled at h
  split at h
  · next none =>
    cases h
    obtain rfl : text = [] := by simpa using none
    exact ⟨rfl, .nothing⟩
  next nonempty =>
  cases cut : firstToken text with
  | mk token rest =>
    simp only [cut] at h
    split at h
    · cases h
    · next unlabelled => exact readFrom_of_read (by simpa using nonempty) cut unlabelled h

/-- A statement has been read from a whole line, or from what stands behind a label that is not
reserved. -/
theorem readFrom_of_parse (h : parse line = .ok s) :
    (s.label = none ∧ Body.ReadFrom (trim line) s.body) ∨
      ∃ token rest label, firstToken (trim line) = (token, rest) ∧
        Label.ofToken? token = some label ∧ label.isReserved = false ∧ s.label = some label ∧
        Body.ReadFrom rest s.body := by
  unfold parse at h
  dsimp only at h
  split at h
  · next none =>
    cases h
    have empty : trim line = [] := by simpa using none
    rw [empty]
    exact .inl ⟨rfl, .nothing⟩
  next nonempty =>
  cases cut : firstToken (trim line) with
  | mk token rest =>
    simp only [cut] at h
    split at h
    · next label found =>
      split at h
      · cases h
      next free =>
      exact .inr ⟨token, rest, label, rfl, found, by simpa using free,
        readFrom_of_parseLabelled h⟩
    · next unlabelled => exact .inl (readFrom_of_read (by simpa using nonempty) cut unlabelled h)

end Statement

end Dcpu16
