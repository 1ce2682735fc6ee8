import Dcpu16.Proofs.Printing
import Dcpu16.Proofs.Runs
import Dcpu16.Proofs.Tidying

/-! A statement that has been read from a line can be written, and the line that is written is read
as the same statement.  The one exception is an unknown directive with white space in it, which only
an open quote makes possible. -/

namespace Dcpu16

open Text

theorem isPlain_of_isTokenChar {c : Char} (h : isTokenChar c = true) : isPlain c = true :=
  isPlain_iff.mpr ⟨isBlank_of_isTokenChar h, ne_of_isTokenChar h rfl, ne_of_isTokenChar h rfl⟩

theorem IsToken.plain {token : List Char} (h : IsToken token) : ∀ c ∈ token, isPlain c = true :=
  fun c member => isPlain_of_isTokenChar (h.chars c member)

/-! ### Operands are tidy -/

namespace Expr

variable {spell : Atom → List Char} {ts : List Term} {rest : List Char} {d e : Expr}

theorem isPlain_sign (s : Sign) : isPlain s.char = true := by
  cases s <;> decide

theorem isTidyFrom_textAfter (tokens : ∀ t ∈ ts, IsToken (spell t.atom)) :
    IsTidyFrom .item (textAfter spell ts ++ rest) ↔ IsTidyFrom .item rest := by
  induction ts with
  | nil => rfl
  | cons t ts ih =>
    have token := tokens t (by simp)
    have sign : ∀ c ∈ [(t.sign.getD .plus).char], isPlain c = true := by
      simpa using isPlain_sign _
    have unfolded : textAfter spell (t :: ts) ++ rest =
        ' ' :: ([(t.sign.getD .plus).char] ++
          ' ' :: (spell t.atom ++ (textAfter spell ts ++ rest))) := by
      simp [Term.innerSign]
    rw [unfolded, isTidyFrom_blank_append sign (by simp),
      isTidyFrom_blank_append token.plain token.nonempty,
      ih fun u member => tokens u (by simp [member])]

/-- A first item, the other terms behind blanks, and perhaps a bracket. -/
theorem isTidyFrom_bracket (h : IsChain spell ts) (indirect : Bool) :
    IsTidyFrom .start (bracket indirect (text spell ts) ++ rest) ↔ IsTidyFrom .item rest := by
  obtain ⟨t, ts, rfl⟩ := List.exists_cons_of_ne_nil h.nonempty
  have token := h.tokens t (by simp)
  have tokens : ∀ u ∈ ts, IsToken (spell u.atom) := fun u member => h.tokens u (by simp [member])
  have first : ∀ c ∈ t.leadingSign ++ spell t.atom, isPlain c = true := by
    intro c member
    rcases List.mem_append.mp member with sign | inToken
    · obtain ⟨s, -, rfl⟩ := Option.map_eq_some_iff.mp (Option.mem_toList.mp sign)
      exact isPlain_sign s
    · exact token.plain c inToken
  cases indirect with
  | false =>
    rw [bracket, if_neg (by decide), text, ← List.append_assoc, List.append_assoc,
      isTidyFrom_start_append first (by simp [token.nonempty]), isTidyFrom_textAfter tokens]
  | true =>
    have opened : ∀ c ∈ '[' :: (t.leadingSign ++ spell t.atom), isPlain c = true := by
      intro c member
      rcases List.mem_cons.mp member with rfl | later
      · decide
      · exact first c later
    have unfolded : bracket true (text spell (t :: ts)) ++ rest =
        '[' :: (t.leadingSign ++ spell t.atom) ++ (textAfter spell ts ++ ']' :: rest) := by
      simp [bracket, text]
    rw [unfolded, isTidyFrom_start_append opened (by simp), isTidyFrom_textAfter tokens,
      isTidyFrom_plain_cons (by decide)]

theorem render_ne_nil (h : IsChain Atom.spelling e.terms) : e.render.toList ≠ [] := by
  rw [toList_render]
  exact bracket_ne_nil h e.indirect

theorem comma_not_mem_render (h : IsChain Atom.spelling e.terms) : ',' ∉ e.render.toList := by
  rw [toList_render]
  exact not_mem_bracket h rfl (by decide) (by decide)

theorem isLine_render (h : IsChain Atom.spelling e.terms) : IsLine e.render.toList := by
  rw [toList_render]
  refine ⟨?_, (bracket_ends h e.indirect).2⟩
  rw [← List.append_nil (bracket _ _), isTidyFrom_bracket h]
  simp [IsTidyFrom]

/-- Two operands, with a comma and a blank between them. -/
theorem isLine_render_two (hd : IsChain Atom.spelling d.terms)
    (hs : IsChain Atom.spelling e.terms) :
    IsLine (d.render.toList ++ ',' :: ' ' :: e.render.toList) := by
  have source := isLine_render hs
  have nonempty := render_ne_nil hs
  constructor
  · rw [toList_render d, isTidyFrom_bracket hd, isTidyFrom_plain_cons (by decide),
      isTidyFrom_item_blank]
    exact ⟨nonempty, source.tidy⟩
  · rw [List.append_cons, List.append_cons, List.getLast?_append_of_ne_nil _ nonempty]
    exact source.last

end Expr

/-! ### The first token of a line -/

namespace Statement

/-- A token and the rest of its line, with a blank between them if there is a rest. -/
def spaced (token rest : List Char) : List Char :=
  if rest.isEmpty then token else token ++ ' ' :: rest

variable {text token rest : List Char}

theorem spaced_of_ne_nil (h : rest ≠ []) : spaced token rest = token ++ ' ' :: rest :=
  if_neg (by simpa using h)

theorem firstToken_whole (blank : ' ' ∉ text) : firstToken text = (text, []) := by
  have other : ∀ c ∈ text, (c != ' ') = true := by
    intro c member
    rw [bne_iff_ne]
    rintro rfl
    exact blank member
  rw [firstToken, cutAt, List.takeWhile_eq_self_iff.mpr other, List.dropWhile_eq_nil_iff.mpr other]
  rfl

theorem firstToken_append (blank : ' ' ∉ token) :
    firstToken (token ++ ' ' :: rest) = (token, trim rest) := by
  rw [firstToken, cutAt_append blank]

theorem firstToken_spaced (blank : ' ' ∉ token) (line : IsLine rest) :
    firstToken (spaced token rest) = (token, rest) := by
  by_cases none : rest = []
  · subst none
    exact firstToken_whole blank
  · rw [spaced_of_ne_nil none, firstToken_append blank, line.trim]

theorem isLine_spaced (plain : ∀ c ∈ token, isPlain c = true) (nonempty : token ≠ [])
    (line : IsLine rest) : IsLine (spaced token rest) := by
  by_cases none : rest = []
  · subst none
    exact isLine_of_plain plain
  · rw [spaced_of_ne_nil none, isLine_append_blank plain nonempty]
    exact ⟨none, line⟩

/-- A text is its first token, or that token, a blank and a rest. -/
theorem firstToken_cases (text : List Char) :
    ' ' ∉ text ∧ firstToken text = (text, []) ∨
      ∃ token rest, text = token ++ ' ' :: rest ∧ ' ' ∉ token ∧
        firstToken text = (token, trim rest) := by
  by_cases blank : ' ' ∈ text
  · obtain ⟨token, rest, rfl, absent⟩ := List.eq_append_cons_of_mem blank
    exact .inr ⟨token, rest, rfl, absent, firstToken_append absent⟩
  · exact .inl ⟨blank, firstToken_whole blank⟩

/-- Behind a first token without a quote, the rest of a line is a line. -/
theorem isLine_rest (line : IsLine text) (cut : firstToken text = (token, rest))
    (plain : ∀ c ∈ token, isPlain c = true) (nonempty : token ≠ []) : IsLine rest := by
  rcases firstToken_cases text with ⟨-, whole⟩ | ⟨token', rest', rfl, -, whole⟩
  · cases cut.symm.trans whole
    exact isLine_of_plain (by simp)
  · cases cut.symm.trans whole
    have tail := ((isLine_append_blank plain nonempty).mp line).2
    rwa [tail.trim]

/-- A first token without white space is a line. -/
theorem isLine_token (line : IsLine text) (cut : firstToken text = (token, rest))
    (nonempty : token ≠ []) (blank : ∀ c ∈ token, isBlank c = false) : IsLine token := by
  refine ⟨?_, fun c last => blank c (List.mem_of_getLast? last)⟩
  have tidy := line.tidy
  rcases firstToken_cases text with ⟨-, whole⟩ | ⟨token', rest', rfl, -, whole⟩
  · cases cut.symm.trans whole
    exact tidy
  · cases cut.symm.trans whole
    exact isTidyFrom_of_append tidy nonempty fun c last => blank c (List.mem_of_getLast? last)

end Statement

/-! ### Bodies -/

namespace Directive

theorem isToken_name (d : Directive) : IsToken d.name.toList := by
  cases d <;> exact .of_all (by decide) rfl

theorem lower_name (d : Directive) : lower d.name.toList = d.name.toList := by
  cases d <;> rfl

theorem ofName?_of_lower {token : List Char} {d : Directive}
    (named : lower token = d.name.toList) : ofName? (String.ofList token) = some d := by
  simp only [ofName?, isNamed, String.toList_ofList, named]
  cases d <;> rfl

/-- The name of a directive is no mnemonic. -/
theorem opcode_ofName?_of_lower {token : List Char} {d : Directive}
    (named : lower token = d.name.toList) : Opcode.ofName? (String.ofList token) = none := by
  simp only [Opcode.ofName?, BasicOp.ofName?, ExtendedOp.ofName?, isNamed, String.toList_ofList,
    named]
  cases d <;> rfl

theorem isToken_of_ofName? {token : List Char} {d : Directive}
    (h : ofName? (String.ofList token) = some d) : IsToken token := by
  have named := List.find?_some h
  exact isToken_of_isNamed d.isToken_name named

end Directive

theorem Opcode.isToken_of_ofName? {token : List Char} {op : Opcode}
    (h : ofName? (String.ofList token) = some op) : IsToken token := by
  unfold ofName? at h
  split at h
  · next basic found =>
    have named := List.find?_some found
    exact isToken_of_isNamed (Opcode.basic basic).isToken_name named
  · obtain ⟨ext, found, -⟩ := Option.map_eq_some_iff.mp h
    have named := List.find?_some found
    exact isToken_of_isNamed (Opcode.extended ext).isToken_name named

namespace Body

variable {text token rest : List Char} {body : Body} {op : Opcode}

/-- The operands of an operation are the parts between commas, as many as it takes. -/
theorem readOperands_eq_ok (h : readOperands op rest = .ok body) :
    (∃ o source, op = .extended o ∧ body = .instruction op [source] ∧
      Expr.parse rest = .ok source) ∨
    ∃ o d s destination source, op = .basic o ∧ body = .instruction op [destination, source] ∧
      rest = d ++ ',' :: s ∧ Expr.parse d = .ok destination ∧ Expr.parse s = .ok source := by
  unfold readOperands at h
  split at h
  · cases op <;> cases h
  cases run : (rest.splitOn ',').mapM Expr.parse with
  | error e => simp [run, bind, Except.bind] at h
  | ok operands =>
    obtain ⟨arity, rfl⟩ : operands.length = op.arity ∧ .instruction op operands = body := by
      simp only [run, bind, Except.bind] at h
      split at h
      · next arity => exact ⟨arity, Except.ok.inj h⟩
      · cases h
    have parts := Runs.forall₂_of_mapM_ok run
    have whole : [','].intercalate (rest.splitOn ',') = rest := List.intercalate_splitOn ','
    generalize rest.splitOn ',' = texts at parts whole
    cases op with
    | extended o =>
      obtain ⟨source, rfl⟩ := List.length_eq_one_iff.mp arity
      obtain _ | ⟨first, _ | _⟩ := parts
      rw [List.intercalate_singleton] at whole
      exact .inl ⟨o, source, rfl, rfl, whole ▸ first⟩
    | basic o =>
      obtain ⟨destination, source, rfl⟩ := List.length_eq_two.mp arity
      obtain _ | ⟨first, _ | ⟨second, _ | _⟩⟩ := parts
      rw [List.intercalate_cons_cons, List.intercalate_singleton] at whole
      exact .inr ⟨o, _, _, destination, source, rfl, rfl, by simpa using whole.symm, first, second⟩

/-- What a body has been read from. -/
theorem read_eq_ok (h : read token rest = .ok body) :
    (∃ op, Opcode.ofName? (String.ofList token) = some op ∧ readOperands op rest = .ok body) ∨
    (∃ d, Directive.ofName? (String.ofList token) = some d ∧
      body = .directive d (String.ofList rest)) ∨
    body = .empty ∨
    body = .unknown (String.ofList token) ∧ token.head? = some '.' ∧
      ∀ rest, read token rest = .ok body := by
  unfold read at h ⊢
  dsimp only at h ⊢
  split at h
  · next op found => exact .inl ⟨op, found, h⟩
  · next d noOp found =>
    cases h
    exact .inr (.inl ⟨d, found, rfl⟩)
  · split at h
    · cases h
      exact .inr (.inr (.inl rfl))
    · next known =>
      split at h
      · next dot =>
        cases h
        refine .inr (.inr (.inr ⟨rfl, dot, fun rest => ?_⟩))
        simp [known, dot]
      · cases h

/-- The name of a directive, in any case. -/
theorem read_directive {d : Directive} (named : lower token = d.name.toList) (rest : List Char) :
    read token rest = .ok (.directive d (String.ofList rest)) := by
  simp [Body.read, Directive.opcode_ofName?_of_lower named, Directive.ofName?_of_lower named]

/-- The text behind a label, or a whole line without one, and the body that is read from it. -/
inductive Written : List Char → Body → Prop
  | nothing : Written [] .empty
  | something {text token rest : List Char} {body : Body} (line : IsLine text)
      (nonempty : text ≠ []) (cut : Statement.firstToken text = (token, rest))
      (unlabelled : Label.ofToken? token = none) (read : Body.read token rest = .ok body) :
      Written text body

/-- The text of a body, which is no text for an empty one. -/
def printed (body : Body) : List Char :=
  (body.render?.getD "").toList

theorem Written.line (h : Written text body) : IsLine text := by
  cases h with
  | nothing => exact isLine_of_plain (by simp)
  | something line => exact line

theorem ReadFrom.written (h : ReadFrom text body) (line : IsLine text) : Written text body := by
  cases h with
  | nothing => exact .nothing
  | something nonempty cut unlabelled read => exact .something line nonempty cut unlabelled read

/-- A token without a colon or quotes, and the rest of the line behind a blank. -/
theorem written_spaced (isToken : IsToken token) (line : IsLine rest)
    (read : Body.read token rest = .ok body) : Written (Statement.spaced token rest) body := by
  refine .something (Statement.isLine_spaced isToken.plain isToken.nonempty line) ?_
    (Statement.firstToken_spaced (isToken.not_mem rfl) line) (Label.ofToken?_of_isToken isToken)
    read
  unfold Statement.spaced
  split
  · exact isToken.nonempty
  · simp

theorem written_instruction {operands : List Char} (nonempty : operands ≠ [])
    (line : IsLine operands) (read : readOperands op operands = .ok body) :
    Written (op.name.toList ++ ' ' :: operands) body := by
  rw [← Statement.spaced_of_ne_nil nonempty]
  exact written_spaced op.isToken_name line (by simp [Body.read, op.ofName?_name, read])

/-- The operands of a line are chains of terms, since there is no comment in it. -/
theorem chains_of_readOperands (line : IsLine rest) (h : readOperands op rest = .ok body) :
    (∃ o source, op = .extended o ∧ body = .instruction op [source] ∧
      Expr.IsChain Atom.spelling source.terms) ∨
    ∃ o destination source, op = .basic o ∧ body = .instruction op [destination, source] ∧
      Expr.IsChain Atom.spelling destination.terms ∧ Expr.IsChain Atom.spelling source.terms := by
  rcases readOperands_eq_ok h with ⟨o, source, rfl, rfl, one⟩ |
    ⟨o, d, s, destination, source, rfl, rfl, rfl, first, second⟩
  · have comment : ';' ∉ rest :=
      semicolon_not_mem line.tidy (by simp) (Expr.quote_not_mem_of_parse one)
    exact .inl ⟨o, source, rfl, rfl, Expr.isChain_of_parse one comment⟩
  · have comment : ';' ∉ d ++ ',' :: s := by
      refine semicolon_not_mem line.tidy (by simp) ?_
      simp [Expr.quote_not_mem_of_parse first, Expr.quote_not_mem_of_parse second]
    exact .inr ⟨o, destination, source, rfl, rfl,
      Expr.isChain_of_parse first fun member => comment (by simp [member]),
      Expr.isChain_of_parse second fun member => comment (by simp [member])⟩

/-- Operands are printed with a comma and a blank between them, and are read again. -/
theorem written_operands (line : IsLine rest) (h : readOperands op rest = .ok body) :
    Written body.printed body := by
  rcases chains_of_readOperands line h with ⟨o, source, rfl, rfl, chain⟩ |
    ⟨o, destination, source, rfl, rfl, chain, chain'⟩
  · have text : printed (.instruction (.extended o) [source]) =
        (Opcode.extended o).name.toList ++ ' ' :: source.render.toList := by
      simp [printed, render?, renderInstruction]
    rw [text]
    exact written_instruction (Expr.render_ne_nil chain) (Expr.isLine_render chain)
      (readOperands_one (Expr.render_ne_nil chain) (Expr.comma_not_mem_render chain)
        (Expr.parse_render chain))
  · have text : printed (.instruction (.basic o) [destination, source]) =
        (Opcode.basic o).name.toList ++
          ' ' :: (destination.render.toList ++ ',' :: ' ' :: source.render.toList) := by
      simp [printed, render?, renderInstruction]
    rw [text]
    exact written_instruction (by simp) (Expr.isLine_render_two chain chain')
      (readOperands_two (Expr.comma_not_mem_render chain) (Expr.comma_not_mem_render chain')
        (Expr.parse_render chain) (Expr.parse_render chain'))

/-- What has been read from a line is read again from its own text. -/
theorem Written.again (h : Written text body)
    (blank : ∀ token, body = .unknown token → ∀ c ∈ token.toList, isBlank c = false) :
    Written body.printed body := by
  cases h with
  | nothing => exact .nothing
  | @something _ token rest _ line nonempty cut unlabelled read =>
    rcases read_eq_ok read with ⟨op, named, operands⟩ | ⟨d, named, rfl⟩ | rfl | ⟨rfl, dot, again⟩
    · have isToken := Opcode.isToken_of_ofName? named
      have restLine := Statement.isLine_rest line cut isToken.plain isToken.nonempty
      exact written_operands restLine operands
    · have isToken := Directive.isToken_of_ofName? named
      have text : printed (.directive d (String.ofList rest)) =
          Statement.spaced d.name.toList rest := by
        by_cases none : rest = []
        · subst none
          simp [printed, render?, Statement.spaced]
        · simp [printed, render?, Statement.spaced, none]
      rw [text]
      exact written_spaced d.isToken_name
        (Statement.isLine_rest line cut isToken.plain isToken.nonempty)
        (read_directive d.lower_name rest)
    · exact .nothing
    · have text : printed (.unknown (String.ofList token)) = token := by simp [printed, render?]
      have nonblank : ∀ c ∈ token, isBlank c = false := by simpa using blank _ rfl
      have some : token ≠ [] := by
        rintro rfl
        cases dot
      have whole : ' ' ∉ token := fun member => by
        cases isBlank_blank.symm.trans (nonblank _ member)
      rw [text]
      exact .something (Statement.isLine_token line cut some nonblank) some
        (Statement.firstToken_whole whole) unlabelled (again [])

end Body

/-! ### Lines -/

namespace Label

variable {name token : List Char} {label : Label}

theorem isToken_of_isName (h : isName name = true) : IsToken name := by
  have head {c : Char} (h : isHead c = true) : isTokenChar c = true := by
    simp only [isHead, Bool.or_eq_true, decide_eq_true_eq] at h
    simp [isTokenChar, isSymbolHead, h]
  cases name with
  | nil => cases h
  | cons c cs =>
    simp only [isName, Bool.and_eq_true, List.all_eq_true, Bool.or_eq_true] at h
    refine ⟨by simp, fun d member => ?_⟩
    rcases List.mem_cons.mp member with rfl | later
    · exact head h.1
    · rcases h.2 d later with isHead | digit
      · exact head isHead
      · simp [isTokenChar, digit]

theorem isPlain_colon (h : isName name = true) :
    (∀ c ∈ ':' :: name, isPlain c = true) ∧ ∀ c ∈ name ++ [':'], isPlain c = true := by
  have plain := (isToken_of_isName h).plain
  have colon : isPlain ':' = true := by decide
  simp only [List.mem_cons, List.mem_append]
  grind

/-- A label has its colon in front or behind. -/
theorem ofToken?_eq_some (h : ofToken? token = some label) :
    ∃ name, isName name = true ∧ label = ⟨String.ofList name⟩ ∧
      (token = ':' :: name ∨ token = name ++ [':']) := by
  obtain ⟨name, found, rfl⟩ := Option.map_eq_some_iff.mp h
  obtain ⟨found, isName⟩ := Option.filter_eq_some_iff.mp found
  refine ⟨name, isName, rfl, ?_⟩
  split at found
  · next inFront =>
    cases found
    exact .inl (dropHead?_eq_some.mp inFront)
  · exact .inr (dropLast?_eq_some.mp found)

/-- The token of a label has no quote. -/
theorem plain_of_ofToken? (h : ofToken? token = some label) :
    token ≠ [] ∧ ∀ c ∈ token, isPlain c = true := by
  obtain ⟨name, isName, -, rfl | rfl⟩ := ofToken?_eq_some h
  · exact ⟨by simp, (isPlain_colon isName).1⟩
  · exact ⟨by simp, (isPlain_colon isName).2⟩

end Label

namespace Statement

variable {text name : List Char} {s : Statement} {body : Body}

/-- The name of a label that a line can begin with. -/
structure IsLabelName (name : List Char) : Prop where
  isName : Label.isName name = true
  free : Label.isReserved ⟨String.ofList name⟩ = false

theorem parse_unlabelled (h : Body.Written text body) : parse text = .ok ⟨none, body⟩ := by
  cases h with
  | nothing => rfl
  | something line nonempty cut unlabelled read =>
    simp [parse, line.trim, nonempty, cut, unlabelled, read, Except.map]

/-- A directive, in any case, on a line without a label. -/
theorem parse_directive {d : Directive} {token rest : List Char}
    (named : lower token = d.name.toList) (line : IsLine rest) :
    parse (spaced token rest) = .ok ⟨none, .directive d (String.ofList rest)⟩ := by
  have isToken := Directive.isToken_of_ofName? (Directive.ofName?_of_lower named)
  exact parse_unlabelled (Body.written_spaced isToken line (Body.read_directive named rest))

theorem parseLabelled_written (label : Label) (h : Body.Written text body) :
    parseLabelled label text = .ok ⟨some label, body⟩ := by
  cases h with
  | nothing => rfl
  | something line nonempty cut unlabelled read =>
    simp [parseLabelled, nonempty, cut, unlabelled, read, Except.map]

/-- A label is printed with its colon in front. -/
theorem isLine_labelled (legal : IsLabelName name) (line : IsLine text) :
    IsLine (spaced (':' :: name) text) :=
  isLine_spaced (Label.isPlain_colon legal.isName).1 (by simp) line

theorem parse_labelled (legal : IsLabelName name) (h : Body.Written text body) :
    parse (spaced (':' :: name) text) = .ok ⟨some ⟨String.ofList name⟩, body⟩ := by
  have plain := (Label.isPlain_colon legal.isName).1
  have blank : ' ' ∉ ':' :: name := fun member => by
    cases (isPlain_iff.mp (plain _ member)).1
  have nonempty : spaced (':' :: name) text ≠ [] := by
    unfold spaced
    split <;> simp
  have label : Label.ofToken? (':' :: name) = some ⟨String.ofList name⟩ := by
    simp [Label.ofToken?, dropHead?, legal.isName]
  simp [parse, (isLine_labelled legal h.line).trim, nonempty, firstToken_spaced blank h.line, label,
    legal.free, parseLabelled_written _ h]

/-- What a statement has been read from. -/
theorem parse_eq_ok (line : IsLine text) (h : parse text = .ok s) :
    (s.label = none ∧ Body.Written text s.body) ∨
      ∃ name rest, IsLabelName name ∧ s.label = some ⟨String.ofList name⟩ ∧
        Body.Written rest s.body := by
  have read := readFrom_of_parse h
  rw [line.trim] at read
  rcases read with ⟨unlabelled, body⟩ | ⟨token, rest, label, cut, found, free, labelled, body⟩
  · exact .inl ⟨unlabelled, body.written line⟩
  · obtain ⟨some, plain⟩ := Label.plain_of_ofToken? found
    obtain ⟨name, isName, rfl, -⟩ := Label.ofToken?_eq_some found
    exact .inr ⟨name, rest, ⟨isName, free⟩, labelled,
      body.written (isLine_rest line cut plain some)⟩

/-- The text of a statement without a label is that of its body, which is nothing if there is no
body. -/
theorem toList_render_unlabelled (body : Body) :
    (render ⟨none, body⟩).toList = body.printed := by
  cases text : body.render? <;> simp [render, Body.printed, text]

theorem toList_render_labelled (name : List Char) (written : Body.Written body.printed body) :
    (render ⟨some ⟨String.ofList name⟩, body⟩).toList = spaced (':' :: name) body.printed := by
  cases text : body.render? with
  | none => simp [render, Body.printed, text, spaced]
  | some bodyText =>
    have nonempty : bodyText ≠ "" := by
      rintro rfl
      have nothing : body.printed = [] := by simp [Body.printed, text]
      rw [nothing] at written
      cases written with
      | nothing => cases text
      | something _ nonempty => exact nonempty rfl
    simp [render, Body.printed, text, spaced, nonempty]

/-- A statement is read again from the line that it is printed as. -/
theorem parse_tidy_render (raw : List Char) (s : Statement) (h : parse (tidy raw) = .ok s)
    (blank : ∀ token, s.body = .unknown token → ∀ c ∈ token.toList, isBlank c = false) :
    parse (tidy s.render.toList) = .ok s := by
  have line := isLine_trim_tidy raw
  have trimmed : parse (trim (tidy raw)) = .ok s := by rwa [parse, line.trim, ← parse]
  obtain ⟨label, body⟩ := s
  rcases parse_eq_ok line trimmed with ⟨rfl, written⟩ | ⟨name, rest, legal, rfl, written⟩
  · have again := written.again blank
    rw [toList_render_unlabelled, tidy_of_isTidyFrom again.line.tidy]
    exact parse_unlabelled again
  · have again := written.again blank
    rw [toList_render_labelled name again,
      tidy_of_isTidyFrom (isLine_labelled legal again.line).tidy]
    exact parse_labelled legal again

/-- An open quote keeps what looks like a comment, and the rest of the line is not read. -/
theorem parse_tidy_render_open_quote :
    parse (tidy "\tLoop:  .note\"x;y z ;".toList) = .ok ⟨some ⟨"Loop"⟩, .unknown ".note\"x;y"⟩ ∧
      parse (tidy ":Loop .note\"x;y".toList) = .ok ⟨some ⟨"Loop"⟩, .unknown ".note\"x;y"⟩ := by
  have read : parse (tidy "\tLoop:  .note\"x;y z ;".toList) =
      .ok ⟨some ⟨"Loop"⟩, .unknown ".note\"x;y"⟩ := Runs.eq_ok_of_toOption (by decide +kernel)
  have text : render ⟨some ⟨"Loop"⟩, .unknown ".note\"x;y"⟩ = ":Loop .note\"x;y" := by
    decide +kernel
  have blank : (".note\"x;y".toList.all fun c => !isBlank c) = true := by decide +kernel
  rw [← text]
  refine ⟨read, parse_tidy_render _ _ read fun token same => ?_⟩
  cases same
  simpa using blank

end Statement

end Dcpu16
