import Dcpu16.Proofs.BindingStability
import Dcpu16.Proofs.Relocation

/-! One more file.  A file behind the others leaves their words and addresses alone, unless they
refer to the end of the image or spell mangled names out. -/

namespace Dcpu16

open Assembler Dcpu16.Symbol

/-! ### Steps of the longer run -/

theorem assembleFiles_snoc {sources : List (String × String)} {source : String × String}
    {options : Options} {objects : List ObjectFile} {s t : Session}
    (run : assembleFiles (sources ++ [source]) options s = .ok objects t) :
    ∃ before u o, assembleFiles sources options s = .ok before u ∧
      ObjectFile.assemble options source.1 source.2 u = .ok o t ∧ objects = before ++ [o] := by
  unfold assembleFiles at run
  rw [List.mapM_append] at run
  obtain ⟨before, u, first, rest⟩ := bind_eq_ok.mp run
  obtain ⟨last, v, second, ends⟩ := bind_eq_ok.mp rest
  rw [List.mapM_cons, List.mapM_nil] at second
  obtain ⟨o, w, made, single⟩ := bind_eq_ok.mp second
  cases ends
  cases single
  exact ⟨before, u, o, first, made, rfl⟩

theorem Expr.Bound.exists_of_mem {R : String → String → Prop} {e e' : Expr} (h : e.Bound R e')
    {bound : String} (member : bound ∈ e'.references) : ∃ name ∈ e.references, R name bound := by
  obtain ⟨t', inside', refers'⟩ := List.mem_filterMap.mp member
  obtain ⟨t, inside, related⟩ := Runs.exists_left_of_forall₂ h.terms inside'
  cases related with
  | reference related =>
    obtain rfl := Option.some.inj refers'
    exact ⟨_, List.mem_filterMap.mpr ⟨_, inside, rfl⟩, related⟩
  | other none =>
    unfold Term.reference? at refers'
    split at refers'
    · next atom => exact absurd atom (none _)
    · cases refers'

/-- The names that a statement refers to, as they are written. -/
def Body.references : Body → List String
  | .instruction _ operands => operands.flatMap Expr.references
  | _ => []

/-- The names that the words of a record depend on. -/
def Content.references : Content → List String
  | .operation op => op.operands.flatMap Expr.references
  | _ => []

theorem Content.exists_of_mem_references {c : Content} {name : String}
    (refers : name ∈ c.references) :
    ∃ op, c = .operation op ∧ ∃ e ∈ op.operands, name ∈ e.references := by
  cases c with
  | operation op => exact ⟨op, rfl, List.mem_flatMap.mp refers⟩
  | data => cases refers
  | mark => cases refers

/-- An image, and the image of the same files with one more behind them.  `s` and `s'` are the
states after the files of each have been assembled. -/
structure Image.Grown (sources : List (String × String)) (source : String × String)
    (options : Options) (s s' : Session) (last : ObjectFile) (image image' : Image) : Prop where
  finished : Finished sources options s image
  finished' : Finished (sources ++ [source]) options s' image'
  made : last.Made s.program s'.program
  file : last.file = source.1
  objects : image'.objects = image.objects ++ [last]
  inside : ∀ x sym, image.program.symbols.get? x = some sym → x ≠ image.endSymbol →
    x < s.program.symbols.size

namespace Image.Grown

variable {sources : List (String × String)} {source : String × String} {options : Options}
  {s s' : Session} {last o : ObjectFile} {image image' : Image} {r r' : Record}

theorem of_assemble (h : (assemble sources options).result = .ok image)
    (h' : (assemble (sources ++ [source]) options).result = .ok image') :
    ∃ s s' last, Grown sources source options s s' last image image' := by
  obtain ⟨s, files, finished⟩ := finished_of_assemble h
  obtain ⟨s', files', finished'⟩ := finished_of_assemble h'
  obtain ⟨before, u, last, front, run, objects⟩ := assembleFiles_snoc files'
  rw [files] at front
  obtain ⟨rfl, rfl⟩ : image.objects = before ∧ s = u := by simpa using front
  obtain ⟨file, made⟩ := ObjectFile.made_of_assemble run
  exact ⟨s, s', last, finished, finished', made, file, objects, fun x sym found other =>
    lt_size_of_get? h files found (finished.endSymbol ▸ other)⟩

/-! ### Names -/

/-- What a key of the files stands for, it stands for in both images. -/
theorem find?_later (h : Grown sources source options s s' last image image') {key : String}
    {x : SymbolId} (found : image.program.table.find? key = some x)
    (other : x ≠ image.endSymbol) : image'.program.table.find? key = some x := by
  rw [h.finished.table, NameTable.find?_insert] at found
  split at found
  · exact absurd (Option.some.inj found).symm other
  · next notEnd =>
    rw [h.finished'.table, NameTable.find?_insert, if_neg notEnd]
    exact NameTable.find?_of_prefix h.made.extends_.names found

/-- The last file brings no names that only another file sees. -/
theorem find?_own (h : Grown sources source options s s' last image image') {file name : String}
    (differ : fileName file ≠ fileName last.file) (simple : Simple name)
    (noDot : name.toList.head? ≠ some '.')
    (free : image.program.table.find? (privateName file name) = none) :
    image'.program.table.find? (privateName file name) = none := by
  have notEnd : privateName file name ≠ endName := localName_ne (by decide)
  rw [h.finished.table, NameTable.find?_insert, if_neg notEnd] at free
  rw [h.finished'.table, NameTable.find?_insert, if_neg notEnd]
  exact (h.made.stableFor differ).own name simple noDot free

theorem made_of_mem (h : Grown sources source options s s' last image image')
    (inside : o ∈ image.objects) : ∃ p q, o.Made p q ∧ q.Named ∧ q.Extends s.program := by
  obtain ⟨p, q, made, named, later⟩ := h.finished.files.made_of_mem inside
  refine ⟨p, q, made, named ?_, later⟩
  intro key x found
  cases found

/-- The symbol that a record's local names belong to has the same mangled name in both images. -/
theorem mangled?_scope (h : Grown sources source options s s' last image image')
    (inside : o ∈ image.objects) (listed : r.bare ∈ o.records) {op : Operation}
    (content : r.content = .operation op) {id : SymbolId} (scope : r.scope = some id) :
    ∃ key, image.program.symbols.mangled? id = some key ∧
      image'.program.symbols.mangled? id = some key := by
  obtain ⟨p, q, made, -, later⟩ := h.made_of_mem inside
  rcases (made.records _ listed).content with isMark | ⟨_, _, _, -, -, -, owner, -⟩
  · cases content.symm.trans isMark
  rcases owner with ⟨none, -⟩ | ⟨id', g, same, -, new, label⟩
  · cases scope.symm.trans none
  obtain rfl : id = id' := Option.some.inj (scope.symm.trans same)
  have named := made.mangled _ _ ((made.key _ id).mpr ⟨new, none, g, label, rfl⟩)
  have identity := later.symbols.identityIn
  refine ⟨_, (identity.trans h.finished.identity).mangled? named, ?_⟩
  exact ((identity.trans h.made.extends_.symbols.identityIn).trans h.finished'.identity).mangled?
    named

/-- The names in an operand whose references have been written without `$`: a name that has been
bound is in the table, and any other is as it was written. -/
theorem name_cases (h : Grown sources source options s s' last image image')
    (inside : o ∈ image.objects) (listed : r.bare ∈ o.records)
    (unmangled : ∀ line ∈ o.lines, ∀ name ∈ line.statement.body.references, Simple name)
    {name : String} (refers : name ∈ r.content.references) :
    Simple name ∨ Text.hasDoubleDollar name.toList = true ∧
      ∃ x, image.program.table.find? name = some x ∧ x ≠ image.endSymbol := by
  obtain ⟨op, content, e, operand, refers⟩ := Content.exists_of_mem_references refers
  obtain ⟨p, q, made, named, later⟩ := h.made_of_mem inside
  have record := made.records _ listed
  rcases record.content with isMark | ⟨above, line, below, split, -, -, -, stands⟩
  · cases content.symm.trans isMark
  have content' : r.bare.content = .operation op := content
  rw [content'] at stands
  obtain ⟨written, body, bound⟩ := stands
  obtain ⟨e₀, written₀, related⟩ := Runs.exists_left_of_forall₂ bound operand
  obtain ⟨n, refers₀, id, binds⟩ := related.exists_of_mem refers
  have lines : o.lines = above ++ line :: below := split
  have simple : Simple n := by
    apply unmangled line (by simp [lines])
    rw [body]
    exact List.mem_flatMap.mpr ⟨e₀, written₀, refers₀⟩
  rcases Program.bindName_eq_ok binds with ⟨-, rfl, -⟩ | ⟨x, -, early, mangled⟩
  · exact .inl simple
  obtain ⟨key, found, kind⟩ := SymbolStore.exists_key_of_resolve early
  obtain rfl := Option.some.inj (mangled.symm.trans (named key x found))
  rcases kind with ⟨rfl, dollars⟩ | ⟨front, rfl⟩ | ⟨rfl, -⟩
  · cases (hasDoubleDollar_simple simple).symm.trans dollars
  · refine .inr ⟨hasDoubleDollar_localName _ _, x, ?_, fun isEnd => ?_⟩
    · rw [h.finished.table, NameTable.find?_insert, if_neg (localName_ne (by decide))]
      exact NameTable.find?_of_prefix later.names found
    · -- The end symbol comes behind those of the files.
      obtain ⟨sym, hSym⟩ := SymbolStore.exists_get?_of_mangled? mangled
      have inside := SymbolStore.lt_size_of_get? hSym
      have upTo := later.symbols.size_le
      rw [isEnd, h.finished.endSymbol] at inside
      omega
  · exact .inl simple

/-- A name in an operand stands for the same symbol in both images, if that is not the end. -/
theorem find_later (h : Grown sources source options s s' last image image')
    (inside : o ∈ image.objects) (listed : r.bare ∈ o.records)
    (differ : fileName o.file ≠ fileName last.file) {name : String}
    (refers : name ∈ r.content.references)
    (known : Simple name ∨ Text.hasDoubleDollar name.toList = true ∧
      ∃ x, image.program.table.find? name = some x ∧ x ≠ image.endSymbol)
    {x : SymbolId} (found : (r.scopeIn image.program).find name = .ok x)
    (other : x ≠ image.endSymbol) : (r.scopeIn image'.program).find name = .ok x := by
  obtain ⟨op, content, -⟩ := Content.exists_of_mem_references refers
  rw [Scope.find_eq_ok] at found ⊢
  rcases known with simple | ⟨dollars, y, listedName, notEnd⟩
  · have whole := hasDoubleDollar_simple simple
    have file : r.file = o.file := by
      obtain ⟨p, q, made, -⟩ := h.made_of_mem inside
      exact (made.records _ listed).file
    refine (SymbolStore.resolve_eq_some whole).mpr ?_
    rcases (SymbolStore.resolve_eq_some whole).mp found with
      ⟨dot, id, key, scope, hKey, local_⟩ | ⟨noDot, own | ⟨free, shared⟩⟩
    · obtain ⟨key', here, there⟩ := h.mangled?_scope inside listed content scope
      obtain rfl := Option.some.inj (hKey.symm.trans here)
      exact .inl ⟨dot, id, key, scope, there, h.find?_later local_ other⟩
    · exact .inr ⟨noDot, .inl (h.find?_later own other)⟩
    · refine .inr ⟨noDot, .inr ⟨?_, h.find?_later shared other⟩⟩
      exact h.find?_own (by rw [Record.scopeIn, file]; exact differ) simple noDot free
  · have here : image.program.resolve r.file name r.scope = .ok (some y) :=
      Program.resolve_mangled dollars listedName
    obtain rfl : x = y := by simpa using found.symm.trans here
    exact Program.resolve_mangled dollars (h.find?_later listedName notEnd)

/-- The file that a record of the first image comes from. -/
theorem exists_object (h : Grown sources source options s s' last image image')
    (noEntry : options.entry = none) (member : r ∈ image.records) :
    ∃ o ∈ image.objects, r.bare ∈ o.records := by
  obtain ⟨first, hFirst, same⟩ := h.finished.map_bare
  rcases mem_unplaced hFirst (same ▸ List.mem_map_of_mem member) with ⟨entry, named, -⟩ | inFile
  · cases noEntry.symm.trans named
  · exact inFile

/-! ### Addresses -/

/-- The records of the first image are in front in the second, at the same addresses. -/
theorem front (h : Grown sources source options s s' last image image')
    (noEntry : options.entry = none) : ∃ front back, image'.records = front ++ back ∧
      List.Forall₂ (fun r r' : Record => r'.bare = r.bare ∧ ∃ word, r.address = some word ∧
        r'.address = some word) image.records front := by
  have leading {first : List Record} (h : leading options = .ok first) : first = [] := by
    rw [Image.leading, noEntry] at h
    exact (Except.ok.inj h).symm
  obtain ⟨first, hFirst, bares⟩ := h.finished.map_bare
  obtain ⟨first', hFirst', bares'⟩ := h.finished'.map_bare
  rw [leading hFirst, List.nil_append] at bares
  rw [leading hFirst', List.nil_append, h.objects, List.flatMap_append, ← bares] at bares'
  obtain ⟨front, back, split, same, -⟩ := List.map_eq_append_iff.mp bares'
  have row := h.finished'.row
  rw [split, h.finished'.base, ← h.finished.base] at row
  refine ⟨front, back, split, (h.finished.row.moved row.front same (Int.add_zero _).symm).imp ?_⟩
  rintro r r' ⟨bare, word, word', address, address', apart⟩
  obtain rfl : word = word' := UInt16.toNat_inj.mp (by omega)
  exact ⟨bare, word, address, address'⟩

/-- A symbol of the first image is in the second, at the same address. -/
theorem symbol (h : Grown sources source options s s' last image image')
    (noEntry : options.entry = none) {x : SymbolId} {sym : Symbol}
    (found : image.program.symbols.get? x = some sym) (other : x ≠ image.endSymbol) :
    ∃ sym' word, image'.program.symbols.get? x = some sym' ∧ sym'.identity = sym.identity ∧
      sym.address = some word ∧ sym'.address = some word := by
  have old := h.inside x sym found other
  obtain ⟨r, member, bound⟩ := h.finished.exists_record old
  obtain ⟨front, back, split, moved⟩ := h.front noEntry
  obtain ⟨r', member', bare, word, address, address'⟩ := Runs.exists_right_of_forall₂ moved member
  have bound' : x ∈ r'.defined := by
    show x ∈ r'.bare.defined
    rw [bare]
    exact bound
  obtain ⟨sym₁, found₁, same⟩ := h.finished.bound r member x bound
  obtain ⟨sym', found', same'⟩ := h.finished'.bound r' (split ▸ List.mem_append_left _ member') x
    bound'
  obtain rfl := Option.some.inj (found.symm.trans found₁)
  refine ⟨sym', word, found', ?_, same.trans address, same'.trans address'⟩
  obtain ⟨first, hFirst⟩ := SymbolStore.exists_get? old
  obtain ⟨later, hLater, here⟩ := h.finished.identity hFirst
  obtain ⟨later', hLater', there⟩ :=
    (h.made.extends_.symbols.identityIn.trans h.finished'.identity) hFirst
  obtain rfl := Option.some.inj (found.symm.trans hLater)
  obtain rfl := Option.some.inj (found'.symm.trans hLater')
  exact there.trans here.symm

/-! ### Words -/

theorem shiftsAt (h : Grown sources source options s s' last image image')
    (noEntry : options.entry = none) (bare : r'.bare = r.bare) {name : String} {word : Word}
    (known : (r.scopeIn image.program).lookup name = .ok word)
    (notEnd : (r.scopeIn image.program).find name ≠ .ok image.endSymbol)
    (later : ∀ x, (r.scopeIn image.program).find name = .ok x → x ≠ image.endSymbol →
      (r.scopeIn image'.program).find name = .ok x) :
    (r.scopeIn image.program).ShiftsAt 0 (r'.scopeIn image'.program) name := by
  have scope : r'.scopeIn image'.program = r.scopeIn image'.program := by
    show r'.bare.scopeIn image'.program = r.bare.scopeIn image'.program
    rw [bare]
  obtain ⟨x, sym, resolved, found, -⟩ := Scope.exists_of_lookup known
  have here := Scope.find_eq_ok.mpr resolved
  have other : x ≠ image.endSymbol := fun isEnd => notEnd (isEnd ▸ here)
  have there := later x here other
  obtain ⟨sym', word', found', -, address, address'⟩ := h.symbol noEntry found other
  rw [scope]
  refine ⟨there.trans here.symm, fun id same => ?_⟩
  obtain rfl : x = id := Except.ok.inj (here.symm.trans same)
  rw [Scope.addressOf_of_get? found, Scope.addressOf_of_get? found', address, address']
  exact .ok (Int.add_zero _).symm

/-- A record of the first image and the same of the second have the same words. -/
theorem words_eq (h : Grown sources source options s s' last image image')
    (noEntry : options.entry = none) (plain : options.keepGoing = false)
    (member : r ∈ image.records) (member' : r' ∈ image'.records) (bare : r'.bare = r.bare)
    (later : ∀ name ∈ r.content.references,
      (r.scopeIn image.program).find name ≠ .ok image.endSymbol ∧
        ∀ x, (r.scopeIn image.program).find name = .ok x → x ≠ image.endSymbol →
          (r.scopeIn image'.program).find name = .ok x) : r'.words = r.words := by
  have content' : r'.content = r.content := by
    show r'.bare.content = r.bare.content
    rw [bare]
  have filled := h.finished.filled r member
  have filled' := h.finished'.filled r' member'
  rw [h.finished.keepGoing, plain] at filled
  rw [h.finished'.keepGoing, plain] at filled'
  obtain ⟨words, made, present⟩ := filled.made_of_plain
  obtain ⟨words', made', present'⟩ := filled'.made_of_plain
  rw [present, present']
  rw [content'] at made'
  cases content : r.content with
  | operation op =>
    have complete := h.finished.complete member
    rw [content] at made made' complete
    cases run : op.assemble (r.scopeIn image.program) with
    | error e => simp [Content.words, run, Except.map] at made
    | ok i =>
      cases run' : op.assemble (r'.scopeIn image'.program) with
      | error e => simp [Content.words, run', Except.map] at made'
      | ok i' =>
        have evaluates := Operation.evaluates_of_assemble complete run
        have alike := Operation.assemble_shifted complete fun e operand name refers => by
          obtain ⟨word, known⟩ := evaluates.lookup operand refers
          obtain ⟨notEnd, later⟩ := later name (by
            rw [content]
            exact List.mem_flatMap.mpr ⟨e, operand, refers⟩)
          exact h.shiftsAt noEntry bare known notEnd later
        rw [alike.of_ok run run', Instruction.relocate_zero] at run'
        simp only [Content.words, run, run', Except.map, Except.ok.injEq] at made made'
        rw [← made, ← made']
  | data data =>
    rw [content] at made made'
    cases made
    cases made'
    rfl
  | mark =>
    rw [content] at made made'
    cases made
    cases made'
    rfl

end Image.Grown

/-- The closing record has no words. -/
theorem Image.Finished.words_eq {sources : List (String × String)} {options : Options} {s : Session}
    {image : Image} (h : Finished sources options s image) :
    image.words = image.records.flatMap Record.wordList := by
  rw [words, allRecords, List.flatMap_append]
  cases closing : image.closing with
  | none => simp
  | some r =>
    obtain ⟨word, rfl, -⟩ := h.closing_eq closing
    simp [Record.wordList]

/-- One more file does not disturb those before it.  If they write no mangled names and do not refer
to the end of the image, the words of the longer program begin with those of the shorter, and every
symbol of the shorter has the same address in both. -/
theorem Image.prefix_of_assemble {sources : List (String × String)} {source : String × String}
    {options : Options} {image image' : Image} (noEntry : options.entry = none)
    (plain : options.keepGoing = false)
    (differ : ∀ earlier ∈ sources, fileName source.1 ≠ fileName earlier.1)
    (h : (assemble sources options).result = .ok image)
    (h' : (assemble (sources ++ [source]) options).result = .ok image')
    (unmangled : ∀ o ∈ image.objects, ∀ line ∈ o.lines, ∀ name ∈ line.statement.body.references,
      Simple name)
    (notEnd : ∀ r ∈ image.records, ∀ name ∈ r.content.references,
      (r.scopeIn image.program).find name ≠ .ok image.endSymbol) :
    image.words <+: image'.words ∧
      ∀ x sym, image.program.symbols.get? x = some sym → x ≠ image.endSymbol →
        ∃ sym' word, image'.program.symbols.get? x = some sym' ∧ sym'.identity = sym.identity ∧
          sym.address = some word ∧ sym'.address = some word := by
  obtain ⟨s, s', last, grown⟩ := Grown.of_assemble h h'
  refine ⟨?_, fun x sym found other => grown.symbol noEntry found other⟩
  obtain ⟨front, back, split, moved⟩ := grown.front noEntry
  have members : List.Forall₂ (fun r r' : Record => r ∈ image.records ∧ _) _ _ :=
    (List.forall₂_and_left _ _).mpr ⟨fun _ member => member, moved⟩
  have same : image.records.map Record.wordList = front.map Record.wordList := by
    refine Runs.map_eq_of_forall₂ (Runs.forall₂_imp_of_mem members ?_) fun r r' same => same
    rintro r r' member' ⟨member, bare, -⟩
    rw [Record.wordList, Record.wordList]
    rw [grown.words_eq noEntry plain member (split ▸ List.mem_append_left _ member') bare
      fun name refers => ?_]
    obtain ⟨o, inside, listed⟩ := grown.exists_object noEntry member
    have apart : fileName o.file ≠ fileName last.file := by
      obtain ⟨earlier, listed', file⟩ :=
        List.mem_map.mp (grown.finished.files.files ▸ List.mem_map_of_mem inside)
      rw [grown.file, ← file]
      exact (differ earlier listed').symm
    have known := grown.name_cases inside listed (unmangled o inside) refers
    exact ⟨notEnd r member name refers, fun x =>
      grown.find_later inside listed apart refers known⟩
  rw [grown.finished.words_eq, grown.finished'.words_eq, split, List.flatMap_append,
    List.flatMap_def, List.flatMap_def, same]
  exact List.prefix_append _ _

/-- A hidden name, a local and a shared one, and a file behind them with labels of the same names
that also refers to the end. -/
theorem Image.prefix_shared_names :
    let sources := [("a.s", ".hidden low\n:low set a, 1\n:main jsr low\n:.loop set pc, .loop"),
      ("b.s", "jsr main")]
    let source := ("c.s", ":low set pc, main\n:.loop set b, _end")
    ∃ image image', (assemble sources {}).result = .ok image ∧
      (assemble (sources ++ [source]) {}).result = .ok image' ∧
      image.words = [0x8801, 0x7c20, 0, 0x7f81, 3, 0x7c20, 1] ∧
      image'.words = [0x8801, 0x7c20, 0, 0x7f81, 3, 0x7c20, 1, 0x7f81, 1, 0x7c21, 11] ∧
      image.words <+: image'.words := by
  intro sources source
  have evaluated : (assemble sources {}).result.toOption.map (fun image => (image.words,
      decide (∀ o ∈ image.objects, ∀ line ∈ o.lines, ∀ name ∈ line.statement.body.references,
        Simple name),
      decide (∀ r ∈ image.records, ∀ name ∈ r.content.references,
        (r.scopeIn image.program).find name ≠ .ok image.endSymbol))) =
      some ([0x8801, 0x7c20, 0, 0x7f81, 3, 0x7c20, 1], true, true) := by
    decide +kernel
  have evaluated' : (assemble (sources ++ [source]) {}).result.toOption.map Image.words =
      some [0x8801, 0x7c20, 0, 0x7f81, 3, 0x7c20, 1, 0x7f81, 1, 0x7c21, 11] := by
    decide +kernel
  obtain ⟨image, present, all⟩ := Option.map_eq_some_iff.mp evaluated
  obtain ⟨words, both⟩ := Prod.mk.inj all
  obtain ⟨unmangled, notEnd⟩ := Prod.mk.inj both
  obtain ⟨image', present', words'⟩ := Option.map_eq_some_iff.mp evaluated'
  have made := Runs.eq_ok_of_toOption present
  have made' := Runs.eq_ok_of_toOption present'
  have kept := prefix_of_assemble rfl rfl (by decide) made made' (of_decide_eq_true unmangled)
    (of_decide_eq_true notEnd)
  exact ⟨image, image', made, made', words, words', kept.1⟩

end Dcpu16
