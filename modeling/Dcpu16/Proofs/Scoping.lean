import Dcpu16.Proofs.Decoding
import Dcpu16.Proofs.Resolution
import Mathlib.Data.List.Nodup

/-! The scoping rule.  A label that its file hides is seen in that file only; any other label is
that of the first file that declares it.  A local label is hidden with the label it is local to.
Every name in an operand has the address of the label that the rule gives, wherever that stands. -/

namespace Dcpu16

open Dcpu16.Symbol

/-- `x` is the symbol of a label of the file.  It stands for the place where the file declares the
label first. -/
structure ObjectFile.LabelIs (o : ObjectFile) (symbols : SymbolStore) (owner : Option String)
    (name : String) (x : SymbolId) : Prop where
  listed : ∃ key, o.table.find? key = some x
  symbol : ∃ sym d, symbols.get? x = some sym ∧ sym.name = name ∧ symbols.ownerName sym = owner ∧
    (SourceLine.declarations o.lines).find? (fun d => d.owner = owner ∧ d.name = name) = some d ∧
    sym.place = ⟨o.file, d.line⟩

theorem ObjectFile.Made.labelIs {o : ObjectFile} {p q : Program} (made : o.Made p q)
    {owner : Option String} {name : String} (names : LabelName owner name) {symbols : SymbolStore}
    (later : q.symbols.IdentityIn symbols) {x : SymbolId} (h : o.label? owner name = some x) :
    o.LabelIs symbols owner name x := by
  obtain ⟨new, label⟩ := (made.label?_eq_some_iff names).mp h
  obtain ⟨sym', found', hName, hOwner⟩ := made.linked.isLabel_of_identityIn later new label
  obtain ⟨sym, found, rfl, rfl⟩ := label
  obtain ⟨d, first, place⟩ := made.declared.place new found
  obtain ⟨last, hLast, identity⟩ := later found
  obtain rfl : sym' = last := Option.some.inj (found'.symm.trans hLast)
  refine ⟨⟨_, h⟩, sym', d, found', hName, hOwner, first, ?_⟩
  rw [(Symbol.identity_eq_iff.mp identity).2.1, place]

namespace Image

variable {image : Image} {file name : String} {owner : Option String} {x : SymbolId}

/-- A file of that name declares and hides the label. -/
def HiddenIn (image : Image) (file name : String) : Prop :=
  ∃ o ∈ image.objects, fileName o.file = fileName file ∧ o.declares none name ∧
    name ∈ o.hiddenNames

/-- The symbol that a name below the label `owner` in a file stands for.

If the file hides the label, or the owner of a local label, it is that of the file.  Otherwise it is
that of the first file that declares the label and does not hide it, and otherwise the name can
stand for the end of the image. -/
inductive StandsFor (image : Image) (file : String) (owner : Option String) (name : String) :
    SymbolId → Prop
  | own {o : ObjectFile} {x : SymbolId} (inside : o ∈ image.objects)
      (same : fileName o.file = fileName file) (hidden : owner.getD name ∈ o.hiddenNames)
      (label : o.LabelIs image.program.symbols owner name x) : StandsFor image file owner name x
  | shared {before after : List ObjectFile} {o : ObjectFile} {x : SymbolId}
      (notOwn : ¬ image.HiddenIn file (owner.getD name))
      (split : image.objects = before ++ o :: after)
      (first : ∀ o' ∈ before, o'.declares owner name → owner.getD name ∈ o'.hiddenNames)
      (visible : owner.getD name ∉ o.hiddenNames)
      (label : o.LabelIs image.program.symbols owner name x) : StandsFor image file owner name x
  | atEnd (notOwn : ¬ image.HiddenIn file (owner.getD name))
      (nowhere : ∀ o ∈ image.objects, o.declares owner name → owner.getD name ∈ o.hiddenNames)
      (global : owner = none) (isEnd : name = endName) :
      StandsFor image file owner name image.endSymbol

namespace Finished

variable {sources : List (String × String)} {options : Options} {s : Session}

theorem find? (h : Finished sources options s image) (key : String) :
    image.program.table.find? key =
      if key = endName then some image.endSymbol
      else image.objects.findSome? fun o => o.table.find? key := by
  rw [h.table, NameTable.find?_insert, h.files.find? key]
  rfl

/-- No file has the name of the end symbol in its table. -/
theorem find?_endName (h : Finished sources options s image) {o : ObjectFile}
    (inside : o ∈ image.objects) : o.table.find? endName = none := by
  have unnamed := (h.files.find? endName).symm.trans h.unnamed
  exact List.findSome?_eq_none_iff.mp (Option.or_eq_none_iff.mp unnamed).2 o inside

/-- A key that a file has in its table. -/
theorem find?_keyIn (h : Finished sources options s image) {o : ObjectFile}
    (inside : o ∈ image.objects) (names : LabelName owner name) (file : String)
    (hidden : List String) (x : SymbolId) :
    o.table.find? (keyIn file hidden owner name) = some x ↔
      (owner.getD name ∈ hidden ↔ owner.getD name ∈ o.hiddenNames) ∧
      (owner.getD name ∈ hidden → fileName file = fileName o.file) ∧
      o.label? owner name = some x := by
  obtain ⟨p, q, made, -⟩ := h.made_of_mem inside
  rw [made.find?_keyIn names, Option.ite_none_right_eq_some, and_assoc]

theorem labelIs (h : Finished sources options s image) {o : ObjectFile}
    (inside : o ∈ image.objects) (names : LabelName owner name)
    (found : o.label? owner name = some x) : o.LabelIs image.program.symbols owner name x := by
  obtain ⟨p, q, made, -, -, later⟩ := h.made_of_mem inside
  exact made.labelIs names later found

/-- A file has the keys of the labels that it declares. -/
theorem exists_find?_keyIn (h : Finished sources options s image) {o : ObjectFile}
    (inside : o ∈ image.objects) (names : LabelName owner name)
    (declared : o.declares owner name) (file : String) {hidden : List String}
    (same : owner.getD name ∈ hidden ↔ owner.getD name ∈ o.hiddenNames)
    (files : owner.getD name ∈ hidden → fileName file = fileName o.file) :
    ∃ x, o.table.find? (keyIn file hidden owner name) = some x := by
  obtain ⟨p, q, made, -⟩ := h.made_of_mem inside
  rw [← made.isSome_label? names] at declared
  obtain ⟨x, label⟩ := Option.isSome_iff_exists.mp declared
  exact ⟨x, (h.find?_keyIn inside names file hidden x).mpr ⟨same, files, label⟩⟩

/-- A key of a label that is not hidden. -/
theorem standsFor_shared (h : Finished sources options s image) (names : LabelName owner name)
    (notOwn : ¬ image.HiddenIn file (owner.getD name))
    (found : (image.objects.findSome? fun o => o.table.find? (keyIn file [] owner name)) = some x) :
    image.StandsFor file owner name x := by
  obtain ⟨before, o, after, split, here, earlier⟩ := List.findSome?_eq_some_iff.mp found
  have inside : o ∈ image.objects := by simp [split]
  obtain ⟨visible, -, label⟩ := (h.find?_keyIn inside names file [] x).mp here
  refine .shared notOwn split (fun o' member declared => ?_) (fun hidden => ?_)
    (h.labelIs inside names label)
  · by_contra visible'
    have inside' : o' ∈ image.objects := by simp [split, member]
    have same : owner.getD name ∈ ([] : List String) ↔ owner.getD name ∈ o'.hiddenNames := by
      simp [visible']
    obtain ⟨y, found'⟩ := h.exists_find?_keyIn inside' names declared file same (by simp)
    rw [earlier o' member] at found'
    cases found'
  · cases visible.mpr hidden

/-- A key of a hidden label. -/
theorem standsFor_own (h : Finished sources options s image) (names : LabelName owner name)
    (found : (image.objects.findSome? fun o =>
      o.table.find? (keyIn file [owner.getD name] owner name)) = some x) :
    image.StandsFor file owner name x := by
  obtain ⟨before, o, after, split, here, -⟩ := List.findSome?_eq_some_iff.mp found
  have inside : o ∈ image.objects := by simp [split]
  obtain ⟨hidden, files, label⟩ := (h.find?_keyIn inside names file _ x).mp here
  exact .own inside (files (by simp)).symm (hidden.mp (by simp)) (h.labelIs inside names label)

theorem not_hiddenIn (h : Finished sources options s image) (names : LabelName none name)
    (unfound : (image.objects.findSome? fun o => o.table.find? (keyIn file [name] none name)) =
      none) : ¬ image.HiddenIn file name := by
  rintro ⟨o, inside, files, declared, hidden⟩
  have same : name ∈ [name] ↔ name ∈ o.hiddenNames := by simp [hidden]
  obtain ⟨x, found⟩ := h.exists_find?_keyIn inside names declared file same fun _ => files.symm
  rw [List.findSome?_eq_none_iff.mp unfound o inside] at found
  cases found

theorem standsFor_global (h : Finished sources options s image) (simple : Simple name)
    (noDot : name.toList.head? ≠ some '.') {scope : Option SymbolId}
    (found : image.program.resolve file name scope = .ok (some x)) :
    image.StandsFor file none name x := by
  have names : LabelName none name := ⟨simple, by simp [noDot], by simp⟩
  have privateKey : privateName file name = keyIn file [name] none name := by simp [keyIn]
  have sharedKey : name = keyIn file [] none name := by simp [keyIn]
  have notEnd : keyIn file [name] none name ≠ endName := by
    rw [← privateKey]
    exact localName_ne (by decide)
  rcases (SymbolStore.resolve_eq_some (hasDoubleDollar_simple simple)).mp found with
    ⟨dot, -⟩ | ⟨-, own | ⟨notOwn, shared⟩⟩
  · exact absurd dot noDot
  · rw [privateKey, h.find?, if_neg notEnd] at own
    exact h.standsFor_own names own
  · rw [privateKey, h.find?, if_neg notEnd] at notOwn
    have notOwn := h.not_hiddenIn names notOwn
    rw [h.find?] at shared
    split at shared
    · next isEnd =>
      obtain rfl := Option.some.inj shared
      refine .atEnd notOwn (fun o inside declared => ?_) rfl isEnd
      by_contra visible
      have same : name ∈ ([] : List String) ↔ name ∈ o.hiddenNames := by simpa using visible
      obtain ⟨x, found⟩ := h.exists_find?_keyIn inside names declared file same (by simp)
      rw [← sharedKey, isEnd, h.find?_endName inside] at found
      cases found
    · rw [sharedKey] at shared
      exact h.standsFor_shared names notOwn shared

/-- What is found as a local name is the name of a label. -/
theorem simple_of_find? (h : Finished sources options s image) {front : String}
    (dot : name.toList.head? = some '.') (whole : Text.hasDoubleDollar name.toList = false)
    (found : (image.objects.findSome? fun o => o.table.find? (localName front name)) = some x) :
    Simple name := by
  obtain ⟨before, o, after, split, here, -⟩ := List.findSome?_eq_some_iff.mp found
  obtain ⟨p, q, made, -⟩ := h.made_of_mem (o := o) (by simp [split])
  obtain ⟨new, owner, name', label, same⟩ := (made.key _ x).mp here
  have simple := (made.linked.labelName new label).simple
  rcases keyIn_ends o.file o.hiddenNames owner name' with ends | ⟨front', ends⟩
  · exact absurd (same.trans ends) (localName_ne simple)
  · exact simple_of_localName dot whole simple (same.trans ends)

theorem standsFor_local (h : Finished sources options s image)
    (distinct : (image.objects.map fun o => fileName o.file).Nodup) {o : ObjectFile}
    (inside : o ∈ image.objects) {p q : Program} (made : o.Made p q)
    (later : q.symbols.IdentityIn image.program.symbols) {scope : Option SymbolId}
    (below : q.symbols.OwnerIs p.symbols.size scope owner)
    (dot : name.toList.head? = some '.') (whole : Text.hasDoubleDollar name.toList = false)
    (found : image.program.resolve o.file name scope = .ok (some x)) :
    ∃ g, owner = some g ∧ image.StandsFor o.file (some g) name x := by
  rcases (SymbolStore.resolve_eq_some whole).mp found with
    ⟨-, id, key, rfl, hKey, found⟩ | ⟨noDot, -⟩
  · rcases below with ⟨isNone, -⟩ | ⟨id', g, same, rfl, new, label⟩
    · cases isNone
    obtain rfl := Option.some.inj same
    have named := made.mangled _ _ ((made.key _ id).mpr ⟨new, none, g, label, rfl⟩)
    obtain rfl := Option.some.inj (hKey.symm.trans (later.mangled? named))
    rw [h.find?, if_neg (localName_ne (by decide))] at found
    -- Only the key of a label is found, so the name has the form of one.
    have simple := h.simple_of_find? dot whole found
    have names : LabelName (some g) name :=
      ⟨simple, by simp [dot],
        fun g' hg => Option.some.inj hg ▸ (made.linked.labelName new label).simple⟩
    refine ⟨g, rfl, ?_⟩
    rw [← keyIn_some] at found
    by_cases hidden : g ∈ o.hiddenNames
    · have key : keyIn o.file o.hiddenNames (some g) name = keyIn o.file [g] (some g) name :=
        keyIn_congr (by simp [hidden]) fun _ => rfl
      rw [key] at found
      exact h.standsFor_own names found
    · -- File names are distinct, so no other file of that name hides the owner.
      have key : keyIn o.file o.hiddenNames (some g) name = keyIn o.file [] (some g) name :=
        keyIn_congr (by simp [hidden]) fun _ => rfl
      rw [key] at found
      refine h.standsFor_shared names ?_ found
      rintro ⟨o', inside', files, -, hidden'⟩
      obtain rfl := List.inj_on_of_nodup_map distinct inside' inside files
      exact hidden hidden'
  · exact absurd dot noDot

end Finished

/-- The operands of an instruction as they are written in a line of a file, below the last label
that is not local, or in the options. -/
inductive Written (options : Options) (image : Image) (r : Record) (op : Opcode) :
    Option String → List Expr → Prop
  | inLine {o : ObjectFile} {before after : List SourceLine} {line : SourceLine}
      {written : List Expr} (inside : o ∈ image.objects) (listed : r.bare ∈ o.records)
      (file : r.file = o.file) (split : o.lines = before ++ line :: after)
      (number : r.line = line.number) (body : line.statement.body = .instruction op written) :
      Written options image r op (SourceLine.ownerAfter (before ++ [line])) written
  | asEntry {entry : String} {target : Expr} (named : options.entry = some entry)
      (parsed : Expr.parse entry.toList = .ok target) (file : r.file = linkerFile)
      (set : op = .basic .set) :
      Written options image r op none [⟨[⟨none, .special .pc⟩], false⟩, target]

/-- In an operand of the record, the name has the address of the symbol. -/
def Locates (image : Image) (r : Record) (name : String) (x : SymbolId) : Prop :=
  ∃ sym word, image.program.symbols.get? x = some sym ∧ sym.address = some word ∧
    (r.scopeIn image.program).lookup name = .ok word

/-- A written name and what it has been bound to.  Names with a separator are not plain names. -/
structure Resolves (image : Image) (r : Record) (owner : Option String) (name bound : String) :
    Prop where
  global : Simple name → name.toList.head? ≠ some '.' →
    ∃ x, image.StandsFor r.file none name x ∧ image.Locates r bound x
  below : name.toList.head? = some '.' → Text.hasDoubleDollar name.toList = false →
    ∃ g x, owner = some g ∧ image.StandsFor r.file (some g) name x ∧ image.Locates r bound x

namespace Finished

variable {sources : List (String × String)} {options : Options} {s : Session} {r : Record}
  {bound : String} {word : Word}

theorem resolves_inLine (h : Finished sources options s image)
    (distinct : (image.objects.map fun o => fileName o.file).Nodup) {o : ObjectFile}
    (inside : o ∈ image.objects) {p q : Program} (made : o.Made p q) (named : q.Named)
    (names : q.table.entries <+: image.program.table.entries)
    (later : q.symbols.IdentityIn image.program.symbols) (file : r.file = o.file)
    (below : q.symbols.OwnerIs p.symbols.size r.scope owner) {id : Option SymbolId}
    (bind : q.bindName o.file r.scope name = .ok (bound, id))
    (known : (r.scopeIn image.program).lookup bound = .ok word) :
    image.Resolves r owner name bound := by
  obtain ⟨x, sym, found, hSym, address⟩ := Scope.exists_of_lookup known
  have locates : image.Locates r bound x := ⟨sym, word, hSym, address, known⟩
  change image.program.resolve r.file bound r.scope = .ok (some x) at found
  rw [file] at found
  refine ⟨fun simple noDot => ⟨x, ?_, locates⟩, fun dot whole => ?_⟩
  · rw [Program.resolve_of_bound named names later (hasDoubleDollar_simple simple) bind] at found
    rw [file]
    exact h.standsFor_global simple noDot found
  · rw [Program.resolve_of_bound named names later whole bind] at found
    obtain ⟨g, hg, stands⟩ := h.standsFor_local distinct inside made later below dot whole found
    exact ⟨g, x, hg, file ▸ stands, locates⟩

theorem resolves_asEntry (h : Finished sources options s image) (scope : r.scope = none)
    (known : (r.scopeIn image.program).lookup name = .ok word) :
    image.Resolves r none name name := by
  obtain ⟨x, sym, found, hSym, address⟩ := Scope.exists_of_lookup known
  change image.program.resolve r.file name r.scope = .ok (some x) at found
  refine ⟨fun simple noDot => ?_, fun dot whole => ?_⟩
  · exact ⟨x, h.standsFor_global simple noDot found, sym, word, hSym, address, known⟩
  · rcases (SymbolStore.resolve_eq_some whole).mp found with ⟨-, id, key, some, -⟩ | ⟨noDot, -⟩
    · cases scope.symm.trans some
    · exact absurd dot noDot

end Finished

/-- Every name in an operand stands for the symbol that the scoping rule gives. -/
theorem resolves_of_assemble {sources : List (String × String)} {options : Options}
    (h : (assemble sources options).result = .ok image)
    (quiet : (assemble sources options).log.hasError = false)
    (distinct : (sources.map fun source => fileName source.1).Nodup) :
    ∀ r ∈ image.records, ∀ o, r.content = .operation o → ∃ owner written,
      image.Written options r o.op owner written ∧
      List.Forall₂ (Expr.Bound (image.Resolves r owner)) written o.operands := by
  intro r member o content
  obtain ⟨s, -, finished⟩ := finished_of_assemble h
  have files : image.objects.map (fun o => fileName o.file) =
      sources.map fun source => fileName source.1 := by
    have same := congrArg (List.map fileName) finished.files.files
    rwa [List.map_map, List.map_map] at same
  rw [← files] at distinct
  obtain ⟨i, ⟨_, content', evaluates⟩, -⟩ := finished.evaluates quiet
    (List.mem_append_left _ member) (by simp [Record.isOperation, content])
  obtain rfl : o = _ := Content.operation.inj (content.symm.trans content')
  obtain ⟨first, hFirst, same⟩ := finished.map_bare
  have listed : r.bare ∈ first ++ image.objects.flatMap ObjectFile.records :=
    same ▸ List.mem_map_of_mem member
  rcases mem_unplaced hFirst listed with ⟨entry, named, jump⟩ | ⟨f, inside, listed⟩
  · obtain ⟨target, parsed, bare⟩ := entryJump_eq_ok jump
    have jumps : r.content = .operation _ := congrArg Record.content bare
    obtain rfl := Content.operation.inj (content.symm.trans jumps)
    refine ⟨none, _, .asEntry named parsed (congrArg Record.file bare) rfl,
      List.forall₂_same.mpr fun e operand => Expr.Bound.refl_of_mem fun name refers => ?_⟩
    obtain ⟨word, known⟩ := evaluates.lookup operand refers
    exact finished.resolves_asEntry (congrArg Record.scope bare) known
  · obtain ⟨p, q, made, named, names, later⟩ := finished.made_of_mem inside
    have record := made.records _ listed
    rcases record.content with mark | ⟨before, line, after, split, number, -, below, stands⟩
    · cases content.symm.trans mark
    · change SourceFile.ContentOf f.source q r.scope line r.content at stands
      rw [content] at stands
      obtain ⟨written, body, bound⟩ := stands
      refine ⟨_, written, .inLine inside listed record.file split number body,
        Runs.forall₂_imp_of_mem bound fun e e' operand related =>
          related.imp_of_mem fun name bound refers binds => ?_⟩
      obtain ⟨id, bind⟩ := binds
      obtain ⟨word, known⟩ := evaluates.lookup operand refers
      exact finished.resolves_inLine distinct inside made named names later record.file below bind
        known

/-- A hidden label, a label of the same name in a later file, a local label and the end symbol. -/
theorem resolves_three_files :
    let sources :=
      [("a.s", ".hidden work\n:work jsr work\n:main jsr .done\n:.done jsr help"),
        ("b.s", ":help jsr work"), ("c.s", ":work jsr _end")]
    let options : Options := { entry := some "main" }
    ∃ image, (assemble sources options).result = .ok image ∧
      (assemble sources options).log.hasError = false ∧
      (sources.map fun source => fileName source.1).Nodup ∧
      image.words =
        [0x7f81, 4, 0x7c20, 2, 0x7c20, 6, 0x7c20, 8, 0x7c20, 10, 0x7c20, 12] ∧
      ∀ r ∈ image.records, ∀ o, r.content = .operation o → ∃ owner written,
        image.Written options r o.op owner written ∧
        List.Forall₂ (Expr.Bound (image.Resolves r owner)) written o.operands := by
  intro sources options
  have evaluated : (assemble sources options).log.hasError = false ∧
      (assemble sources options).result.toOption.map Image.words =
        some [0x7f81, 4, 0x7c20, 2, 0x7c20, 6, 0x7c20, 8, 0x7c20, 10, 0x7c20, 12] := by
    decide +kernel
  have distinct : (sources.map fun source => fileName source.1).Nodup := by decide +kernel
  obtain ⟨quiet, made⟩ := evaluated
  obtain ⟨image, present, words⟩ := Option.map_eq_some_iff.mp made
  have ok := Runs.eq_ok_of_toOption present
  exact ⟨image, ok, quiet, distinct, words, resolves_of_assemble ok quiet distinct⟩

end Image

end Dcpu16
