import Dcpu16.Proofs.Faults
import Dcpu16.Proofs.Listing
import Dcpu16.Proofs.Settling

/-! Every symbol number, line number and name that assembling a program and listing its image looks
up is there.  The one exception is a line of an earlier file with the same name as a later, shorter
one, which the note about a redefined name would show. -/

namespace Dcpu16

open Assembler

/-! ### Data -/

namespace Data

theorem onlyOverflows_readItem (item : List Char) : OnlyOverflows (readItem item) := by
  unfold readItem
  dsimp only
  split
  · split
    · split
      · exact .overflow
      · exact .ok _
    · exact .error _
  · split
    · exact .ok _
    · exact .error _

theorem onlyOverflows_readNumbers (store : Int → Except AsmError Word) (rest : List Char) :
    OnlyOverflows (readNumbers store rest) := by
  have items : OnlyOverflows (readItems rest) := by
    unfold readItems
    split
    · exact .ok _
    · exact .mapM fun item _ => onlyOverflows_readItem item
  apply OnlyOverflows.bind items
  intro values _
  exact .mapError _

theorem onlyOverflows_parse (d : Directive) (rest : String) : OnlyOverflows (parse d rest) := by
  have string : OnlyOverflows (readString rest.toList) := by
    unfold readString
    split
    · exact .ok _
    · exact .error _
  unfold parse
  split
  · exact string
  · exact string.map _
  · exact onlyOverflows_readNumbers _ _
  · exact onlyOverflows_readNumbers _ _
  · exact onlyOverflows_readNumbers _ _
  · exact onlyOverflows_readNumbers _ _
  · exact onlyOverflows_readNumbers _ _
  · exact .error _

end Data

/-! ### Functions -/

/-- The function that is open starts in one of the first `n` lines. -/
def FunctionSpans.OpenedIn (f : FunctionSpans) (n : Nat) : Prop :=
  ∀ name, f.opened = some name → ∃ span, f.spans.find? name = some span ∧ span.first < n

theorem FunctionSpans.OpenedIn.step {f : FunctionSpans} {n line : Nat} (h : f.OpenedIn n)
    (inside : line < n) (body : Body) : (f.step line body).1.OpenedIn n := by
  unfold FunctionSpans.step
  split
  · intro name opened
    obtain rfl := Option.some.inj opened
    exact ⟨⟨line, none⟩, by simp [FunctionSpans.enter], inside⟩
  · unfold FunctionSpans.leave
    split
    · intro name opened
      cases opened
    · intro name opened
      cases opened
  · exact h

/-! ### Names in operands -/

namespace Program

variable {p : Program} {file name : String} {scope : Option SymbolId}

theorem Named.eq_overflow_of_bindName {f : Fault} (named : p.Named)
    (known : ∀ x, scope = some x → (p.symbols.mangled? x).isSome)
    (failed : p.bindName file scope name = .error f) : f = .overflow := by
  have resolves : OnlyOverflows (p.resolve file name scope) :=
    SymbolStore.onlyOverflows_resolve known
  unfold bindName at failed
  split at failed
  · next x found =>
    obtain ⟨key, hKey, -⟩ := SymbolStore.exists_key_of_resolve found
    rw [named key x hKey] at failed
    cases failed
  · next f' found =>
    cases failed
    exact resolves.fault found
  · cases failed

end Program

theorem Expr.faultsOnly_mapReferences {F : Fault → Session → Prop} {e : Expr} {s : Session}
    {f : String → Assembler String} (I : Session → Prop)
    (keeps : ∀ {name bound : String} {s t : Session}, I s → f name s = .ok bound t → I t)
    (each : ∀ (name : String) {s : Session}, I s → FaultsOnly F (f name) s) (start : I s) :
    FaultsOnly F (e.mapReferences f) s := by
  refine FaultsOnly.bind (.mapM I (fun term _ {y s t} hs step => ?_) (fun term _ {s} hs => ?_)
    start) fun terms u _ => .pure _
  · obtain ⟨sign, atom⟩ := term
    cases atom with
    | reference name =>
      obtain ⟨bound, v, named, last⟩ := bind_eq_ok.mp step
      cases last
      exact keeps hs named
    | _ =>
      cases step
      exact hs
  · obtain ⟨sign, atom⟩ := term
    cases atom with
    | reference name => exact .bind (each name hs) fun _ _ _ => .pure _
    | _ => exact .pure _

/-! ### Records -/

theorem Assembler.FaultsOnly.define {F : Fault → Session → Prop} {s : Session} {place : Place}
    {x : SymbolId} (inside : x < s.program.symbols.size) : FaultsOnly F (define place x) s := by
  have defined : (s.program.symbols.define? x place).isSome := by
    obtain ⟨sym, found⟩ := SymbolStore.exists_get? inside
    unfold SymbolStore.define?
    rw [found]
    dsimp only
    split
    · rfl
    · rfl
  apply bind get
  intro a t got
  cases got
  apply bind (require defined)
  rintro ⟨isNew, symbols⟩ t _
  apply bind (modify _)
  intro _ t _
  exact pure isNew

namespace SourceFile

variable {source : SourceFile} {p : Program} {n : Nat} {hidden : List String} {table : SymbolTable}
  {done rest : List SourceLine} {line : SourceLine} {build build' : Build} {s t : Session}
  {F : Fault → Session → Prop}

theorem faultsOnly_bindSymbols {place : Place} {ids : List SymbolId}
    (inside : ∀ x ∈ ids, x < s.program.symbols.size) : FaultsOnly F (bindSymbols place ids) s := by
  induction ids generalizing s with
  | nil => exact .pure _
  | cons id ids ih =>
    apply FaultsOnly.bind (.define (inside id (by simp)))
    intro isNew t defined
    have size : t.program.symbols.size = s.program.symbols.size := by
      obtain ⟨symbols, hDefine, rfl⟩ := define_eq_ok.mp defined
      rcases SymbolStore.define?_eq_some.mp hDefine with ⟨-, rfl, -⟩ | ⟨-, rfl, -⟩
      · rfl
      · exact SymbolStore.size_modify _ _ _
    refine FaultsOnly.bind (ih fun x member => ?_) fun rest u _ => .pure _
    rw [size]
    exact inside x (List.mem_cons_of_mem _ member)

theorem faultsOnly_markFunction : FaultsOnly F (source.markFunction line build) s := by
  unfold markFunction
  dsimp only
  split
  · exact .bind (.report _) fun _ _ _ => .pure _
  · exact .pure _

/-- The labels that wait are symbols of the file. -/
theorem Built.faultsOnly_addRecord {content : Content}
    (h : Built source p n hidden table done build s) :
    FaultsOnly F (source.addRecord line content build) s := by
  refine FaultsOnly.bind (faultsOnly_bindSymbols fun x waits => ?_) fun _ _ _ => .pure _
  rw [SymbolStore.size_of_unmarked h.session.program.symbols]
  exact (h.own x (List.mem_append_right _ waits)).2

theorem functions_of_enterLabel (run : source.enterLabel table line build s = .ok build' t) :
    build'.functions = build.functions := by
  rcases enterLabel_eq_ok run with ⟨-, rfl, -⟩ | ⟨label, id, -, -, rfl⟩
  · rfl
  · rfl

theorem functions_of_addRecord {content : Content}
    (run : source.addRecord line content build s = .ok build' t) :
    build'.functions = build.functions := by
  obtain ⟨defined, u, -, last⟩ := bind_eq_ok.mp run
  cases last
  rfl

theorem functions_of_buildLine (run : source.buildLine table build line s = .ok build' t) :
    build'.functions = (build.functions.step line.number line.statement.body).1 := by
  obtain ⟨entered, u, hEnter, run₁⟩ := bind_eq_ok.mp run
  obtain ⟨marked, v, hMark, run₂⟩ := bind_eq_ok.mp run₁
  obtain ⟨content?, w, -, run₃⟩ := bind_eq_ok.mp run₂
  obtain ⟨functions, log, step, rfl, -⟩ := markFunction_eq_ok hMark
  rw [← functions_of_enterLabel hEnter, step]
  cases content? with
  | none =>
    cases run₃
    rfl
  | some content => exact functions_of_addRecord run₃

theorem openedIn_of_buildLines (read : source.WellRead)
    (run : source.buildLines table source.lines s = .ok build t) :
    build.functions.OpenedIn source.lines.length := by
  refine foldlM_keeps (fun _ build _ => build.functions.OpenedIn source.lines.length)
    (fun done line rest split {a b u v} h step => ?_) (fun name opened => ?_) run
  · rw [functions_of_buildLine step]
    refine h.step ?_ line.statement.body
    have length : source.lines.length = done.length + (rest.length + 1) := by simp [split]
    rw [read.number_eq split]
    omega
  · cases opened

theorem faultsOnly_closeFunctions (opened : build.functions.OpenedIn source.lines.length) :
    FaultsOnly F (source.closeFunctions build) s := by
  unfold closeFunctions
  split
  · next name open_ =>
    obtain ⟨span, found, inside⟩ := opened name open_
    rw [found]
    exact .bind (faultsOnly_line inside) fun _ _ _ => .report _
  · exact .pure _

theorem Built.faultsOnly_closeLabels (h : Built source p n hidden table source.lines build s)
    (names : NamesHidden source n hidden table p.symbols) (read : source.WellRead) :
    FaultsOnly F (source.closeLabels build) s := by
  unfold closeLabels
  split
  · next first others waiting =>
    obtain ⟨new, inside⟩ := h.own first (by simp [waiting])
    have notes := h.session.program.symbols
    rw [← SymbolStore.size_of_unmarked notes] at inside
    obtain ⟨sym, found⟩ := SymbolStore.exists_get? inside
    apply FaultsOnly.bind (.symbol (by simp [found]))
    intro sym' t hRun
    obtain ⟨found', rfl⟩ := symbol_eq_ok.mp hRun
    have declared := names.declared.of_sameOrigins (.of_unmarked notes)
    have below := read.place_lt (List.append_nil _).symm declared new found'
    apply FaultsOnly.bind (faultsOnly_line below)
    intro line t hLine
    obtain ⟨-, rfl⟩ := require_eq_ok.mp hLine
    exact h.faultsOnly_addRecord
  · exact .pure _

section Build

variable (overflow : ∀ t, F .overflow t)
include overflow

theorem faultsOnly_bindName {bound : List SymbolId} {scope : Option SymbolId} (named : p.Named)
    (known : ∀ x, scope = some x → (p.symbols.mangled? x).isSome) (h : s.Building p n bound)
    (name : String) : FaultsOnly F (source.bindName scope name) s := by
  apply FaultsOnly.bind .get
  intro a t got
  cases got
  rw [h.program.bindName]
  split
  · exact .bind (.modify _) fun _ _ _ => .pure _
  · next f failed =>
    rw [named.eq_overflow_of_bindName known failed]
    constructor
    intro f t run
    cases run
    exact overflow s

theorem faultsOnly_content? {bound : List SymbolId} {scope : Option SymbolId} (named : p.Named)
    (known : ∀ x, scope = some x → (p.symbols.mangled? x).isSome) (h : s.Building p n bound) :
    FaultsOnly F (source.content? line scope) s := by
  have keeps {name bound' : String} {s t : Session} (hs : s.Building p n bound)
      (run : source.bindName scope name s = .ok bound' t) : t.Building p n bound :=
    (bindName_eq_ok hs run).1
  unfold content?
  split
  · next op operands _ =>
    refine FaultsOnly.bind (.mapM (Session.Building p n bound) (fun e _ {e' s t} hs step => ?_)
      (fun e _ {s} hs => ?_) h) fun _ _ _ => .pure _
    · exact (Expr.mapReferences_eq_ok (R := fun _ _ => True) _
        (fun hs run => ⟨keeps hs run, trivial⟩) hs step).1
    · exact Expr.faultsOnly_mapReferences _ keeps
        (fun name {s} hs => faultsOnly_bindName overflow named known hs name) hs
  · split
    · exact .bind (.located overflow (Data.onlyOverflows_parse _ _)) fun _ _ _ => .pure _
    · exact .pure _
  · exact .pure _
  · exact .pure _

theorem Built.faultsOnly_enterLabel (h : Built source p n hidden table done build s)
    (linked : p.symbols.Linked n) : FaultsOnly F (source.enterLabel table line build) s := by
  have known : ∀ x, build.scope = some x → (s.program.symbols.mangled? x).isSome := by
    intro x same
    rw [SymbolStore.mangled?_of_unmarked h.session.program.symbols]
    exact h.scope.isSome_mangled? linked same
  unfold SourceFile.enterLabel
  split
  · exact .pure _
  · refine FaultsOnly.bind (.bind .get fun a t got => ?_) fun id t _ => .pure _
    cases got
    apply FaultsOnly.bind (.located overflow (SymbolStore.onlyOverflows_resolve known))
    intro found t _
    split
    · exact .pure _
    · exact .fail _

theorem Built.faultsOnly (h : Built source p n hidden table done build s)
    (names : NamesHidden source n hidden table p.symbols) (named : p.Named)
    (read : line.statement.WellRead) : FaultsOnly F (source.buildLine table build line) s := by
  apply FaultsOnly.bind (h.faultsOnly_enterLabel overflow names.linked)
  intro entered t hEnter
  apply FaultsOnly.bind faultsOnly_markFunction
  intro marked u hMark
  have built := (h.enterLabel names read hEnter).markFunction hMark
  have known : ∀ x, marked.scope = some x → (p.symbols.mangled? x).isSome := by
    intro x same
    exact built.scope.isSome_mangled? names.linked same
  apply FaultsOnly.bind (faultsOnly_content? overflow named known built.session)
  intro content? v hContent
  obtain ⟨session, -⟩ := content?_eq_ok built.session hContent
  have built' : Built source p n hidden table (done ++ [line]) marked v :=
    ⟨session, built.distinct, built.own, built.scope, built.labels, built.records⟩
  cases content? with
  | none => exact .pure _
  | some content => exact built'.faultsOnly_addRecord

theorem faultsOnly_build (names : NamesHidden source n hidden table s.program.symbols)
    (named : s.program.Named) (read : source.WellRead) : FaultsOnly F (source.build table) s := by
  rw [build_eq_bind]
  have lines : FaultsOnly F (source.buildLines table source.lines) s := by
    refine .foldlM (Built source s.program n hidden table)
      (fun done line rest split {a b u v} h step => ?_)
      (fun done line rest split {a u} h => ?_) (Built.start names)
    · exact h.step split names (read.statement line (by simp [split])) step
    · exact h.faultsOnly overflow names named (read.statement line (by simp [split]))
  apply FaultsOnly.bind lines
  intro build t run
  have built := built_of_buildLines names read (List.append_nil _).symm run
  apply FaultsOnly.bind (faultsOnly_closeFunctions (openedIn_of_buildLines read run))
  intro _ u closed
  exact (built.closeFunctions closed).faultsOnly_closeLabels names read

end Build

/-! ### Files -/

theorem faultsOnly_declare {policy : Redefinition} (named : s.program.Named)
    (read : source.WellRead)
    (lost : ∀ {key line t}, s.program.LosesNote policy source.file source.lines.length key line t →
      F .missingLine t) : FaultsOnly F (source.declare policy) s := by
  apply FaultsOnly.bind (faultsOnly_addLabels read)
  intro labels u hLabels
  obtain ⟨owner, labelsRead⟩ := addLabels_eq_ok read hLabels
  obtain ⟨since, own⟩ := (leads_addLabels (Session.Since.start s)).ok hLabels
  apply FaultsOnly.bind (faultsOnly_hideNames labelsRead.namesHidden)
  intro table v hHide
  have names := hideNames_eq_ok labelsRead.namesHidden hHide
  obtain ⟨since, own⟩ := (leads_hideNames since own).ok hHide
  apply FaultsOnly.bind
    (faultsOnly_publish named names read lost since.remain own.distinct since.table_eq)
  intro _ w _
  exact .pure _

theorem length_of_read {file text : String} (run : SourceFile.read file text s = .ok source t) :
    source.lines.length = (Text.lines text.toList).length := by
  obtain ⟨lines, u, made, last⟩ := bind_eq_ok.mp run
  cases last
  obtain ⟨-, each⟩ := mapM_keeps (fun _ => True) (R := fun _ _ => True)
    (fun _ _ _ _ _ _ _ => ⟨trivial, trivial⟩) trivial made
  simpa using each.length_eq.symm

/-- A line of the file declares a label with the mangled name `key`. -/
def Declares (source : SourceFile) (key : String) (line : Nat) : Prop :=
  ∃ d ∈ SourceLine.declarations source.lines, d.line = line ∧
    key = Symbol.keyIn source.file (source.hiddenNames.map Prod.fst) d.owner d.name

end SourceFile

namespace ObjectFile

variable {options : Options} {file text : String} {s t : Session} {f : Fault}

theorem ofSource_eq_bind (source : SourceFile) : ofSource options source = (do
    let table ← source.declare options.redefinition
    let build ← source.build table
    return {
      file := source.file
      lines := source.lines
      table
      hidden := source.hiddenNames.map fun h => (h.1, h.2.number)
      records := build.records
      functions := build.functions.spans }) := by
  simp [ofSource, SourceFile.declare]

/-- A file that is added to a sound program. -/
theorem fault_of_assemble (sound : s.program.Sound)
    (run : assemble options file text s = .error (.fault f) t) :
    f = .overflow ∨ f = .missingLine ∧ ∃ key line, s.program.LosesNote options.redefinition file
      (Text.lines text.toList).length key line t := by
  let F (f : Fault) (t : Session) : Prop := f = .overflow ∨ f = .missingLine ∧ ∃ key line,
    s.program.LosesNote options.redefinition file (Text.lines text.toList).length key line t
  suffices h : FaultsOnly F (assemble options file text) s from h.fault run
  apply FaultsOnly.bind (SourceFile.faultsOnly_read file text)
  intro source u hRead
  have same := program_of_read hRead
  obtain ⟨rfl, read⟩ := SourceFile.read_eq_ok hRead
  have made : FaultsOnly F (ofSource options source) u := by
    rw [ofSource_eq_bind]
    rw [← same] at sound
    have lost {key : String} {line : Nat} {t : Session} (h : u.program.LosesNote
        options.redefinition source.file source.lines.length key line t) : F .missingLine t := by
      rw [same, SourceFile.length_of_read hRead] at h
      exact .inr ⟨rfl, key, line, h⟩
    apply FaultsOnly.bind (SourceFile.faultsOnly_declare sound.named read lost)
    intro table v hDeclare
    have declared := SourceFile.declare_eq_ok read hDeclare
    apply FaultsOnly.bind (SourceFile.faultsOnly_build (fun _ => .inl rfl) declared.names
      (declared.sound sound).named read)
    intro build w _
    exact .pure _
  -- Taking the program back leaves the log as it is.
  constructor
  intro f t run
  obtain ⟨v, stopped, rfl⟩ := undoing_eq_error.mp run
  rcases made.fault stopped with overflow | ⟨missing, key, line, lost⟩
  · exact .inl overflow
  · exact .inr ⟨missing, key, line, lost.warns, lost.first, lost.beyond, lost.warning⟩

end ObjectFile

section Files

variable {sources : List (String × String)} {options : Options} {objects : List ObjectFile}
  {s : Session} (run : assembleFiles sources options .empty = .ok objects s)
include run

/-- An assembled file has been read from one of the sources. -/
theorem ObjectFile.read_of_mem {o : ObjectFile} (member : o ∈ objects) :
    ∃ text r t, (o.file, text) ∈ sources ∧ SourceFile.read o.file text r = .ok o.source t := by
  have each : List.Forall₂ (fun source (o : ObjectFile) => o.file = source.1 ∧
      ∃ r t, SourceFile.read o.file source.2 r = .ok o.source t) sources objects := by
    refine (mapM_keeps (fun _ => True) (fun source _ o u v _ step => ⟨trivial, ?_⟩) trivial run).2
    obtain ⟨hFile, w, build, stages⟩ := stages_of_assemble step
    obtain ⟨read, hRead, -⟩ := stages.builtIn
    exact ⟨hFile, u, read, hRead⟩
  obtain ⟨⟨file, text⟩, inside, rfl, r, t, hRead⟩ := Runs.exists_left_of_forall₂ each member
  exact ⟨text, r, t, inside, hRead⟩

/-- A name of the program was declared by one of the files, in the line where its symbol has its
place. -/
theorem Program.declares_of_find? {key : String} {x : SymbolId} {sym : Symbol}
    (found : s.program.table.find? key = some x) (hSym : s.program.symbols.get? x = some sym) :
    ∃ text source r t, (sym.place.file, text) ∈ sources ∧
      SourceFile.read sym.place.file text r = .ok source t ∧
      source.Declares key sym.place.line := by
  have files := assembled_of_assembleFiles run
  rw [files.find? key] at found
  obtain ⟨o, member, own⟩ := List.exists_of_findSome?_eq_some found
  obtain ⟨before, after, made, -, extends_⟩ := files.made_of_mem member
  obtain ⟨new, owner, name, ⟨first, hFirst, rfl, rfl⟩, rfl⟩ := (made.key key x).mp own
  obtain ⟨d, hd, place⟩ := made.declared.place new hFirst
  obtain ⟨later, hLater, same, -⟩ := extends_.symbols hFirst
  obtain rfl := Option.some.inj (hLater.symm.trans hSym)
  have place' : later.place = ⟨o.file, d.line⟩ := by
    rw [← place, same]
  have isLabel := List.find?_some hd
  simp only [decide_eq_true_eq] at isLabel
  obtain ⟨text, r, t, inside, hRead⟩ := ObjectFile.read_of_mem run member
  rw [place']
  refine ⟨text, o.source, r, t, inside, hRead, d, List.mem_of_find?_eq_some hd, rfl, ?_⟩
  rw [isLabel.1, isLabel.2]
  rfl

end Files

/-! ### Images -/

theorem Scope.onlyOverflows_lookup {scope : Scope} (named : scope.program.Named)
    (known : ∀ x, scope.global = some x → (scope.program.symbols.mangled? x).isSome)
    (name : String) : OnlyOverflows (scope.lookup name) := by
  have finds : OnlyOverflows (scope.find name) := by
    apply OnlyOverflows.bind (SymbolStore.onlyOverflows_resolve known)
    intro found _
    split
    · exact .ok _
    · exact .error _
  apply OnlyOverflows.bind finds
  intro x found
  obtain ⟨key, hKey, -⟩ := SymbolStore.exists_key_of_resolve (find_eq_ok.mp found)
  obtain ⟨sym, hSym⟩ := SymbolStore.exists_get?_of_mangled? (named key x hKey)
  apply OnlyOverflows.bind (.orFault (by simp [hSym]))
  intro sym _
  split
  · exact .ok _
  · exact .error _
  · exact .error _

section Evaluation

variable {scope : Scope} (lookup : ∀ name, OnlyOverflows (scope.lookup name))
include lookup

theorem Expr.onlyOverflows_eval (e : Expr) (slot : Slot) : OnlyOverflows (e.eval slot scope) := by
  have sum (ts : List Term) : OnlyOverflows (sumTerms scope ts) := by
    induction ts with
    | nil => exact .ok _
    | cons t ts ih =>
      have first : OnlyOverflows (termValue scope t) := by
        unfold termValue
        split
        · exact .ok _
        · exact (lookup _).map _
        · exact .ok _
      apply OnlyOverflows.bind first
      intro value _
      exact .bind ih fun _ _ => .ok _
  apply OnlyOverflows.bind (.mapError _)
  intro _ _
  apply OnlyOverflows.bind (sum e.terms)
  intro value _
  split
  · exact .mapError _
  · exact .overflow

theorem Content.onlyOverflows_words (c : Content) : OnlyOverflows (c.words scope) := by
  cases c with
  | operation o =>
    refine OnlyOverflows.map (.bind (.mapM fun p _ => ?_) fun operands _ => ?_) _
    · exact .bind (p.2.onlyOverflows_eval lookup p.1) fun _ _ => .ok _
    · split
      · exact .ok _
      · exact .error _
  | data words => exact .ok _
  | mark => exact .ok _

end Evaluation

theorem Content.eq_overflow_of_measure {c : Content} {f : Fault} (h : c.measure = .error f) :
    f = .overflow := by
  cases c with
  | operation o =>
    rw [Content.measure] at h
    split at h
    · cases h
    · cases h
      rfl
  | data words => cases h
  | mark => cases h

namespace Record

theorem onlyOverflows_endFrom (r : Record) (address : Nat) : OnlyOverflows (r.endFrom address) := by
  unfold endFrom
  split
  · exact .error _
  · split
    · next f failed =>
      rw [Content.eq_overflow_of_measure failed]
      exact .overflow
    · split
      · exact .error _
      · exact .ok _

theorem onlyOverflows_placeAll {symbols : SymbolStore} {address : Nat} {rs : List Record}
    (inside : ∀ r ∈ rs, ∀ x ∈ r.defined, x < symbols.size) :
    OnlyOverflows (placeAll symbols address rs).result := by
  induction rs generalizing symbols address with
  | nil => exact .ok _
  | cons r rs ih =>
    unfold placeAll
    split
    · next e stopped => exact (r.onlyOverflows_endFrom address).of_stop stopped
    · have fits : (r.placeAt? symbols address).isSome := by
        rw [isSome_placeAt?, List.all_eq_true]
        intro x bound
        exact decide_eq_true (inside r (by simp) x bound)
      split
      · next failed =>
        rw [failed] at fits
        cases fits
      · next placed later done =>
        obtain ⟨-, set⟩ := placeAt?_eq_some done
        refine ih fun r' member x bound => ?_
        rw [SymbolStore.size_of_unmarked (SymbolStore.unmarked_setAddresses set)]
        exact inside r' (List.mem_cons_of_mem _ member) x bound

theorem onlyOverflows_fillAll {program : Program} {keepGoing : Bool} {rs : List Record}
    (each : ∀ r ∈ rs, OnlyOverflows (r.content.words (r.scopeIn program))) :
    OnlyOverflows (fillAll program keepGoing rs).result := by
  induction rs with
  | nil => exact .ok _
  | cons r rs ih =>
    have rest := ih fun r' member => each r' (List.mem_cons_of_mem _ member)
    have first := each r (by simp)
    unfold fillAll
    dsimp only
    split
    · exact rest
    · next f failed =>
      rw [first.fault failed]
      exact .overflow
    · split
      · split
        · next f failed =>
          unfold zeroed at failed
          cases measured : r.content.measure with
          | ok size =>
            rw [measured] at failed
            cases failed
          | error f' =>
            rw [measured] at failed
            cases failed
            rw [Content.eq_overflow_of_measure measured]
            exact .overflow
        · exact rest
      · exact .error _

/-- The operands of the record are evaluated below a symbol of the program, if below any. -/
def InScope (r : Record) (p : Program) : Prop :=
  r.content ≠ .mark → ∀ x, r.scope = some x → (p.symbols.mangled? x).isSome

theorem InScope.onlyOverflows_words {r : Record} {p : Program} (h : r.InScope p)
    (named : p.Named) : OnlyOverflows (r.content.words (r.scopeIn p)) := by
  by_cases mark : r.content = .mark
  · rw [mark]
    exact .ok _
  · exact Content.onlyOverflows_words (Scope.onlyOverflows_lookup named (h mark)) _

end Record

theorem ObjectFile.Made.inScope {o : ObjectFile} {p q r : Program} (made : o.Made p q)
    (later : q.Extends r) {record : Record} (member : record ∈ o.records) : record.InScope r := by
  intro notMark x same
  rcases (made.records record member).content with mark | ⟨before, line, after, -, -, -, owner, -⟩
  · exact absurd mark notMark
  · obtain ⟨key, named⟩ := Option.isSome_iff_exists.mp (owner.isSome_mangled? made.linked same)
    rw [later.symbols.identityIn.mangled? named]
    rfl

namespace Image

variable {options : Options} {image : Image} {p : Program} {objects : List ObjectFile}

theorem isSome_addEnd (p : Program) : (addEnd p).isSome := by
  cases added : p.symbols.add? ⟨linkerFile, 0⟩ endName none with
  | none => cases added
  | some result =>
    obtain ⟨id, symbols⟩ := result
    obtain ⟨rfl, -⟩ := SymbolStore.size_add added
    have found := SymbolStore.get?_add added p.symbols.size
    rw [if_pos rfl] at found
    simp [addEnd, added, SymbolStore.define?, found]

theorem onlyOverflows_link (named : p.Named) : OnlyOverflows (link p objects options) := by
  unfold link
  split
  · next id found =>
    obtain ⟨sym, hSym⟩ := SymbolStore.exists_get?_of_mangled? (named _ _ found)
    exact .bind (.orFault (by simp [hSym])) fun _ _ => .error _
  · apply OnlyOverflows.bind (.orFault (isSome_addEnd p))
    rintro ⟨id, q⟩ _
    dsimp only
    split
    · exact .bind ((OnlyOverflows.mapError _).map _) fun _ _ => .ok _
    · exact .ok _

/-- The symbols that records and the sentinel bind, and those that names are local to, are there. -/
structure InRange (image : Image) : Prop where
  named : image.program.Named
  bound : ∀ r ∈ image.records, ∀ x ∈ r.defined, x < image.program.symbols.size
  sentinel : ∀ x ∈ image.sentinel.defined, x < image.program.symbols.size
  scopes : ∀ r ∈ image.records, r.InScope image.program

theorem InRange.onlyOverflows_place (h : image.InRange) : OnlyOverflows image.place.1 := by
  unfold place
  dsimp only
  split
  · next e stopped => exact (Record.onlyOverflows_placeAll h.bound).of_stop stopped
  · next address _ =>
    rw [result_placeSentinel, if_pos]
    · exact .ok _
    · refine .inr (List.all_eq_true.mpr fun x bound => decide_eq_true ?_)
      have size := SymbolStore.size_of_unmarked (Record.settled_of_placeAll image.program.symbols
        image.baseAddress.toNat image.records).unmarked
      exact Nat.lt_of_lt_of_eq (h.sentinel x bound) size.symm

/-- Placing changes addresses only. -/
theorem InRange.place (h : image.InRange) : image.place.2.InRange := by
  obtain ⟨table, settled⟩ := image.settled_of_place
  have shape := image.sameShape_place
  -- Up to addresses and words the records are those before.
  have old : ∀ r ∈ image.place.2.records, ∃ address words,
      { r with address := address, words := words } ∈ image.records := by
    intro r member
    have bare := List.mem_map_of_mem (f := Record.bare) member
    rw [shape.records] at bare
    obtain ⟨r', inside, same⟩ := List.mem_map.mp bare
    obtain ⟨address, words, rfl⟩ := Record.exists_of_bare same
    exact ⟨address, words, inside⟩
  refine ⟨fun key x found => ?_, fun r member x bound => ?_, fun x bound => ?_,
    fun r member notMark x same => ?_⟩
  · rw [SymbolStore.mangled?_of_unmarked settled.unmarked]
    exact h.named key x (table ▸ found)
  · obtain ⟨address, words, inside⟩ := old r member
    rw [shape.size]
    exact h.bound _ inside x bound
  · obtain ⟨address, words, same⟩ := Record.exists_of_bare shape.sentinel
    rw [same] at bound
    rw [shape.size]
    exact h.sentinel x bound
  · obtain ⟨address, words, inside⟩ := old r member
    rw [SymbolStore.mangled?_of_unmarked settled.unmarked]
    exact h.scopes _ inside notMark x same

theorem InRange.onlyOverflows_fill (h : image.InRange) : OnlyOverflows image.fill.1 := by
  have words (r : Record) (member : r ∈ image.records) :
      OnlyOverflows (r.content.words (r.scopeIn image.program)) :=
    (h.scopes r member).onlyOverflows_words h.named
  unfold fill
  dsimp only
  split
  · next e stopped => exact (Record.onlyOverflows_fillAll words).of_stop stopped
  · exact .ok _

theorem inRange_of_link {sources : List (String × String)} {s : Session}
    (files : Assembled .empty sources objects s.program)
    (hLink : link s.program objects options = .ok image) : image.InRange := by
  have before := files.sound Session.sound_empty
  obtain ⟨free, id, q, first, hEnd, hFirst, rfl⟩ := link_eq_ok hLink
  have extends_ := extends_of_addEnd free hEnd
  have size := extends_.symbols.size_le
  refine ⟨(sound_of_addEnd free hEnd before).1.named, fun r member x bound => ?_, fun x bound => ?_,
    fun r member => ?_⟩
  · have below := (bound_records hFirst files).2 x (List.mem_flatMap.mpr ⟨r, member, bound⟩)
    exact Nat.lt_of_lt_of_le below size
  · obtain ⟨rfl, -, symbols⟩ := addEnd_eq_some hEnd
    rw [List.mem_singleton.mp bound]
    exact SymbolStore.lt_size_of_get? ((symbols s.program.symbols.size).trans (if_pos rfl))
  · rcases mem_unplaced hFirst member with ⟨entry, -, jump⟩ | ⟨o, inside, inFile⟩
    · obtain ⟨target, -, rfl⟩ := entryJump_eq_ok jump
      intro _ x none
      cases none
    · obtain ⟨_, _, made, -, later⟩ := files.made_of_mem inside
      exact made.inScope (later.trans extends_) inFile

end Image

/-- Once the files have been assembled, every symbol is there. -/
theorem onlyOverflows_of_assembleFiles {sources : List (String × String)} {options : Options}
    {objects : List ObjectFile} {s : Session}
    (run : assembleFiles sources options .empty = .ok objects s) :
    OnlyOverflows (assemble sources options).result := by
  have files := assembled_of_assembleFiles run
  have links : OnlyOverflows (Image.link s.program objects options) :=
    Image.onlyOverflows_link (files.sound Session.sound_empty).1.named
  unfold assemble
  rw [run]
  dsimp only
  split
  · next e stopped => exact links.of_stop stopped
  · next image hLink =>
    have inRange := Image.inRange_of_link files hLink
    split
    · next e _ stopped =>
      have places := inRange.onlyOverflows_place
      rw [stopped] at places
      exact places.of_stop rfl
    · next image' hPlace =>
      have placed := inRange.place
      rw [hPlace] at placed
      exact placed.onlyOverflows_fill.map _

/-- Two sources are files with the name `file`, and the earlier one declares a label with the
mangled name `key` in a line that the later one does not have. -/
def DeclaredBeyond (sources : List (String × String)) (file key : String) : Prop :=
  ∃ before first between later after,
    sources = before ++ (file, first) :: between ++ (file, later) :: after ∧
    ∃ source r t line, SourceFile.read file first r = .ok source t ∧ source.Declares key line ∧
      (Text.lines later.toList).length ≤ line

theorem DeclaredBeyond.not_nodup {sources : List (String × String)} {file key : String}
    (h : DeclaredBeyond sources file key) : ¬ (sources.map Prod.fst).Nodup := by
  obtain ⟨before, first, between, later, after, rfl, -⟩ := h
  intro distinct
  rw [List.append_assoc, List.map_append, List.nodup_append] at distinct
  simp at distinct

/-- A fault while files are assembled. -/
theorem fault_of_assembleFiles {sources : List (String × String)} {options : Options} {f : Fault}
    {t : Session} (run : assembleFiles sources options .empty = .error (.fault f) t)
    (other : f ≠ .overflow) :
    f = .missingLine ∧ options.redefinition = .warn ∧ ∃ file key,
      DeclaredBeyond sources file key ∧
      ∃ log d, t.log = log ++ [d] ∧ d.Redefines key ∧ d.file = file := by
  -- The files before the one that stops have been assembled, and one of them has the name first.
  obtain ⟨earlier, ⟨file, later⟩, after, objects, s, rfl, went, stops⟩ := mapM_eq_error run
  have files := assembled_of_assembleFiles went
  have sound := (files.sound Session.sound_empty).1
  rcases ObjectFile.fault_of_assemble sound stops with overflow | ⟨missing, key, line, lost⟩
  · exact absurd overflow other
  · obtain ⟨x, sym, found, hSym, place⟩ := lost.first
    obtain ⟨first, source, r, u, member, hRead, declares⟩ :=
      Program.declares_of_find? went found hSym
    rw [place] at member hRead declares
    obtain ⟨before, between, rfl⟩ := List.append_of_mem member
    exact ⟨missing, lost.warns, file, key, ⟨before, first, between, later, after, rfl, source, r, u,
      line, hRead, declares, lost.beyond⟩, lost.warning⟩

/-- If an image is made, its end symbol is there and it can be listed.  If a symbol or a line is
missing, it is the line that the note about a redefined name would show. -/
theorem indexSafe_of_assemble (sources : List (String × String)) (options : Options) :
    (∀ image, (assemble sources options).result = .ok image →
      (image.program.symbols.get? image.endSymbol).isSome ∧ image.listing?.isSome) ∧
    (∀ f, (assemble sources options).result = .error (.fault f) → f ≠ .overflow →
      f = .missingLine ∧ options.redefinition = .warn ∧ ∃ file key,
        DeclaredBeyond sources file key ∧
        ∃ log d, (assemble sources options).log = log ++ [d] ∧ d.Redefines key ∧ d.file = file) ∧
    ((sources.map Prod.fst).Nodup →
      ∀ f, (assemble sources options).result = .error (.fault f) → f = .overflow) := by
  have missing : ∀ f, (assemble sources options).result = .error (.fault f) → f ≠ .overflow →
      f = .missingLine ∧ options.redefinition = .warn ∧ ∃ file key,
        DeclaredBeyond sources file key ∧ ∃ log d,
          (assemble sources options).log = log ++ [d] ∧ d.Redefines key ∧ d.file = file := by
    intro f h other
    cases run : assembleFiles sources options .empty with
    | ok objects s => exact absurd ((onlyOverflows_of_assembleFiles run).fault h) other
    | error e t =>
      unfold assemble at h ⊢
      rw [run] at h ⊢
      cases h
      exact fault_of_assembleFiles run other
  refine ⟨fun image h => ?_, missing, fun distinct f h => ?_⟩
  · obtain ⟨s, -, finished⟩ := Image.finished_of_assemble h
    obtain ⟨sym, found, -⟩ := finished.endMark
    obtain ⟨rows, listed, -⟩ := finished.exists_rows (Image.sound_of_assemble h).1
    exact ⟨by simp [found], by simp [Image.listing?, listed]⟩
  · by_contra other
    obtain ⟨-, -, file, key, beyond, -⟩ := missing f h other
    exact beyond.not_nodup distinct

/-- The second file has the name of the first and defines its label again, but it is shorter. -/
theorem indexSafe_shorter_file :
    let sources := [("a.s", "\n\n:main set a, 1"), ("b.s", ":other"), ("a.s", ":main set b, 2")]
    let options : Options := { redefinition := .warn }
    (assemble sources options).result = .error (.fault .missingLine) ∧
      ∃ file key, DeclaredBeyond sources file key ∧ ∃ log d,
        (assemble sources options).log = log ++ [d] ∧ d.Redefines key ∧ d.file = file := by
  intro sources options
  have stops : (assemble sources options).result = .error (.fault .missingLine) := by
    decide +kernel
  have safe := (indexSafe_of_assemble sources options).2.1 .missingLine stops (by decide)
  exact ⟨stops, safe.2.2⟩

end Dcpu16
