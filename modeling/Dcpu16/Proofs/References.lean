import Dcpu16.Proofs.Appending
import Dcpu16.Proofs.BindingStability
import Dcpu16.Proofs.Decoding

/-! References to symbols.  A symbol is noted to be referred to when a name in an operand is bound
to it, and when its address is looked up.  If nothing was reported, those are the symbols that the
names in the operands of the image stand for, and all others are unreferenced. -/

namespace Dcpu16

open Assembler

namespace SymbolStore

variable {s t : SymbolStore} {x : SymbolId}

/-- Has anything been noted to refer to the symbol? -/
def isReferenced (s : SymbolStore) (x : SymbolId) : Bool :=
  (s.get? x).any Symbol.referenced

theorem isReferenced_modify (s : SymbolStore) (id x : SymbolId) {f : Symbol → Symbol}
    (keeps : ∀ sym, (f sym).referenced = sym.referenced) :
    (s.modify id f).isReferenced x = s.isReferenced x := by
  rw [isReferenced, isReferenced, get?_modify]
  split
  · cases s.get? x <;> simp [keeps]
  · rfl

theorem isReferenced_add {place : Place} {name : String} {parent : Option SymbolId} {id : SymbolId}
    (added : s.add? place name parent = some (id, t)) (x : SymbolId) :
    t.isReferenced x = s.isReferenced x := by
  rw [isReferenced, isReferenced, get?_add added]
  split
  · next last =>
    have absent : s.get? x = none := by
      cases found : s.get? x with
      | none => rfl
      | some sym =>
        have inside := lt_size_of_get? found
        omega
    rw [absent]
    rfl
  · cases s.get? x with
    | none => rfl
    | some sym =>
      simp only [Option.map_some, Option.any_some]
      split <;> rfl

theorem isReferenced_setAddresses {ids : List SymbolId} {word : Word}
    (h : ids.foldlM (fun s id => s.setAddress? id word) s = some t) (x : SymbolId) :
    t.isReferenced x = s.isReferenced x := by
  refine Runs.foldlM_some_keeps (fun u => u.isReferenced x = s.isReferenced x)
    (fun id _ u v before step => ?_) rfl h
  simp only [setAddress?, Option.ite_none_right_eq_some, Option.some.injEq] at step
  obtain ⟨-, rfl⟩ := step
  refine (isReferenced_modify u id x ?_).trans before
  intro sym
  rfl

theorem isReferenced_markReferenced (ids : List SymbolId) (s : SymbolStore) (x : SymbolId) :
    (ids.foldl markReferenced s).isReferenced x =
      (s.isReferenced x || decide (x ∈ ids) && (s.get? x).isSome) := by
  rw [isReferenced, isReferenced, get?_markReferenced]
  by_cases member : x ∈ ids
  · cases s.get? x <;> simp [member]
  · simp [member]

theorem of_isReferenced_markReferenced {ids : List SymbolId}
    (h : (ids.foldl markReferenced s).isReferenced x) : s.isReferenced x ∨ x ∈ ids := by
  rw [isReferenced_markReferenced, Bool.or_eq_true, Bool.and_eq_true] at h
  exact h.imp_right fun both => of_decide_eq_true both.1

end SymbolStore

/-! ### Names and what they stand for -/

/-- A name in the file stands for the symbol, and `bound` is the mangled name of the symbol. -/
def Program.Binds (p : Program) (file : String) (scope : Option SymbolId) (bound : String)
    (x : SymbolId) : Prop :=
  ∃ name, p.resolve file name scope = .ok (some x) ∧ p.symbols.mangled? x = some bound

/-- The record has a name that was bound to the symbol. -/
def Record.Binds (p : Program) (r : Record) (x : SymbolId) : Prop :=
  ∃ bound ∈ r.content.references, p.Binds r.file r.scope bound x

/-- A name in an operand of the record stands for the symbol. -/
def Record.RefersTo (p : Program) (r : Record) (x : SymbolId) : Prop :=
  ∃ name ∈ r.content.references, (r.scopeIn p).find name = .ok x

/-- Every reference that is noted from `s` to `t` is one of those in `new`. -/
def Session.NotesOnly (s : Session) (new : SymbolId → Prop) (t : Session) : Prop :=
  ∀ x, t.program.symbols.isReferenced x → s.program.symbols.isReferenced x ∨ new x

theorem Session.NotesOnly.of_eq {new : SymbolId → Prop} {s t : Session}
    (same : ∀ x, t.program.symbols.isReferenced x = s.program.symbols.isReferenced x) :
    s.NotesOnly new t :=
  fun x marked => .inl (same x ▸ marked)

/-! ### References that a file takes note of -/

namespace SourceFile

variable {source : SourceFile} {policy : Redefinition} {table : SymbolTable} {s t : Session}
  {p : Program} {n : Nat} {bound : List SymbolId} {scope : Option SymbolId} {line : SourceLine}
  {build build' : Build}

/-- While labels are declared no reference is noted. -/
theorem isReferenced_of_declare (run : source.declare policy s = .ok table t) (x : SymbolId) :
    t.program.symbols.isReferenced x = s.program.symbols.isReferenced x := by
  obtain ⟨labels, u, hLabels, run₁⟩ := bind_eq_ok.mp run
  obtain ⟨table, v, hHide, run₂⟩ := bind_eq_ok.mp run₁
  obtain ⟨_, w, hPublish, last⟩ := bind_eq_ok.mp run₂
  simp only [pure_apply, EStateM.Result.ok.injEq] at last
  obtain ⟨rfl, rfl⟩ := last
  obtain ⟨ending, u', hLines, last⟩ := bind_eq_ok.mp hLabels
  simp only [pure_apply, EStateM.Result.ok.injEq] at last
  obtain ⟨rfl, rfl⟩ := last
  let Same (t : Session) : Prop :=
    t.program.symbols.isReferenced x = s.program.symbols.isReferenced x
  have labels : Same u' := by
    refine foldlM_keeps (fun _ _ => Same) (fun _ line _ _ a b t t' before step => ?_) rfl hLines
    cases hLabel : line.statement.label with
    | none =>
      simp only [addLabel, hLabel, pure_apply, EStateM.Result.ok.injEq] at step
      exact step.2 ▸ before
    | some label =>
      obtain ⟨parent, key, -, -, -, ⟨first, -, same, -⟩ | ⟨-, id, symbols, added, same, -⟩⟩ :=
        addLabel_eq_ok hLabel step
      · exact (congrArg (·.symbols.isReferenced x) same).trans before
      · refine (congrArg (·.symbols.isReferenced x) same).trans ?_
        exact (SymbolStore.isReferenced_add added x).trans before
  have hidden : Same v := by
    refine foldlM_keeps (fun _ _ => Same) (fun _ name _ _ a b t t' before step => ?_) labels hHide
    rcases hideName_eq_ok step with ⟨id, -, hid⟩ | ⟨-, -, same⟩
    · obtain ⟨same, -⟩ := SymbolStore.hide?_eq_some.mp hid
      refine (congrArg (·.isReferenced x) same).trans ?_
      refine (SymbolStore.isReferenced_modify _ id x ?_).trans before
      intro sym
      rfl
    · exact (congrArg (·.isReferenced x) same).trans before
  exact (congrArg (·.isReferenced x) (publish_symbols hPublish)).trans hidden

/-- What the results of steps account for, one after the other. -/
theorem notesOnly_mapM {α β : Type} {g : β → Assembler α} (I : Session → Prop)
    {new : α → SymbolId → Prop} {xs : List β} {ys : List α}
    (step : ∀ x {y : α} {s t : Session}, I s → g x s = .ok y t → I t ∧ s.NotesOnly (new y) t)
    (start : I s) (run : xs.mapM g s = .ok ys t) :
    I t ∧ s.NotesOnly (fun x => ∃ y ∈ ys, new y x) t := by
  induction xs generalizing s ys with
  | nil =>
    simp only [List.mapM_nil, pure_apply, EStateM.Result.ok.injEq] at run
    obtain ⟨rfl, rfl⟩ := run
    exact ⟨start, .of_eq fun _ => rfl⟩
  | cons x xs ih =>
    rw [List.mapM_cons] at run
    obtain ⟨y, u, first, run₁⟩ := bind_eq_ok.mp run
    obtain ⟨ys', v, later, last⟩ := bind_eq_ok.mp run₁
    simp only [pure_apply, EStateM.Result.ok.injEq] at last
    obtain ⟨rfl, rfl⟩ := last
    obtain ⟨mid, here⟩ := step x start first
    obtain ⟨final, behind⟩ := ih mid later
    refine ⟨final, fun x marked => ?_⟩
    rcases behind x marked with before | ⟨y', member, new⟩
    · exact (here x before).imp_right fun new => ⟨y, by simp, new⟩
    · exact .inr ⟨y', List.mem_cons_of_mem y member, new⟩

theorem notesOnly_bindName {name named : String} (h : s.Building p n bound)
    (run : source.bindName scope name s = .ok named t) :
    s.NotesOnly (p.Binds source.file scope named) t := by
  obtain ⟨_, u, got, rest⟩ := bind_eq_ok.mp run
  cases got
  cases made : s.program.bindName source.file scope name with
  | error f =>
    simp only [made] at rest
    cases rest
  | ok result =>
    obtain ⟨text, id⟩ := result
    simp only [made] at rest
    obtain ⟨_, v, marked, last⟩ := bind_eq_ok.mp rest
    cases marked
    cases last
    intro x marked
    have noted : s.program.symbols.isReferenced x = true ∨ x ∈ id.toList :=
      SymbolStore.of_isReferenced_markReferenced marked
    rcases noted with before | member
    · exact .inl before
    · rw [h.program.bindName] at made
      rcases Program.bindName_eq_ok made with ⟨rfl, -⟩ | ⟨y, rfl, early, named⟩
      · simp at member
      · obtain rfl : x = y := by simpa using member
        exact .inr ⟨name, early, named⟩

theorem notesOnly_mapReferences {e e' : Expr} (h : s.Building p n bound)
    (run : e.mapReferences (source.bindName scope) s = .ok e' t) :
    t.Building p n bound ∧
      s.NotesOnly (fun x => ∃ named ∈ e'.references, p.Binds source.file scope named x) t := by
  obtain ⟨terms, u, made, last⟩ := bind_eq_ok.mp run
  simp only [pure_apply, EStateM.Result.ok.injEq] at last
  obtain ⟨rfl, rfl⟩ := last
  let New (term : Term) (x : SymbolId) : Prop :=
    ∃ named, term.reference? = some named ∧ p.Binds source.file scope named x
  obtain ⟨after, notes⟩ : u.Building p n bound ∧ s.NotesOnly (fun x => ∃ t ∈ terms, New t x) u := by
    refine notesOnly_mapM (Session.Building p n bound) (fun term term' s t hs step => ?_) h made
    obtain ⟨sign, atom⟩ := term
    cases atom with
    | reference name =>
      obtain ⟨named, v, run', last⟩ := bind_eq_ok.mp step
      simp only [pure_apply, EStateM.Result.ok.injEq] at last
      obtain ⟨rfl, rfl⟩ := last
      refine ⟨(bindName_eq_ok hs run').1, fun x marked => ?_⟩
      exact (notesOnly_bindName hs run' x marked).imp_right fun binds => ⟨named, rfl, binds⟩
    | _ =>
      simp only [pure_apply, EStateM.Result.ok.injEq] at step
      obtain ⟨rfl, rfl⟩ := step
      exact ⟨hs, .of_eq fun _ => rfl⟩
  refine ⟨after, fun x marked => (notes x marked).imp_right ?_⟩
  rintro ⟨term, member, named, refers, binds⟩
  exact ⟨named, List.mem_filterMap.mpr ⟨term, member, refers⟩, binds⟩

theorem notesOnly_content? {content? : Option Content} (h : s.Building p n bound)
    (run : source.content? line scope s = .ok content? t) :
    s.NotesOnly (fun x => ∃ content, content? = some content ∧
      ∃ named ∈ content.references, p.Binds source.file scope named x) t := by
  unfold SourceFile.content? at run
  cases body : line.statement.body with
  | empty =>
    simp only [body, pure_apply, EStateM.Result.ok.injEq] at run
    exact .of_eq fun _ => by rw [run.2]
  | unknown token =>
    simp only [body, pure_apply, EStateM.Result.ok.injEq] at run
    exact .of_eq fun _ => by rw [run.2]
  | instruction op written =>
    simp only [body] at run
    obtain ⟨operands, u, made, last⟩ := bind_eq_ok.mp run
    simp only [pure_apply, EStateM.Result.ok.injEq] at last
    obtain ⟨rfl, rfl⟩ := last
    have notes := (notesOnly_mapM (Session.Building p n bound)
      (fun e e' s t hs step => notesOnly_mapReferences hs step) h made).2
    refine fun x marked => (notes x marked).imp_right ?_
    rintro ⟨e, member, named, refers, binds⟩
    exact ⟨_, rfl, named, List.mem_flatMap.mpr ⟨e, member, refers⟩, binds⟩
  | directive d rest =>
    simp only [body] at run
    split at run
    · obtain ⟨words, u, made, last⟩ := bind_eq_ok.mp run
      obtain ⟨-, rfl⟩ := located_eq_ok.mp made
      simp only [pure_apply, EStateM.Result.ok.injEq] at last
      exact .of_eq fun _ => by rw [last.2]
    · simp only [pure_apply, EStateM.Result.ok.injEq] at run
      exact .of_eq fun _ => by rw [run.2]

theorem isReferenced_of_bindSymbols {place : Place} {ids defined : List SymbolId}
    (run : bindSymbols place ids s = .ok defined t) (x : SymbolId) :
    t.program.symbols.isReferenced x = s.program.symbols.isReferenced x := by
  induction ids generalizing s defined with
  | nil =>
    simp only [bindSymbols, pure_apply, EStateM.Result.ok.injEq] at run
    rw [run.2]
  | cons id ids ih =>
    obtain ⟨isNew, v, first, rest⟩ := bind_eq_ok.mp run
    obtain ⟨later, w, others, last⟩ := bind_eq_ok.mp rest
    simp only [pure_apply, EStateM.Result.ok.injEq] at last
    obtain ⟨-, rfl⟩ := last
    rw [ih others]
    obtain ⟨symbols, defined, rfl⟩ := define_eq_ok.mp first
    rcases SymbolStore.define?_eq_some.mp defined with ⟨-, rfl, -⟩ | ⟨-, rfl, -⟩
    · rfl
    · refine SymbolStore.isReferenced_modify _ id x ?_
      intro sym
      rfl

theorem isReferenced_of_addRecord {content : Content}
    (run : source.addRecord line content build s = .ok build' t) :
    (∀ x, t.program.symbols.isReferenced x = s.program.symbols.isReferenced x) ∧
      ∃ defined, build'.records = build.records ++
        [⟨source.file, line.number, line.text, build.scope, content, defined, none, none⟩] := by
  obtain ⟨defined, u, bound, last⟩ := bind_eq_ok.mp run
  simp only [pure_apply, EStateM.Result.ok.injEq] at last
  obtain ⟨rfl, rfl⟩ := last
  exact ⟨isReferenced_of_bindSymbols bound, defined, rfl⟩

theorem notesOnly_buildLine (h : s.Building p n bound)
    (run : source.buildLine table build line s = .ok build' t) :
    build.records ⊆ build'.records ∧
      s.NotesOnly (fun x => ∃ r ∈ build'.records, r.Binds p x) t := by
  obtain ⟨entered, u, hEnter, run₁⟩ := bind_eq_ok.mp run
  obtain ⟨marked, v, hMark, run₂⟩ := bind_eq_ok.mp run₁
  obtain ⟨content?, w, hContent, run₃⟩ := bind_eq_ok.mp run₂
  obtain ⟨records, rfl⟩ : entered.records = build.records ∧ s = u := by
    rcases enterLabel_eq_ok hEnter with ⟨-, rfl, same⟩ | ⟨label, id, -, found, rfl⟩
    · exact ⟨rfl, same⟩
    · exact ⟨rfl, (ownLabel_eq_ok found).2⟩
  obtain ⟨functions, log, -, rfl, rfl⟩ := markFunction_eq_ok hMark
  have notes := notesOnly_content? (Session.Building.ignoresLog s log h) hContent
  cases content? with
  | none =>
    cases run₃
    refine ⟨fun r member => ?_, fun x marked => (notes x marked).imp_right ?_⟩
    · rwa [records]
    · rintro ⟨content, none, -⟩
      cases none
  | some content =>
    obtain ⟨same, defined, added⟩ := isReferenced_of_addRecord run₃
    rw [added]
    refine ⟨fun r member => ?_, fun x marked => ?_⟩
    · rw [records]
      exact List.mem_append_left _ member
    · rw [same x] at marked
      refine (notes x marked).imp_right ?_
      rintro ⟨content', here, named, refers, binds⟩
      obtain rfl := Option.some.inj here
      exact ⟨_, List.mem_append_right _ (List.mem_singleton_self _), named, refers, binds⟩

/-- Building a file notes the symbols that names in its records are bound to. -/
theorem notesOnly_build {hidden : List String}
    (names : NamesHidden source n hidden table s.program.symbols) (read : source.WellRead)
    (run : source.build table s = .ok build t) :
    s.NotesOnly (fun x => ∃ r ∈ build.records, r.Binds s.program x) t := by
  rw [build_eq_bind] at run
  obtain ⟨lines, u, hLines, rest⟩ := bind_eq_ok.mp run
  obtain ⟨_, v, functions, closed⟩ := bind_eq_ok.mp rest
  have notes : s.NotesOnly (fun x => ∃ r ∈ lines.records, r.Binds s.program x) u := by
    refine (foldlM_keeps (fun done build t => Built source s.program n hidden table done build t ∧
      s.NotesOnly (fun x => ∃ r ∈ build.records, r.Binds s.program x) t)
      (fun done line rest split a b u v before step => ?_)
      ⟨Built.start names, .of_eq fun _ => rfl⟩ hLines).2
    obtain ⟨built, notes⟩ := before
    refine ⟨built.step split names (read.statement line (by simp [split])) step, fun x marked => ?_⟩
    obtain ⟨kept, here⟩ := notesOnly_buildLine built.session step
    rcases here x marked with earlier | new
    · exact (notes x earlier).imp_right fun ⟨r, member, binds⟩ => ⟨r, kept member, binds⟩
    · exact .inr new
  have program : v.program = u.program := by
    have keeps : Keeps (fun t => t.program = u.program) (source.closeFunctions lines) := by
      unfold SourceFile.closeFunctions
      split
      · exact (keeps_line _).bind fun _ => keeps_warn (fun _ _ h => h) _ _
      · exact .pure _
    exact ((keeps u rfl).ok functions).1
  rcases closeLabels_eq_ok closed with ⟨-, rfl, rfl⟩ | ⟨line, added⟩
  · intro x marked
    rw [program] at marked
    exact notes x marked
  · obtain ⟨same, defined, records⟩ := isReferenced_of_addRecord added
    intro x marked
    rw [same x, program] at marked
    refine (notes x marked).imp_right ?_
    rintro ⟨r, member, binds⟩
    rw [records]
    exact ⟨r, List.mem_append_left _ member, binds⟩

end SourceFile

/-! ### All files -/

/-- What a name has been bound to, the bound name refers to at the end. -/
theorem Record.Binds.refersTo {p q : Program} {r : Record} {x : SymbolId} (h : r.Binds p x)
    (sound : p.Sound) (stable : p.StableFor r.file q) : r.RefersTo q x := by
  obtain ⟨bound, refers, name, early, named⟩ := h
  exact ⟨bound, refers, Scope.find_eq_ok.mpr (sound.resolve_of_stable stable early named)⟩

theorem ObjectFile.Stages.notesOnly {options : Options} {text : String} {o : ObjectFile}
    {s t u : Session} {build : SourceFile.Build} (h : o.Stages options text s u t build) :
    s.NotesOnly (fun x => ∃ r ∈ o.records, r.Binds u.program x) t := by
  obtain ⟨lines, hRead, hDeclare⟩ := h.builtIn
  have same := program_of_read hRead
  intro x marked
  rw [h.records]
  refine (SourceFile.notesOnly_build h.declared.names h.wellRead h.run x marked).imp_left ?_
  intro before
  rwa [SourceFile.isReferenced_of_declare hDeclare, same] at before

theorem Assembled.stableFor {p q : Program} {sources : List (String × String)}
    {objects : List ObjectFile} (files : Assembled p sources objects q) {file : String}
    (differ : ∀ source ∈ sources, Symbol.fileName file ≠ Symbol.fileName source.1) :
    p.StableFor file q := by
  induction files with
  | nil p => exact .of_table rfl
  | @cons p q r source sources o objects same made _ ih =>
    have first : p.StableFor file q := made.stableFor (same ▸ differ source (by simp))
    exact first.trans (ih fun other member => differ other (List.mem_cons_of_mem source member))

theorem notesOnly_assembleFiles {sources : List (String × String)} {options : Options}
    {objects : List ObjectFile} {s t : Session} {final : Program}
    (run : assembleFiles sources options s = .ok objects t) (sound : s.program.Sound)
    (distinct : (sources.map fun source => Symbol.fileName source.1).Nodup)
    (ends : ∀ file, t.program.StableFor file final) :
    s.NotesOnly (fun x => ∃ r ∈ objects.flatMap ObjectFile.records, r.RefersTo final x) t := by
  induction sources generalizing s objects with
  | nil =>
    simp only [assembleFiles, List.mapM_nil, pure_apply, EStateM.Result.ok.injEq] at run
    exact .of_eq fun _ => by rw [run.2]
  | cons source sources ih =>
    unfold assembleFiles at run
    rw [List.mapM_cons] at run
    obtain ⟨o, v, first, run₁⟩ := bind_eq_ok.mp run
    obtain ⟨others, w, later, last⟩ := bind_eq_ok.mp run₁
    simp only [pure_apply, EStateM.Result.ok.injEq] at last
    obtain ⟨rfl, rfl⟩ := last
    obtain ⟨differ, distinct⟩ := List.nodup_cons.mp distinct
    obtain ⟨file, u, build, stages⟩ := ObjectFile.stages_of_assemble first
    have made := (ObjectFile.made_of_assemble first).2
    have behind := ih later (made.sound sound) distinct
    -- From the first bound name on, no file brings a name that only this file sees.
    have stable : u.program.StableFor o.file final := by
      have rest : v.program.StableFor o.file w.program := by
        refine (assembled_of_assembleFiles later).stableFor fun other member same => differ ?_
        exact List.mem_map.mpr ⟨other, member, by rw [← same, file]⟩
      exact (Program.StableFor.of_table stages.built.1.session.program.table).trans
        (rest.trans (ends o.file))
    intro x marked
    rcases behind x marked with before | ⟨r, member, refers⟩
    · refine (stages.notesOnly x before).imp_right ?_
      rintro ⟨r, member, binds⟩
      refine ⟨r, List.mem_append_left _ member, ?_⟩
      refine binds.refersTo (stages.declared.sound sound) ?_
      rwa [(made.records r member).file]
    · exact .inr ⟨r, List.mem_append_right _ member, refers⟩

/-! ### Looking symbols up -/

namespace Expr

variable {scope : Scope} {x : SymbolId} {names : List String}

theorem find_of_mem_lookedUp (member : x ∈ lookedUp scope names) :
    ∃ name ∈ names, scope.find name = .ok x := by
  induction names with
  | nil => cases member
  | cons name names ih =>
    unfold lookedUp at member
    cases found : scope.find name with
    | error e => simp [found] at member
    | ok y =>
      cases address : scope.addressOf name y with
      | error e =>
        obtain rfl : x = y := by simpa [found, address] using member
        exact ⟨name, by simp, found⟩
      | ok word =>
        simp only [found, address, List.mem_cons] at member
        rcases member with rfl | later
        · exact ⟨name, by simp, found⟩
        · obtain ⟨other, inside, here⟩ := ih later
          exact ⟨other, List.mem_cons_of_mem name inside, here⟩

/-- If all names have addresses, all of them are looked up. -/
theorem mem_lookedUp (all : ∀ name ∈ names, ∃ word, scope.lookup name = .ok word) {name : String}
    (member : name ∈ names) (found : scope.find name = .ok x) : x ∈ lookedUp scope names := by
  induction names with
  | nil => cases member
  | cons first names ih =>
    obtain ⟨word, hWord⟩ := all first (by simp)
    obtain ⟨y, hy⟩ : ∃ y, scope.find first = .ok y := by
      obtain ⟨y, -, resolved, -⟩ := Scope.exists_of_lookup hWord
      exact ⟨y, Scope.find_eq_ok.mpr resolved⟩
    rw [Scope.lookup_of_find hy] at hWord
    rw [lookedUp]
    simp only [hy, hWord, List.mem_cons]
    rcases List.mem_cons.mp member with rfl | later
    · exact .inl (Except.ok.inj (found.symm.trans hy))
    · exact .inr (ih (fun other inside => all other (List.mem_cons_of_mem first inside)) later)

end Expr

namespace Operation

variable {scope : Scope} {x : SymbolId} {operands : List (Slot × Expr)}

theorem find_of_mem_touchedBy (member : x ∈ touchedBy scope operands) :
    ∃ operand ∈ operands, ∃ name ∈ operand.2.references, scope.find name = .ok x := by
  have one {e : Expr} (here : x ∈ e.touched scope) :
      ∃ name ∈ e.references, scope.find name = .ok x := by
    unfold Expr.touched at here
    split at here
    · cases here
    · exact Expr.find_of_mem_lookedUp here
  induction operands with
  | nil => cases member
  | cons operand operands ih =>
    obtain ⟨slot, e⟩ := operand
    have here : x ∈ e.touched scope ∨ x ∈ touchedBy scope operands := by
      unfold touchedBy at member
      split at member
      · exact .inl member
      · exact List.mem_append.mp member
    rcases here with first | later
    · exact ⟨(slot, e), by simp, one first⟩
    · obtain ⟨operand, inside, found⟩ := ih later
      exact ⟨operand, List.mem_cons_of_mem _ inside, found⟩

/-- If all operands can be evaluated, every name in them is looked up. -/
theorem mem_touchedBy
    (all : ∀ operand ∈ operands, ∃ value, operand.2.eval operand.1 scope = .ok value)
    {operand : Slot × Expr} (member : operand ∈ operands) {name : String}
    (refers : name ∈ operand.2.references) (found : scope.find name = .ok x) :
    x ∈ touchedBy scope operands := by
  induction operands with
  | nil => cases member
  | cons first operands ih =>
    obtain ⟨slot, e⟩ := first
    obtain ⟨value, made⟩ := all (slot, e) (by simp)
    rw [touchedBy]
    simp only [made, List.mem_append]
    rcases List.mem_cons.mp member with rfl | later
    · obtain ⟨checked, -⟩ := Expr.eval_eq_ok.mp made
      refine .inl ?_
      rw [Expr.touched, checked]
      exact Expr.mem_lookedUp (fun other inside => Expr.lookup_of_eval made inside) refers found
    · exact .inr (ih (fun other inside => all other (List.mem_cons_of_mem _ inside)) later)

end Operation

namespace Record

variable {program : Program} {r : Record} {x : SymbolId}

theorem refersTo_of_touched (member : x ∈ r.content.touched (r.scopeIn program)) :
    r.RefersTo program x := by
  unfold Content.touched at member
  split at member
  · next o content =>
    obtain ⟨operand, placed, name, refers, found⟩ := Operation.find_of_mem_touchedBy member
    have operands : operand.2 ∈ o.operands := (List.of_mem_zip placed).2
    refine ⟨name, ?_, found⟩
    rw [content]
    exact List.mem_flatMap.mpr ⟨operand.2, operands, refers⟩
  · cases member
  · cases member

theorem Evaluates.touched {i : Instruction} (h : r.Evaluates program i)
    (refers : r.RefersTo program x) : x ∈ r.content.touched (r.scopeIn program) := by
  obtain ⟨o, content, evaluated⟩ := h
  obtain ⟨name, refers, found⟩ := refers
  rw [content] at refers ⊢
  obtain ⟨e, member, refers⟩ := List.mem_flatMap.mp refers
  obtain ⟨slot, placed⟩ := evaluated.exists_placed member
  exact Operation.mem_touchedBy (fun operand inside => evaluated.eval inside) placed refers found

end Record

/-! ### The image -/

theorem Program.unreferenced?_eq_some {p : Program} (sound : p.Sound) :
    p.unreferenced? =
      some ((p.table.entries.filter fun e => !p.symbols.isReferenced e.2).map Prod.fst) := by
  have present : ∀ e ∈ p.table.entries, ∃ sym, p.symbols.get? e.2 = some sym := by
    intro e member
    have named := sound.named _ _ (NameTable.find?_of_mem sound.distinct member)
    exact SymbolStore.exists_get?_of_mangled? named
  unfold unreferenced?
  generalize p.table.entries = entries at present
  induction entries with
  | nil => rfl
  | cons e entries ih =>
    obtain ⟨sym, found⟩ := present e (by simp)
    have rest := ih fun other member => present other (List.mem_cons_of_mem e member)
    have noted : p.symbols.isReferenced e.2 = sym.referenced := by
      rw [SymbolStore.isReferenced, found, Option.any_some]
    simp only [Option.bind_eq_bind, Option.bind_eq_some_iff, Option.pure_def,
      Option.some.injEq] at rest
    obtain ⟨named, all, same⟩ := rest
    rw [List.mapM_cons]
    simp only [found, all, Option.bind_eq_bind, Option.bind_some, Option.pure_def,
      List.filter_cons, noted]
    split
    · rw [List.map_cons, List.map_cons, same]
    · rw [same]

namespace Image

variable {sources : List (String × String)} {options : Options} {image : Image}

/-- The end symbol is new, and nothing has referred to it. -/
theorem isReferenced_of_link {p : Program} {objects : List ObjectFile}
    (h : link p objects options = .ok image) (x : SymbolId) :
    image.program.symbols.isReferenced x = p.symbols.isReferenced x := by
  obtain ⟨free, id, q, first, hEnd, -, rfl⟩ := link_eq_ok h
  obtain ⟨-, -, symbols⟩ := addEnd_eq_some hEnd
  show q.symbols.isReferenced x = _
  rw [SymbolStore.isReferenced, SymbolStore.isReferenced, symbols]
  split
  · next last =>
    cases found : p.symbols.get? x with
    | none => rfl
    | some sym =>
      have below := SymbolStore.lt_size_of_get? found
      omega
  · rfl

theorem isReferenced_of_place (image : Image) (x : SymbolId) :
    image.place.2.program.symbols.isReferenced x = image.program.symbols.isReferenced x :=
  image.place_keeps (P := fun t => t.isReferenced x = image.program.symbols.isReferenced x)
    (fun set before => (SymbolStore.isReferenced_setAddresses set x).trans before) rfl

/-- Filling an image notes what its records look up. -/
theorem isReferenced_of_fill {placed : Image} {log : Log}
    (h : placed.fill = (.ok (), log, image)) {x : SymbolId} :
    image.program.symbols.isReferenced x ↔ placed.program.symbols.isReferenced x ∨
      (image.program.symbols.get? x).isSome ∧
        ∃ r ∈ image.records, x ∈ r.content.touched (r.scopeIn image.program) := by
  obtain ⟨records, closing, filled, -, rfl⟩ := fill_eq_ok h
  let ids := placed.records.flatMap fun r => r.content.touched (r.scopeIn placed.program)
  show (ids.foldl SymbolStore.markReferenced placed.program.symbols).isReferenced x ↔ _ ∨
    ((ids.foldl SymbolStore.markReferenced placed.program.symbols).get? x).isSome ∧ _
  have present : ((ids.foldl SymbolStore.markReferenced placed.program.symbols).get? x).isSome =
      (placed.program.symbols.get? x).isSome := by
    rw [SymbolStore.get?_markReferenced]
    split
    · rw [Option.isSome_map]
    · rfl
  have member : x ∈ ids ↔
      ∃ r ∈ records, x ∈ r.content.touched (r.scopeIn (placed.program.markReferenced ids)) := by
    rw [List.mem_flatMap]
    constructor
    · rintro ⟨r, inside, touched⟩
      obtain ⟨f, listed, same⟩ := Runs.exists_right_of_forall₂ filled inside
      exact ⟨f, listed, same.touched_eq ids ▸ touched⟩
    · rintro ⟨f, listed, touched⟩
      obtain ⟨r, inside, same⟩ := Runs.exists_left_of_forall₂ filled listed
      exact ⟨r, inside, same.touched_eq ids ▸ touched⟩
  rw [SymbolStore.isReferenced_markReferenced, present, Bool.or_eq_true, Bool.and_eq_true,
    decide_eq_true_eq, member, and_comm]

/-- A name that stands for a symbol is the name of one that there is. -/
theorem isSome_of_refersTo {p : Program} (sound : p.Sound) {r : Record} {x : SymbolId}
    (refers : r.RefersTo p x) : (p.symbols.get? x).isSome := by
  obtain ⟨name, -, found⟩ := refers
  obtain ⟨key, listed, -⟩ := SymbolStore.exists_key_of_resolve (Scope.find_eq_ok.mp found)
  obtain ⟨sym, present⟩ := SymbolStore.exists_get?_of_mangled? (sound.named key x listed)
  rw [present]
  rfl

variable (h : (assemble sources options).result = .ok image)
  (quiet : (assemble sources options).log.hasError = false)
  (distinct : (sources.map fun source => Symbol.fileName source.1).Nodup)

include h quiet distinct

/-- The symbols that are noted to be referred to are those that names in operands stand for. -/
theorem isReferenced_iff (x : SymbolId) : image.program.symbols.isReferenced x ↔
    ∃ r ∈ image.records, r.RefersTo image.program x := by
  obtain ⟨objects, s, linked, placed, log, files, hLink, hPlace, hFill, -⟩ := assemble_eq_ok h
  obtain ⟨s', files', finished⟩ := finished_of_assemble h
  obtain ⟨s'', files'', stage⟩ := stage_of_assemble h
  cases files.symm.trans files'
  cases files.symm.trans files''
  have before : placed.program.symbols.isReferenced x = s.program.symbols.isReferenced x := by
    have place := isReferenced_of_place linked x
    rw [hPlace] at place
    exact place.trans (isReferenced_of_link hLink x)
  rw [isReferenced_of_fill hFill, before]
  constructor
  · rintro (noted | ⟨-, r, member, touched⟩)
    · rcases notesOnly_assembleFiles files Session.sound_empty.1 distinct
        (stableFor_of_stage stage) x noted with early | ⟨r, member, refers⟩
      · simp [SymbolStore.isReferenced, Session.get?_empty] at early
      · obtain ⟨first, -, same⟩ := finished.map_bare
        have listed : r ∈ image.records.map Record.bare := by
          rw [same]
          exact List.mem_append_right _ member
        obtain ⟨r', inside, rfl⟩ := List.mem_map.mp listed
        exact ⟨r', inside, refers⟩
    · exact ⟨r, member, Record.refersTo_of_touched touched⟩
  · rintro ⟨r, member, refers⟩
    refine .inr ⟨isSome_of_refersTo (sound_of_assemble h).1 refers, r, member, ?_⟩
    have isOperation : r.isOperation := by
      obtain ⟨name, inside, -⟩ := refers
      obtain ⟨o, content, -⟩ := Content.exists_of_mem_references inside
      rw [Record.isOperation, content]
    obtain ⟨i, evaluates, -⟩ :=
      finished.evaluates quiet (List.mem_append_left _ member) isOperation
    exact evaluates.touched refers

/-- The names that are told to be unreferenced are, in the order of the table and each once, those
of the symbols that no name in an operand stands for, except for the end of the image. -/
theorem unreferenced_of_assemble : ∃ names, image.unreferenced? = some names ∧ names.Nodup ∧
    names.Sublist image.program.table.names ∧
    ∀ name, name ∈ names ↔ name ≠ endName ∧ ∃ x, image.program.table.find? name = some x ∧
      ¬ ∃ r ∈ image.allRecords, r.RefersTo image.program x := by
  obtain ⟨sound, -⟩ := sound_of_assemble h
  have refers (x : SymbolId) : image.program.symbols.isReferenced x = true ↔
      ∃ r ∈ image.allRecords, r.RefersTo image.program x := by
    rw [isReferenced_iff h quiet distinct]
    constructor
    · rintro ⟨r, member, refers⟩
      exact ⟨r, List.mem_append_left _ member, refers⟩
    · rintro ⟨r, member, refers⟩
      rcases List.mem_append.mp member with inside | closing
      · exact ⟨r, inside, refers⟩
      · obtain ⟨s, -, finished⟩ := finished_of_assemble h
        obtain ⟨word, rfl, -⟩ := finished.closing_eq (Option.mem_toList.mp closing)
        obtain ⟨name, none, -⟩ := refers
        cases none
  let entries := image.program.table.entries.filter fun e => !image.program.symbols.isReferenced e.2
  have sublist : ((entries.map Prod.fst).filter fun name => name ≠ endName).Sublist
      image.program.table.names :=
    List.filter_sublist.trans (List.filter_sublist.map Prod.fst)
  refine ⟨_, ?_, sublist.nodup sound.distinct, sublist, fun name => ?_⟩
  · rw [unreferenced?, Program.unreferenced?_eq_some sound]
    rfl
  · rw [List.mem_filter, and_comm, decide_eq_true_eq]
    refine and_congr_right fun _ => ?_
    constructor
    · intro member
      obtain ⟨e, inside, rfl⟩ := List.mem_map.mp member
      obtain ⟨listed, unnoted⟩ := List.mem_filter.mp inside
      refine ⟨e.2, NameTable.find?_of_mem sound.distinct listed, ?_⟩
      rw [← refers e.2]
      simpa using unnoted
    · rintro ⟨x, found, unnoted⟩
      rw [← refers x] at unnoted
      refine List.mem_map.mpr ⟨(name, x), List.mem_filter.mpr ⟨?_, ?_⟩, rfl⟩
      · exact NameTable.mem_of_find? found
      · simpa using unnoted

omit h quiet distinct

/-- Names that the entry, the same file and an earlier file refer to, and the end. -/
theorem unreferenced_two_files :
    let sources := [("a.s", ".hidden work\n:work set a, late\n:main jsr work\n:spare"),
      ("b.s", ":late set c, _end\n:.low")]
    let options : Options := { entry := some "main" }
    ∃ image, (assemble sources options).result = .ok image ∧
      (assemble sources options).log.hasError = false ∧
      image.unreferenced? = some ["spare", "late$$.low"] ∧
      ∃ x, image.program.table.find? "spare" = some x ∧
        ¬ ∃ r ∈ image.allRecords, r.RefersTo image.program x := by
  intro sources options
  have evaluated : ((assemble sources options).result.toOption.bind Image.unreferenced?,
      (assemble sources options).log.hasError) = (some ["spare", "late$$.low"], false) := by
    decide +kernel
  obtain ⟨evaluated, quiet⟩ := Prod.mk.inj evaluated
  obtain ⟨image, present, names⟩ := Option.bind_eq_some_iff.mp evaluated
  have made := Runs.eq_ok_of_toOption present
  obtain ⟨names', told, -, -, exact_⟩ := unreferenced_of_assemble made quiet (by decide)
  obtain rfl := Option.some.inj (names.symm.trans told)
  obtain ⟨-, spare⟩ := (exact_ "spare").mp (by simp)
  exact ⟨image, made, quiet, names, spare⟩

end Image

end Dcpu16
