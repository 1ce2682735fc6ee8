import Dcpu16.ObjectFile.Basic
import Dcpu16.Proofs.Extension
import Dcpu16.Proofs.Session

/-! Assembling a file is atomic.  A file that fails leaves the program as it was, up to the notes
that something refers to a symbol; one that succeeds only adds symbols and names behind those that
were there. -/

namespace Dcpu16

open Assembler

/-- The table of a file: its names are distinct, and its symbols are numbered from `n` on. -/
structure NameTable.Own (n : Nat) (table : SymbolTable) : Prop where
  distinct : table.names.Nodup
  new : ∀ e ∈ table.entries, n ≤ e.2

namespace NameTable.Own

variable {n : Nat} {table : SymbolTable} {name : String} {id : Nat}

theorem empty (n : Nat) : Own n .empty := ⟨by simp, by simp [NameTable.empty]⟩

theorem le_of_find? (own : table.Own n) (h : table.find? name = some id) : n ≤ id :=
  own.new _ (mem_of_find? h)

theorem erase (own : table.Own n) (name : String) : (table.erase name).Own n :=
  ⟨names_erase_nodup own.distinct name, fun e member =>
    own.new e (List.mem_of_mem_filter member)⟩

theorem insert (own : table.Own n) (name : String) (new : n ≤ id) :
    (table.insert name id).Own n := by
  refine ⟨names_insert_nodup own.distinct name id, fun e member => ?_⟩
  cases found : table.find? name with
  | none =>
    rw [insert_new found] at member
    rcases List.mem_append.mp member with old | last
    · exact own.new e old
    · rw [List.mem_singleton.mp last]
      exact new
  | some first =>
    simp only [NameTable.insert, found] at member
    obtain ⟨old, inside, rfl⟩ := List.mem_map.mp member
    by_cases same : old.1 = name
    · simpa [same] using new
    · simpa [same] using own.new old inside

/-- Hiding renames symbols of the file only. -/
theorem hide {s t : SymbolStore} {table' : SymbolTable} (own : table.Own n)
    (down : ∀ {x sym}, n ≤ x → s.get? x = some sym → ∀ y ∈ sym.locals, n ≤ y) (new : n ≤ id)
    (h : s.hide? table id = some (t, table')) : table'.Own n := by
  obtain ⟨-, family, erased, hFamily, hErase, hInsert⟩ := SymbolStore.hide?_eq_some.mp h
  have members := SymbolStore.family_all (P := (n ≤ ·)) (fun x sym hx => down hx) hFamily new
  have ownErased : erased.Own n := by
    refine Runs.foldlM_some_keeps (Own n) (fun x _ u v own step => ?_) own hErase
    obtain ⟨old, -, last⟩ := Option.bind_eq_some_iff.mp step
    cases last
    exact own.erase old
  refine Runs.foldlM_some_keeps (Own n) (fun x member u v own step => ?_) ownErased hInsert
  obtain ⟨renamed, -, last⟩ := Option.bind_eq_some_iff.mp step
  cases last
  exact own.insert renamed (members x member)

end NameTable.Own

/-- The session has come from the symbols `old`, and its table is `table`.  Symbols that are not
among `old` have no locals there. -/
structure Session.Since (old : SymbolStore) (table : SymbolTable) (s : Session) : Prop where
  table_eq : s.program.table = table
  remain : old.RemainIn s.program.symbols
  locals : ∀ {x : Nat} {sym : Symbol}, old.size ≤ x → s.program.symbols.get? x = some sym →
    ∀ y ∈ sym.locals, old.size ≤ y

namespace Session.Since

variable {old : SymbolStore} {table : SymbolTable} {s : Session} {id : Nat}

theorem start (s : Session) : s.Since s.program.symbols s.program.table :=
  ⟨rfl, .refl _, fun new found => absurd (SymbolStore.lt_size_of_get? found) (Nat.not_lt.mpr new)⟩

theorem ignoresLog : IgnoresLog (Session.Since old table) :=
  fun _ _ h => ⟨h.table_eq, h.remain, h.locals⟩

theorem add {place : Place} {name : String} {parent : Option Nat} {symbols : SymbolStore}
    (h : s.Since old table) (new : ∀ x, parent = some x → old.size ≤ x)
    (added : s.program.symbols.add? place name parent = some (id, symbols)) :
    Session.Since old table { s with program := { s.program with symbols } } := by
  refine ⟨h.table_eq, h.remain.add new added, fun {x sym} hx found y member => ?_⟩
  rcases SymbolStore.get?_add_cases added found with ⟨-, rfl⟩ | ⟨before, hBefore, rfl⟩
  · cases member
  · dsimp only at member
    split at member
    · rcases List.mem_append.mp member with older | last
      · exact h.locals hx hBefore y older
      · rw [List.mem_singleton.mp last]
        exact h.remain.size_le
    · exact h.locals hx hBefore y member

/-- A change of a new symbol that does not give it other locals. -/
theorem modify (h : s.Since old table) (new : old.size ≤ id) {f : Symbol → Symbol}
    (keeps : ∀ sym, (f sym).locals = sym.locals) :
    Session.Since old table { s with program :=
      { s.program with symbols := s.program.symbols.modify id f } } := by
  refine ⟨h.table_eq, h.remain.modify_new new f, fun {x sym} hx found y member => ?_⟩
  simp only [SymbolStore.get?_modify] at found
  by_cases same : x = id
  · rw [if_pos same] at found
    obtain ⟨sym, found', rfl⟩ := Option.map_eq_some_iff.mp found
    exact h.locals hx found' y (keeps sym ▸ member)
  · rw [if_neg same] at found
    exact h.locals hx found y member

theorem markReferenced (h : s.Since old table) (ids : List SymbolId) :
    Session.Since old table { s with program := s.program.markReferenced ids } := by
  refine ⟨h.table_eq, h.remain.markReferenced ids, fun {x sym} hx found y member => ?_⟩
  have same : (s.program.markReferenced ids).symbols.unmarked = s.program.symbols.unmarked :=
    SymbolStore.unmarked_markReferenced ids _
  obtain ⟨before, found', hBefore⟩ := SymbolStore.get?_of_unmarked same found
  exact h.locals hx found' y ((Symbol.unmarked_eq_iff.mp hBefore).2 ▸ member)

theorem program_extends {p : Program} (h : s.Since p.symbols table)
    (names : p.table.entries <+: table.entries) : p.Extends s.program :=
  ⟨h.table_eq ▸ names, h.remain⟩

end Session.Since

namespace SourceFile

variable {old : SymbolStore} {shared : SymbolTable} {s : Session} {source : SourceFile}
  {policy : Redefinition}

theorem keeps_warn {P : Session → Prop} (free : IgnoresLog P) (line : SourceLine)
    (message : String) : Keeps P (source.warn line message) :=
  .report free _

theorem keeps_line {P : Session → Prop} (number : Nat) : Keeps P (source.line number) :=
  .require _ _

theorem keeps_redefine {P : Session → Prop} (free : IgnoresLog P) (name : String)
    (line : SourceLine) (first : Place) : Keeps P (source.redefine policy name line first) := by
  cases policy with
  | error => exact .fail _
  | warn =>
    refine (keeps_warn free line _).bind fun _ => ?_
    dsimp only
    split
    · exact ((keeps_line _).map _).bind fun _ => .report free _
    · exact (Keeps.pure _).bind fun _ => .report free _

/-- The labels of a file while they are read: all of them are new. -/
structure Labels.Own (n : Nat) (labels : Labels) : Prop where
  table : labels.table.Own n
  owner : ∀ id, labels.owner = some id → n ≤ id

theorem leads_parentOf (h : s.Since old shared) {labels : Labels} (own : labels.Own old.size)
    (line : SourceLine) (label : Label) :
    Leads (source.parentOf line label labels.owner) s (Session.Since old shared)
      fun parent _ => ∀ id, parent = some id → old.size ≤ id := by
  unfold parentOf
  split
  · split
    · next id same => exact .pure h fun x hx => own.owner x (same.trans hx)
    · exact .of_error rfl h
  · exact .pure h (by simp)

theorem keeps_labelKey {P : Session → Prop} (label : Label) (parent : Option SymbolId) :
    Keeps P (labelKey label parent) := by
  cases parent with
  | none => exact .pure _
  | some id => exact (Keeps.mangled id).bind fun _ => .pure _

theorem leads_addSymbol (h : s.Since old shared) (place : Place) (name : String)
    {parent : Option SymbolId} (new : ∀ id, parent = some id → old.size ≤ id) :
    Leads (addSymbol place name parent) s (Session.Since old shared) fun id _ => old.size ≤ id := by
  refine (Leads.get h).bind fun a t h ⟨ha, ht⟩ => ?_
  subst ht ha
  refine (Leads.require (Q := fun added t => t = a ∧
      a.program.symbols.add? place name parent = some added) h fun _ added => ⟨rfl, added⟩).bind
    fun ⟨id, symbols⟩ t h ⟨ht, added⟩ => ?_
  subst ht
  refine Leads.of_ok rfl (h.add new added) ?_
  rw [(SymbolStore.size_add added).1]
  exact h.remain.size_le

theorem leads_addLabel {labels : Labels} (line : SourceLine) (h : s.Since old shared)
    (own : labels.Own old.size) :
    Leads (source.addLabel policy labels line) s (Session.Since old shared) fun labels _ =>
      labels.Own old.size := by
  unfold addLabel
  cases line.statement.label with
  | none => exact .pure h own
  | some label =>
    refine (leads_parentOf h own line label).bind fun parent t h new => ?_
    refine (keeps_labelKey label parent).leads h fun key t h => ?_
    cases found : labels.table.find? key with
    | some first =>
      refine (Keeps.symbol first).leads h fun sym t h => ?_
      refine (keeps_redefine Session.Since.ignoresLog key line sym.place).leads h fun _ t h => ?_
      refine .pure h ⟨own.table, fun id hid => ?_⟩
      dsimp only at hid
      split at hid
      · exact Option.some.inj hid ▸ own.table.le_of_find? found
      · exact own.owner id hid
    | none =>
      refine (leads_addSymbol h _ _ new).bind fun id t h hid => ?_
      refine .pure h ⟨own.table.insert key hid, fun x hx => ?_⟩
      dsimp only at hx
      split at hx
      · exact Option.some.inj hx ▸ hid
      · exact own.owner x hx

theorem leads_addLabels (h : s.Since old shared) :
    Leads (source.addLabels policy) s (Session.Since old shared) fun table _ =>
      table.Own old.size := by
  refine (Leads.foldlM (I := fun labels _ => Labels.Own old.size labels)
    (fun labels line s h own => leads_addLabel line h own) h ⟨.empty _, by simp⟩).bind
    fun labels t h own => ?_
  exact .pure h own.table

theorem leads_hideName {table : SymbolTable} (hidden : String × SourceLine) (h : s.Since old shared)
    (own : table.Own old.size) :
    Leads (source.hideName table hidden) s (Session.Since old shared) fun table _ =>
      table.Own old.size := by
  unfold hideName
  cases found : table.find? hidden.1 with
  | none => exact (keeps_warn Session.Since.ignoresLog _ _).leads h fun _ t h => .pure h own
  | some id =>
    have new := own.le_of_find? found
    refine (Leads.get h).bind fun a t h ⟨ha, ht⟩ => ?_
    subst ht ha
    refine (Leads.require (Q := fun result t => t = a ∧
        a.program.symbols.hide? table id = some result) h fun _ hid => ⟨rfl, hid⟩).bind
      fun ⟨symbols, table'⟩ t h ⟨ht, hid⟩ => ?_
    subst ht
    obtain ⟨hSymbols, -⟩ := SymbolStore.hide?_eq_some.mp hid
    have hide : Leads (setSymbols symbols) t (Session.Since old shared) fun _ _ => True := by
      subst hSymbols
      exact .of_ok rfl (h.modify new fun _ => rfl) trivial
    exact hide.bind fun _ _ h' _ => .pure h' (own.hide h.locals new hid)

theorem leads_hideNames {table : SymbolTable} (h : s.Since old shared) (own : table.Own old.size) :
    Leads (source.hideNames table) s (Session.Since old shared) fun table _ =>
      table.Own old.size :=
  Leads.foldlM (fun _ hidden _ h own => leads_hideName hidden h own) h own

theorem leads_publishName (entry : String × SymbolId) (h : s.Since old shared) :
    Leads (source.publishName policy entry) s
      (fun t => ∃ more, t.Since old ⟨shared.entries ++ more⟩)
      fun _ t => t.Since old (shared.joined [entry]) := by
  unfold publishName
  refine (Leads.get ⟨[], by simpa using h⟩).bind fun a t _ ⟨ha, ht⟩ => ?_
  subst ht ha
  cases found : a.program.table.find? entry.1 with
  | none =>
    have fresh : shared.find? entry.1 = none := h.table_eq ▸ found
    have after : Session.Since old ⟨shared.entries ++ [entry]⟩ { a with program :=
        { a.program with table := a.program.table.insert entry.1 entry.2 } } :=
      ⟨by rw [NameTable.insert_new found, h.table_eq], h.remain, h.locals⟩
    exact .of_ok rfl ⟨[entry], after⟩ (by simpa [NameTable.joined, fresh] using after)
  | some first =>
    have taken : shared.find? entry.1 = some first := h.table_eq ▸ found
    have keeps : Keeps (Session.Since old shared) (do
        let sym ← Assembler.symbol first
        let own ← Assembler.symbol entry.2
        source.redefine policy entry.1 (← source.line own.place.line) sym.place) :=
      (Keeps.symbol _).bind fun _ => (Keeps.symbol _).bind fun _ => (keeps_line _).bind fun _ =>
        keeps_redefine Session.Since.ignoresLog _ _ _
    exact (keeps a h).weaken (fun t h => ⟨[], by simpa using h⟩) fun _ t h _ => by
      simpa [NameTable.joined, taken] using h

theorem leads_publish {es : List (String × SymbolId)} (distinct : (es.map Prod.fst).Nodup)
    (h : s.Since old shared) :
    Leads (es.forM (source.publishName policy)) s
      (fun t => ∃ more, t.Since old ⟨shared.entries ++ more⟩)
      fun _ t => t.Since old (shared.joined es) := by
  induction es generalizing s shared with
  | nil => exact .pure ⟨[], by simpa using h⟩ (by simpa using h)
  | cons e es ih =>
    -- The rest is published into the table that the first name has left.
    rw [List.map_cons, List.nodup_cons] at distinct
    show Leads (source.publishName policy e >>= fun _ => es.forM (source.publishName policy)) _ _ _
    refine (leads_publishName e h).bind fun _ t _ first => ?_
    refine (ih distinct.2 first).weaken (fun u ⟨more, hMore⟩ => ⟨_, by
      rwa [NameTable.joined, List.append_assoc] at hMore⟩) fun _ u _ last => ?_
    rwa [NameTable.joined_cons distinct.1]

/-- Labels wait for a record, all of them new. -/
def Build.Own (n : Nat) (build : Build) : Prop :=
  ∀ id ∈ build.pending, n ≤ id

theorem leads_ownLabel {table : SymbolTable} {line : SourceLine} {label : Label}
    {scope : Option SymbolId} (h : s.Since old shared) (own : table.Own old.size) :
    Leads (source.ownLabel table line label scope) s (Session.Since old shared) fun id _ =>
      old.size ≤ id := by
  refine (Leads.get h).bind fun a t h _ => ?_
  refine (Leads.located (Q := fun found _ => ∀ id, found = some id → old.size ≤ id) h
    fun found resolved id some => ?_).bind fun found t h new => ?_
  · obtain ⟨key, hKey, -⟩ := SymbolStore.exists_key_of_resolve (some ▸ resolved)
    exact own.le_of_find? hKey
  · cases found with
    | some id => exact .pure h (new id rfl)
    | none => exact .of_error rfl h

theorem leads_enterLabel {table : SymbolTable} {build : Build} (line : SourceLine)
    (h : s.Since old shared) (own : table.Own old.size) (pending : build.Own old.size) :
    Leads (source.enterLabel table line build) s (Session.Since old shared) fun build _ =>
      build.Own old.size := by
  unfold enterLabel
  cases line.statement.label with
  | none => exact .pure h pending
  | some label =>
    refine (leads_ownLabel h own).bind fun id t h new => .pure h fun x member => ?_
    rcases List.mem_append.mp member with before | last
    · exact pending x before
    · exact List.mem_singleton.mp last ▸ new

theorem leads_markFunction {build : Build} (line : SourceLine) (h : s.Since old shared)
    (pending : build.Own old.size) :
    Leads (source.markFunction line build) s (Session.Since old shared) fun build _ =>
      build.Own old.size := by
  unfold markFunction
  dsimp only
  split
  · exact (keeps_warn Session.Since.ignoresLog line _).leads h fun _ t h => .pure h pending
  · refine (Keeps.pure ()).leads h fun _ t h => .pure h ?_
    exact pending

theorem keeps_content? {P : Session → Prop} (marks : ∀ ids, Keeps P (markReferenced ids))
    (line : SourceLine) (scope : Option SymbolId) : Keeps P (source.content? line scope) := by
  have bindName (name : String) : Keeps P (source.bindName scope name) := by
    refine Keeps.get.bind fun s => ?_
    split
    · exact (marks _).bind fun _ => .pure _
    · exact .throw _
  have operand (e : Expr) : Keeps P (e.mapReferences (source.bindName scope)) := by
    refine (Keeps.mapM (fun t => ?_) e.terms).bind fun _ => .pure _
    split
    · exact (bindName _).bind fun _ => .pure _
    · exact .pure t
  unfold content?
  split
  · exact (Keeps.mapM operand _).bind fun _ => .pure _
  · split
    · exact (Keeps.located _ _).bind fun _ => .pure _
    · exact .pure none
  · exact .pure none
  · exact .pure none

theorem leads_bindSymbols (place : Place) {ids : List SymbolId} (h : s.Since old shared)
    (new : ∀ id ∈ ids, old.size ≤ id) :
    Leads (bindSymbols place ids) s (Session.Since old shared) fun _ _ => True := by
  induction ids generalizing s with
  | nil => exact .pure h trivial
  | cons id ids ih =>
    have first : Leads (define place id) s (Session.Since old shared) fun _ _ => True := by
      refine (Leads.get h).bind fun a t h ⟨ha, ht⟩ => ?_
      subst ht ha
      refine (Leads.require (Q := fun result t => t = a ∧
          a.program.symbols.define? id place = some result) h fun _ defined => ⟨rfl, defined⟩).bind
        fun ⟨isNew, symbols⟩ t h ⟨ht, defined⟩ => ?_
      subst ht
      refine .of_ok rfl ?_ trivial
      rcases SymbolStore.define?_eq_some.mp defined with ⟨-, rfl, -⟩ | ⟨-, rfl, -⟩
      · exact h
      · exact h.modify (new id (by simp)) fun _ => rfl
    refine first.bind fun isNew t h _ => ?_
    refine (ih h fun x member => new x (List.mem_cons_of_mem _ member)).bind fun rest t h _ => ?_
    exact .pure h trivial

theorem leads_addRecord {build : Build} (line : SourceLine) (content : Content)
    (h : s.Since old shared) (pending : build.Own old.size) :
    Leads (source.addRecord line content build) s (Session.Since old shared) fun build _ =>
      build.Own old.size :=
  (leads_bindSymbols _ h pending).bind fun _ _ h _ => .pure h (by simp [Build.Own])

theorem leads_buildLine {table : SymbolTable} {build : Build} (line : SourceLine)
    (h : s.Since old shared) (own : table.Own old.size) (pending : build.Own old.size) :
    Leads (source.buildLine table build line) s (Session.Since old shared) fun build _ =>
      build.Own old.size := by
  refine (leads_enterLabel line h own pending).bind fun build t h pending => ?_
  refine (leads_markFunction line h pending).bind fun build t h pending => ?_
  have marks (ids : List SymbolId) : Keeps (Session.Since old shared) (markReferenced ids) :=
    .modify fun s h => h.markReferenced ids
  refine (keeps_content? marks line _).leads h fun content t h => ?_
  cases content with
  | some content => exact leads_addRecord line content h pending
  | none => exact .pure h pending

theorem leads_build {table : SymbolTable} (h : s.Since old shared) (own : table.Own old.size) :
    Leads (source.build table) s (Session.Since old shared) fun _ _ => True := by
  refine (Leads.foldlM (I := fun build _ => Build.Own old.size build)
    (fun build line s h pending => leads_buildLine line h own pending) h
    (by simp [Build.Own])).bind fun build t h pending => ?_
  have functions : Keeps (Session.Since old shared) (source.closeFunctions build) := by
    unfold closeFunctions
    split
    · exact (keeps_line _).bind fun _ => keeps_warn Session.Since.ignoresLog _ _
    · exact .pure _
  refine functions.leads h fun _ t h => ?_
  unfold closeLabels
  split
  · refine (Keeps.symbol _).leads h fun sym t h => (keeps_line _).leads h fun line t h => ?_
    exact (leads_addRecord line .mark h pending).weaken (fun _ h => h) fun _ _ _ _ => trivial
  · exact .pure h trivial

end SourceFile

namespace ObjectFile

variable {options : Options} {file text : String} {s t : Session} {e : Stop LocatedError}

/-- Reading a file changes the log only. -/
theorem keeps_read (file text : String) (p : Program) :
    Keeps (fun s => s.program = p) (SourceFile.read file text) := by
  have report (d : Diagnostic) : Keeps (fun s => s.program = p) (report d) :=
    .report (fun _ _ h => h) d
  refine (Keeps.mapM (fun line => ?_) _).bind fun _ => .pure _
  unfold SourceFile.readLine
  dsimp only
  split
  · exact .fail _
  · split
    · exact (report _).bind fun _ => .pure _
    · exact (Keeps.pure _).bind fun _ => .pure _

theorem program_of_read {source : SourceFile} (run : SourceFile.read file text s = .ok source t) :
    t.program = s.program :=
  ((keeps_read file text s.program s rfl).ok run).1

/-- However the file ends, it only adds names and symbols behind those that were there.  If it ends
well, the names are those of its table that were not there. -/
theorem leads_ofSource (options : Options) (source : SourceFile) (s : Session) :
    Leads (ofSource options source) s (fun t => s.program.Extends t.program) fun o t =>
      t.program.table = s.program.table.joined o.table.entries ∧ o.table.names.Nodup := by
  have labels : Leads (source.addLabels options.redefinition) s
      (fun t => s.program.Extends t.program) fun table t =>
        table.Own s.program.symbols.size ∧ t.Since s.program.symbols s.program.table :=
    (SourceFile.leads_addLabels (Session.Since.start s)).weaken
      (fun _ h => h.program_extends List.prefix_rfl) fun _ _ h own => ⟨own, h⟩
  -- The shared table stands still until the names are published, and again after that.
  refine labels.bind fun table t _ ⟨own, h⟩ => ?_
  have hide : Leads (source.hideNames table) t (fun t => s.program.Extends t.program)
      fun table t =>
        table.Own s.program.symbols.size ∧ t.Since s.program.symbols s.program.table :=
    (SourceFile.leads_hideNames h own).weaken
      (fun _ h => h.program_extends List.prefix_rfl) fun _ _ h own => ⟨own, h⟩
  refine hide.bind fun table t _ ⟨own, h⟩ => ?_
  have publish : Leads (source.publish options.redefinition table) t
      (fun t => s.program.Extends t.program) fun _ t =>
        t.Since s.program.symbols (s.program.table.joined table.entries) :=
    (SourceFile.leads_publish own.distinct h).weaken
      (fun _ ⟨_, h⟩ => h.program_extends (List.prefix_append _ _)) fun _ _ _ h => h
  refine publish.bind fun _ t _ h => ?_
  have build : Leads (source.build table) t (fun t => s.program.Extends t.program) fun _ t =>
      t.Since s.program.symbols (s.program.table.joined table.entries) :=
    (SourceFile.leads_build h own).weaken
      (fun _ h => h.program_extends (List.prefix_append _ _)) fun _ _ h _ => h
  exact build.bind fun build t extending h => .pure extending ⟨h.table_eq, own.distinct⟩

theorem undoing_apply {α : Type} (step : Assembler α) (s : Session) :
    undoing step s = match step s with
      | .ok a t => .ok a t
      | .error e t => .error e { t with program := t.program.rollback s.program.checkpoint } :=
  rfl

theorem undoing_eq_ok {α : Type} {step : Assembler α} {a : α} :
    undoing step s = .ok a t ↔ step s = .ok a t := by
  rw [undoing_apply]
  cases step s <;> simp

theorem undoing_eq_error {α : Type} {step : Assembler α} :
    undoing step s = .error e t ↔ ∃ u, step s = .error e u ∧
      t = { u with program := u.program.rollback s.program.checkpoint } := by
  rw [undoing_apply]
  cases step s <;> simp [and_assoc, eq_comm]

/-- A file that fails leaves the program as it was, up to what refers to a symbol. -/
theorem restored_of_error (run : assemble options file text s = .error e t) :
    t.program.table = s.program.table ∧ t.program.symbols.size = s.program.symbols.size ∧
      s.program.symbols.RemainIn t.program.symbols := by
  rcases bind_eq_error.mp run with failed | ⟨source, r, hRead, undone⟩
  · rw [(keeps_read file text s.program s rfl).error failed]
    exact ⟨rfl, rfl, .refl _⟩
  · obtain ⟨u, made, rfl⟩ := undoing_eq_error.mp undone
    rw [← program_of_read hRead]
    exact ((leads_ofSource options source r).error made).rollback

/-- A file that is assembled adds its names and symbols behind those that were there. -/
theorem extended_of_ok {o : ObjectFile} (run : assemble options file text s = .ok o t) :
    s.program.Extends t.program ∧ t.program.table = s.program.table.joined o.table.entries := by
  obtain ⟨source, r, hRead, undone⟩ := bind_eq_ok.mp run
  rw [← program_of_read hRead]
  exact ((leads_ofSource options source r).ok (undoing_eq_ok.mp undone)).imp_right And.left

/-- Assembling a file is atomic, whatever the program it is added to.  If it fails, the table is
the one before and the symbols are those before, except that something may refer to them by now.
If it ends well, the program is extended, and the new names are those of the file's table that were
not there, in their order. -/
theorem assemble_atomic (options : Options) (file text : String) (s : Session) :
    match assemble options file text s with
    | .error _ t =>
      t.program.table = s.program.table ∧
        t.program.symbols.size = s.program.symbols.size ∧
        s.program.symbols.RemainIn t.program.symbols
    | .ok o t =>
      s.program.Extends t.program ∧ t.program.table = s.program.table.joined o.table.entries := by
  cases run : assemble options file text s with
  | error e t => exact restored_of_error run
  | ok o t => exact extended_of_ok run

end ObjectFile

end Dcpu16
