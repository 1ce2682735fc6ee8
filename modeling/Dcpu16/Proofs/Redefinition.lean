import Dcpu16.Proofs.KeepGoing

/-! The two policies for names that are defined again.  A run that stops at such a name and one that
goes on with a warning are the same up to the first of these warnings, and there the first run stops
with the name, the file and the line that the warning shows. -/

namespace Dcpu16

open Assembler

namespace Diagnostic

variable {d : Diagnostic} {name name' : String}

/-- The error instead of the warning. -/
def redefinition (d : Diagnostic) (name : String) : LocatedError :=
  ⟨.redefined name, d.file, d.line, d.text⟩

theorem Redefines.name_eq (h : d.Redefines name) (h' : d.Redefines name') : name = name' := by
  have same := congrArg String.toList (h.2.symm.trans h'.2)
  exact String.toList_inj.mp (by simpa [AsmError.quoted] using same)

end Diagnostic

/-- No name is defined again. -/
def Log.NoneRedefined (log : Log) : Prop :=
  ∀ d ∈ log, ∀ name, ¬ d.Redefines name

namespace Log

variable {log log' front front' back back' : Log} {d d' : Diagnostic} {name name' : String}

theorem noneRedefined_nil : NoneRedefined [] := nofun

theorem NoneRedefined.append (h : log.NoneRedefined) (h' : log'.NoneRedefined) :
    NoneRedefined (log ++ log') := by
  intro d member
  rcases List.mem_append.mp member with before | after
  · exact h d before
  · exact h' d after

theorem not_noneRedefined (redefines : d.Redefines name) :
    ¬ NoneRedefined (front ++ d :: back) := fun none =>
  none d (by simp) name redefines

/-- There is one first warning. -/
theorem first_redefined (h : front ++ d :: back = front' ++ d' :: back')
    (none : NoneRedefined front) (none' : NoneRedefined front') (redefines : d.Redefines name)
    (redefines' : d'.Redefines name') : front = front' ∧ d = d' := by
  induction front generalizing front' with
  | nil =>
    cases front' with
    | nil => exact ⟨rfl, (List.cons.inj h).1⟩
    | cons e front' =>
      obtain ⟨rfl, -⟩ := List.cons.inj h
      exact absurd redefines (none' d (by simp) name)
  | cons e front ih =>
    cases front' with
    | nil =>
      obtain ⟨rfl, -⟩ := List.cons.inj h
      exact absurd redefines' (none e (by simp) name')
    | cons e' front' =>
      obtain ⟨rfl, rest⟩ := List.cons.inj h
      obtain ⟨rfl, rfl⟩ := ih rest (fun d member => none d (by simp [member]))
        fun d member => none' d (by simp [member])
      exact ⟨rfl, rfl⟩

end Log

namespace Assembler

variable {α β : Type} {s t : Session}

/-- The session that a step leaves. -/
def left : EStateM.Result (Stop LocatedError) Session α → Session
  | .ok _ t | .error _ t => t

/-- How a step ends if names may be defined again, and how it ends if they may not: in the same way,
or at the first warning. -/
inductive Parts (s : Session) (r r' : EStateM.Result (Stop LocatedError) Session α) : Prop
  | never (new : Log) (log : (left r).log = s.log ++ new) (free : new.NoneRedefined) (same : r' = r)
  | apart (front back : Log) (d : Diagnostic) (name : String) (t : Session)
      (log : (left r).log = s.log ++ (front ++ d :: back)) (free : front.NoneRedefined)
      (redefines : d.Redefines name) (stops : r' = .error (.error (d.redefinition name)) t)
      (log' : t.log = s.log ++ front)

/-- The second step is the first one, but stops at the first name that is defined again. -/
def Parallel (x y : Assembler α) : Prop := ∀ s, Parts s (x s) (y s)

namespace Parallel

variable {x y : Assembler α} {f g : α → Assembler β}

/-- A step without names that are defined again. -/
theorem of_keeps (keeps : ∀ {P : Session → Prop}, Allows P Diagnostic.Mild → Keeps P x) :
    Parallel x x := by
  intro s
  have allows : Allows (fun t => ∃ new, t.log = s.log ++ new ∧ new.NoneRedefined)
      Diagnostic.Mild := by
    refine ⟨fun _ _ h => h, fun t d mild ⟨new, log, free⟩ => ⟨new ++ [d], ?_, ?_⟩⟩
    · rw [log, List.append_assoc]
    · exact free.append fun e member => by
        obtain rfl := List.mem_singleton.mp member
        exact mild.other
  have run := keeps allows s ⟨[], by simp, Log.noneRedefined_nil⟩
  cases ended : x s with
  | ok a t =>
    obtain ⟨⟨new, log, free⟩, -⟩ := run.ok ended
    exact .never new log free rfl
  | error e t =>
    obtain ⟨new, log, free⟩ := run.error ended
    exact .never new log free rfl

theorem appends (h : Parallel x y) (s : Session) : ∃ new, (left (x s)).log = s.log ++ new := by
  cases h s with
  | never new log => exact ⟨new, log⟩
  | apart front back d name t log => exact ⟨_, log⟩

theorem bind (h : Parallel x y) (next : ∀ a, Parallel (f a) (g a)) :
    Parallel (x >>= f) (y >>= g) := by
  intro s
  show Parts s (EStateM.bind x f s) (EStateM.bind y g s)
  unfold EStateM.bind
  cases h s with
  | never new log free same =>
    rw [same]
    cases run : x s with
    | error e t =>
      rw [run] at log
      exact .never new log free rfl
    | ok a t =>
      have log : t.log = s.log ++ new := by rwa [run] at log
      cases next a t with
      | never more log' free' same' =>
        refine .never (new ++ more) ?_ (free.append free') same'
        rw [log', log, List.append_assoc]
      | apart front back d name u log' free' redefines stops log'' =>
        refine .apart (new ++ front) back d name u ?_ (free.append free') redefines stops ?_
        · rw [log', log, List.append_assoc, List.append_assoc]
        · rw [log'', log, List.append_assoc]
  | apart front back d name t log free redefines stops log' =>
    rw [stops]
    cases run : x s with
    | error e u =>
      rw [run] at log
      exact .apart front back d name t log free redefines rfl log'
    | ok a u =>
      -- What comes after the warning only adds to the log.
      obtain ⟨more, extra⟩ := (next a).appends u
      have log : u.log = s.log ++ (front ++ d :: back) := by rwa [run] at log
      refine .apart front (back ++ more) d name t ?_ free redefines rfl log'
      rw [extra, log]
      simp

theorem pure (a : α) : Parallel (pure a) (pure a) :=
  of_keeps fun _ => .pure a

theorem mapM {x y : β → Assembler α} (each : ∀ b, Parallel (x b) (y b)) (bs : List β) :
    Parallel (bs.mapM x) (bs.mapM y) := by
  induction bs with
  | nil => exact pure []
  | cons b bs ih =>
    rw [List.mapM_cons, List.mapM_cons]
    exact (each b).bind fun _ => ih.bind fun _ => pure _

theorem foldlM {x y : α → β → Assembler α} (each : ∀ a b, Parallel (x a b) (y a b)) (bs : List β)
    (a : α) : Parallel (bs.foldlM x a) (bs.foldlM y a) := by
  induction bs generalizing a with
  | nil => exact pure a
  | cons b bs ih =>
    rw [List.foldlM_cons, List.foldlM_cons]
    exact (each a b).bind fun c => ih c

/-- Undoing a file leaves its diagnostics. -/
theorem undoing (h : Parallel x y) : Parallel (ObjectFile.undoing x) (ObjectFile.undoing y) := by
  intro s
  have kept : (left (ObjectFile.undoing x s)).log = (left (x s)).log := by
    rw [ObjectFile.undoing_apply]
    cases x s <;> rfl
  cases h s with
  | never new log free same =>
    refine .never new (kept.trans log) free ?_
    rw [ObjectFile.undoing_apply, ObjectFile.undoing_apply, same]
  | apart front back d name t log free redefines stops log' =>
    refine .apart front back d name { t with program := t.program.rollback s.program.checkpoint }
      (kept.trans log) free redefines ?_ log'
    rw [ObjectFile.undoing_apply, stops]

end Parallel

end Assembler

/-! ### Files -/

namespace SourceFile

variable {source : SourceFile}

theorem parallel_redefine (name : String) (line : SourceLine) (first : Place) :
    Parallel (source.redefine .warn name line first) (source.redefine .error name line first) := by
  intro s
  let d : Diagnostic := ⟨.warning,
    "Symbol redefined: " ++ AsmError.quoted name ++ ". Keeping the first definition.",
    source.file, line.number, line.text⟩
  let P (t : Session) : Prop := ∃ back, t.log = s.log ++ d :: back
  have note (text : String) :
      Keeps P (report ⟨.note, "First defined here.", first.file, first.line, text⟩) :=
    .modify fun t ⟨back, log⟩ =>
      ⟨back ++ [_], (congrArg (· ++ [_]) log).trans (List.append_assoc _ _ _)⟩
  have warned : Leads (source.redefine .warn name line first) s P fun _ _ => True := by
    have begins : Leads (source.warn line d.message) s P fun _ _ => True :=
      .of_ok rfl ⟨[], rfl⟩ trivial
    refine begins.bind fun _ t begun _ => ?_
    dsimp only
    split
    · exact ((keeps_line _).map _).leads begun fun text u later => note text u later
    · exact (Keeps.pure _).leads begun fun text u later => note text u later
  have log : ∃ back, (left (source.redefine .warn name line first s)).log = s.log ++ d :: back := by
    cases run : source.redefine .warn name line first s with
    | ok a t => exact (warned.ok run).1
    | error e t => exact warned.error run
  obtain ⟨back, log⟩ := log
  exact .apart [] back d name s log Log.noneRedefined_nil ⟨rfl, rfl⟩ rfl (by simp)

theorem parallel_addLabel (labels : Labels) (line : SourceLine) :
    Parallel (source.addLabel .warn labels line) (source.addLabel .error labels line) := by
  unfold addLabel
  split
  · exact .pure _
  · refine (Parallel.of_keeps fun _ => keeps_parentOf _ _ _).bind fun parent => ?_
    refine (Parallel.of_keeps fun _ => keeps_labelKey _ parent).bind fun key => ?_
    split
    · exact (Parallel.of_keeps fun _ => .symbol _).bind fun sym =>
        (parallel_redefine key line sym.place).bind fun _ => .pure _
    · exact (Parallel.of_keeps fun h => h.addSymbol _ _ _).bind fun _ => .pure _

theorem parallel_publish (table : SymbolTable) :
    Parallel (source.publish .warn table) (source.publish .error table) := by
  have publishName (entry : String × SymbolId) :
      Parallel (source.publishName .warn entry) (source.publishName .error entry) := by
    refine (Parallel.of_keeps fun _ => .get).bind fun s => ?_
    split
    · exact .of_keeps fun h => .modify fun t => h.program t _
    · exact (Parallel.of_keeps fun _ => .symbol _).bind fun sym =>
        (Parallel.of_keeps fun _ => .symbol _).bind fun own =>
          (Parallel.of_keeps fun _ => keeps_line _).bind fun line =>
            parallel_redefine entry.1 line sym.place
  unfold publish
  induction table.entries with
  | nil => exact .pure _
  | cons entry entries ih => exact (publishName entry).bind fun _ => ih

end SourceFile

namespace ObjectFile

theorem parallel_ofSource (options : Options) (source : SourceFile) :
    Parallel (ofSource { options with redefinition := .warn } source)
      (ofSource { options with redefinition := .error } source) := by
  unfold ofSource SourceFile.addLabels
  refine Parallel.bind ?_ fun table => ?_
  · exact (Parallel.foldlM SourceFile.parallel_addLabel _ _).bind fun _ => .pure _
  refine (Parallel.of_keeps fun h => h.hideNames table).bind fun table => ?_
  refine (SourceFile.parallel_publish table).bind fun _ => ?_
  exact (Parallel.of_keeps fun h => h.build table).bind fun _ => .pure _

theorem parallel_assemble (options : Options) (file text : String) :
    Parallel (assemble { options with redefinition := .warn } file text)
      (assemble { options with redefinition := .error } file text) := by
  unfold assemble
  exact (Parallel.of_keeps fun h => h.read file text).bind fun source =>
    (parallel_ofSource options source).undoing

end ObjectFile

theorem parallel_assembleFiles (sources : List (String × String)) (options : Options) :
    Parallel (assembleFiles sources { options with redefinition := .warn })
      (assembleFiles sources { options with redefinition := .error }) := by
  unfold assembleFiles
  refine Parallel.mapM (fun source => ?_) sources
  exact ObjectFile.parallel_assemble options source.1 source.2

/-! ### Runs -/

/-- What linking adds to the log are errors. -/
theorem log_assemble (sources : List (String × String)) (options : Options) :
    ∃ more, (assemble sources options).log =
        (left (assembleFiles sources options .empty)).log ++ more ∧ more.NoneRedefined := by
  unfold assemble
  cases assembleFiles sources options .empty with
  | error e s => exact ⟨[], by simp [left], Log.noneRedefined_nil⟩
  | ok objects s =>
    dsimp only
    cases Image.link s.program objects options with
    | error e => exact ⟨[], by simp [left], Log.noneRedefined_nil⟩
    | ok image =>
      dsimp only
      split
      · exact ⟨[], by simp [left], Log.noneRedefined_nil⟩
      · next placed _ =>
        refine ⟨placed.fill.2.1, rfl, fun d member name redefines => ?_⟩
        rw [Image.log_fill] at member
        obtain ⟨e, rfl, -⟩ := Record.kind_of_mem_log member
        cases redefines.1

/-- The two policies agree up to the first name that is defined again. -/
theorem assemble_redefinition (sources : List (String × String)) (options : Options) :
    let warned := assemble sources { options with redefinition := .warn }
    let strict := assemble sources { options with redefinition := .error }
    ((∀ d ∈ warned.log, ∀ name, ¬ d.Redefines name) → strict = warned) ∧
      ∀ before d after name, warned.log = before ++ d :: after → d.Redefines name →
        (∀ d' ∈ before, ∀ name', ¬ d'.Redefines name') →
        strict = ⟨before, .error (.error ⟨.redefined name, d.file, d.line, d.text⟩)⟩ := by
  intro warned strict
  obtain ⟨more, linked, mild⟩ := log_assemble sources { options with redefinition := .warn }
  cases parallel_assembleFiles sources options .empty with
  | never new log free same =>
    have equal : strict = warned := by
      simp only [strict, warned, assemble, same]
      rfl
    have none : warned.log.NoneRedefined := by
      rw [show warned.log = _ from linked, log]
      exact (Log.noneRedefined_nil.append free).append mild
    refine ⟨fun _ => equal, fun before d after name split redefines _ => ?_⟩
    exact absurd (split ▸ none) (Log.not_noneRedefined redefines)
  | apart front back d name t log free redefines stops log' =>
    have stopped : strict = ⟨front, .error (.error (d.redefinition name))⟩ := by
      simp only [strict, assemble, stops, log']
      rfl
    have first : warned.log = front ++ d :: (back ++ more) := by
      rw [show warned.log = _ from linked, log, List.append_assoc, List.append_assoc]
      rfl
    refine ⟨fun none => ?_, fun before d' after name' split redefines' none => ?_⟩
    · exact absurd (first ▸ none) (Log.not_noneRedefined redefines)
    · obtain ⟨rfl, rfl⟩ :=
        Log.first_redefined (first.symm.trans split) free none redefines redefines'
      rw [stopped, redefines.name_eq redefines']
      rfl

/-- A label of the second file is there twice, and one is also in the first file.  The first warning
is about the former, whose labels are read before the files are compared. -/
theorem assemble_redefinition_two_names :
    let sources := [("a.s", ":main set a, 1"),
      ("b.s", ".bss\n:main set b, 2\n:low set c, 3\n:low set i, 4")]
    let unknown : Diagnostic := ⟨.warning, "Unknown directive: `.bss`", "b.s", 0, ".bss"⟩
    (assemble sources { ({} : Options) with redefinition := .warn }).log.map
        (fun d => (d.message, d.line)) =
      [("Unknown directive: `.bss`", 0),
        ("Symbol redefined: `low`. Keeping the first definition.", 3),
        ("First defined here.", 2),
        ("Symbol redefined: `main`. Keeping the first definition.", 1),
        ("First defined here.", 0)] ∧
      assemble sources { ({} : Options) with redefinition := .error } =
        ⟨[unknown], .error (.error ⟨.redefined "low", "b.s", 3, ":low set i, 4"⟩)⟩ := by
  intro sources unknown
  have log : (assemble sources { ({} : Options) with redefinition := .warn }).log = [unknown,
      ⟨.warning, "Symbol redefined: `low`. Keeping the first definition.", "b.s", 3,
        ":low set i, 4"⟩,
      ⟨.note, "First defined here.", "b.s", 2, ":low set c, 3"⟩,
      ⟨.warning, "Symbol redefined: `main`. Keeping the first definition.", "b.s", 1,
        ":main set b, 2"⟩,
      ⟨.note, "First defined here.", "a.s", 0, ""⟩] := by
    decide +kernel
  refine ⟨by rw [log]; rfl, ?_⟩
  refine (assemble_redefinition sources {}).2 [unknown] _ _ "low" log ⟨rfl, rfl⟩ ?_
  intro d member name redefines
  obtain rfl := List.mem_singleton.mp member
  exact absurd redefines.take_message (by decide)

end Dcpu16
