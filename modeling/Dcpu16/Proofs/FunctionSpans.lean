import Dcpu16.Proofs.IndexSafety
import Dcpu16.Proofs.Reports

/-! The functions of a file.  A marker is a line that opens a function or closes one.  A function
spans from its last opening to the next marker, if that is a closing.  There is one warning for each
opening without a closing behind it and for each closing without an opening in front of it, and
there are no other warnings while records are built. -/

namespace Dcpu16

open Assembler

/-- A line that opens a function, or one that closes a function. -/
inductive Marker where
  | opening (line : SourceLine) (name : String)
  | closing (line : SourceLine)
  deriving DecidableEq, Repr

namespace Marker

/-- The marker that a line is. -/
def ofLine? (line : SourceLine) : Option Marker :=
  match line.statement.body with
  | .directive .func name => some (opening line name)
  | .directive .endfunc _ => some (closing line)
  | _ => none

/-- The markers among some lines. -/
def markers (lines : List SourceLine) : List Marker :=
  lines.filterMap ofLine?

/-- The line of the first marker, if it is a closing. -/
def end? : List Marker → Option Nat
  | closing line :: _ => some line.number
  | _ => none

/-- The span of a function: the line of its last opening, and the line of the next marker if that is
a closing. -/
def Spans (ms : List Marker) (name : String) (span : FunctionSpan) : Prop :=
  ∃ before line after, ms = before ++ opening line name :: after ∧
    (∀ other, opening other name ∉ after) ∧ span = ⟨line.number, end? after⟩

/-- The warning about a marker, which depends on the markers in front of it and behind it. -/
def warning? (file : String) (prev : Option Marker) (m : Marker) (next : Option Marker) :
    Option Diagnostic :=
  match m with
  | opening line name =>
    match next with
    | some (closing _) => none
    | some (opening later _) =>
      some ⟨.warning,
        AsmError.quoted (".func " ++ name) ++ " is not closed before the next `.func`", file,
        later.number, later.text⟩
    | none =>
      some ⟨.warning, AsmError.quoted (".func " ++ name) ++ " is never closed", file, line.number,
        line.text⟩
  | closing line =>
    match prev with
    | some (opening _ _) => none
    | _ => some ⟨.warning, "`.endfunc` without `.func`", file, line.number, line.text⟩

/-- The warnings about markers between two others, in their order. -/
def warnings (file : String) : Option Marker → List Marker → Option Marker → List Diagnostic
  | _, [], _ => []
  | prev, m :: ms, next =>
    (warning? file prev m (ms.head?.or next)).toList ++ warnings file (some m) ms next

/-! ### Markers behind others -/

variable {file name : String} {line : SourceLine} {ms : List Marker} {span : FunctionSpan}

theorem markers_snoc (lines : List SourceLine) (line : SourceLine) :
    markers (lines ++ [line]) = markers lines ++ (ofLine? line).toList := by
  rw [markers, List.filterMap_append, ← markers, List.filterMap_cons, List.filterMap_nil]
  cases ofLine? line <;> rfl

/-- A line opens a function, closes one, or leaves the functions alone. -/
theorem ofLine?_cases (line : SourceLine) :
    (∃ name, ofLine? line = some (opening line name) ∧
        line.statement.body = .directive .func name) ∨
      (∃ rest, ofLine? line = some (closing line) ∧
        line.statement.body = .directive .endfunc rest) ∨
      (ofLine? line = none ∧
        ∀ (f : FunctionSpans) (n : Nat), f.step n line.statement.body = (f, none)) := by
  unfold ofLine?
  split
  · next name body => exact .inl ⟨name, rfl, body⟩
  · next rest body => exact .inr (.inl ⟨rest, rfl, body⟩)
  · next notFunc notEndfunc =>
    refine .inr (.inr ⟨rfl, fun f n => ?_⟩)
    unfold FunctionSpans.step
    split
    · next name body => exact absurd body (notFunc name)
    · next rest body => exact absurd body (notEndfunc rest)
    · rfl

theorem mem_of_opening {lines : List SourceLine} (h : opening line name ∈ markers lines) :
    line ∈ lines ∧ line.statement.body = .directive .func name := by
  obtain ⟨source, member, marker⟩ := List.mem_filterMap.mp h
  rcases ofLine?_cases source with ⟨name, here, body⟩ | ⟨rest, here, -⟩ | ⟨here, -⟩
  · cases here.symm.trans marker
    exact ⟨member, body⟩
  · cases here.symm.trans marker
  · cases here.symm.trans marker

theorem mem_markers {lines : List SourceLine} (member : line ∈ lines)
    (body : line.statement.body = .directive .func name) : opening line name ∈ markers lines := by
  refine List.mem_filterMap.mpr ⟨line, member, ?_⟩
  rw [ofLine?, body]

theorem warnings_snoc (file : String) (prev : Option Marker) (ms : List Marker) (m : Marker)
    (next : Option Marker) :
    warnings file prev (ms ++ [m]) next =
      warnings file prev ms (some m) ++ (warning? file (ms.getLast?.or prev) m next).toList := by
  induction ms generalizing prev with
  | nil => simp [warnings]
  | cons first ms ih =>
    have head : (ms ++ [m]).head?.or next = ms.head?.or (some m) := by
      cases ms <;> rfl
    have last : ms.getLast?.or (some first) = (first :: ms).getLast?.or prev := by
      rw [List.getLast?_cons]
      cases ms.getLast? <;> rfl
    rw [List.cons_append, warnings, warnings, ih, head, last, List.append_assoc]

/-- The warning about an opening that is the last marker so far, if `next` comes behind it. -/
def pending? (file : String) (last next : Option Marker) : Option Diagnostic :=
  match last with
  | some (opening line name) => warning? file none (opening line name) next
  | _ => none

section Closed

variable {last : Option Marker} (closed : ∀ line name, last ≠ some (opening line name))
include closed

theorem pending?_of_closed (next : Option Marker) : pending? file last next = none := by
  unfold pending?
  split
  · next line name => exact absurd rfl (closed line name)
  · rfl

theorem warning?_of_closed (next : Option Marker) :
    warning? file last (closing line) next =
      some ⟨.warning, "`.endfunc` without `.func`", file, line.number, line.text⟩ := by
  unfold warning?
  dsimp only
  split
  · next line name => exact absurd rfl (closed line name)
  · rfl

end Closed

/-- Only the warning about a last opening depends on what comes behind the markers. -/
theorem warnings_eq_append (file : String) (ms : List Marker) (next : Option Marker)
    (line : SourceLine) :
    warnings file none ms next =
      warnings file none ms (some (closing line)) ++ (pending? file ms.getLast? next).toList := by
  rcases List.eq_nil_or_concat ms with rfl | ⟨front, last, rfl⟩
  · rfl
  · rw [List.concat_eq_append, warnings_snoc, warnings_snoc, List.getLast?_concat]
    cases last with
    | opening first name => simp [warning?, pending?]
    | closing first => simp [warning?, pending?]

/-! ### Spans -/

/-- The last opening of a function, if it is the last marker. -/
theorem eq_nil_of_split {before after : List Marker} {first : SourceLine}
    (split : ms ++ [opening line name] = before ++ opening first name :: after)
    (free : ∀ other, opening other name ∉ after) : first = line ∧ after = [] := by
  rcases List.eq_nil_or_concat after with rfl | ⟨front, last, rfl⟩
  · obtain ⟨-, same⟩ := List.append_inj' split rfl
    cases same
    exact ⟨rfl, rfl⟩
  · rw [List.concat_eq_append] at split free
    rw [← List.cons_append, ← List.append_assoc] at split
    obtain ⟨-, same⟩ := List.append_inj' split rfl
    cases same
    exact absurd (by simp) (free line)

/-- The last marker opens a function. -/
theorem spans_opening :
    Spans (ms ++ [opening line name]) name span ↔ span = ⟨line.number, none⟩ := by
  constructor
  · rintro ⟨before, first, after, split, free, rfl⟩
    obtain ⟨rfl, rfl⟩ := eq_nil_of_split split free
    rfl
  · rintro rfl
    exact ⟨ms, line, [], rfl, by simp, rfl⟩

theorem exists_spans (h : opening line name ∈ ms) : ∃ span, Spans ms name span := by
  induction ms generalizing line with
  | nil => cases h
  | cons m ms ih =>
    by_cases later : ∃ other, opening other name ∈ ms
    · obtain ⟨other, member⟩ := later
      obtain ⟨_, before, last, after, rfl, free, -⟩ := ih member
      exact ⟨_, m :: before, last, after, rfl, free, rfl⟩
    · rcases List.mem_cons.mp h with rfl | member
      · exact ⟨_, [], line, ms, rfl, not_exists.mp later, rfl⟩
      · exact absurd ⟨line, member⟩ later

/-- A marker that does not open the function can only close it. -/
theorem spans_snoc {m : Marker} (other : ∀ line, m ≠ opening line name) :
    Spans (ms ++ [m]) name span ↔ ∃ before line after, ms = before ++ opening line name :: after ∧
      (∀ other, opening other name ∉ after) ∧ span = ⟨line.number, end? (after ++ [m])⟩ := by
  constructor
  · rintro ⟨before, line, after, split, free, rfl⟩
    rcases List.eq_nil_or_concat after with rfl | ⟨front, last, rfl⟩
    · obtain ⟨-, same⟩ := List.append_inj' split rfl
      cases same
      exact absurd rfl (other line)
    · rw [List.concat_eq_append] at split free
      rw [← List.cons_append, ← List.append_assoc] at split
      obtain ⟨inner, same⟩ := List.append_inj' split rfl
      cases same
      rw [List.concat_eq_append]
      exact ⟨before, line, front, inner, fun l member => free l (by simp [member]), rfl⟩
  · rintro ⟨before, line, after, rfl, free, rfl⟩
    refine ⟨before, line, after ++ [m], by simp, fun l member => ?_, rfl⟩
    rcases List.mem_append.mp member with inside | last
    · exact free l inside
    · exact other l (List.mem_singleton.mp last).symm

/-- The last marker closes the function that the one in front of it opens. -/
theorem spans_closing {first : SourceLine} :
    Spans (ms ++ [opening first name] ++ [closing line]) name span ↔
      span = ⟨first.number, some line.number⟩ := by
  rw [spans_snoc (by simp)]
  constructor
  · rintro ⟨before, other, after, split, free, rfl⟩
    obtain ⟨rfl, rfl⟩ := eq_nil_of_split split free
    rfl
  · rintro rfl
    exact ⟨ms, first, [], rfl, by simp, rfl⟩

/-- Any other marker leaves the span of a function as it is. -/
theorem spans_other {m : Marker} (other : ∀ line, m ≠ opening line name)
    (apart : ∀ first line, ms.getLast? = some (opening first name) → m ≠ closing line) :
    Spans (ms ++ [m]) name span ↔ Spans ms name span := by
  have same {before after : List Marker} {line : SourceLine}
      (split : ms = before ++ opening line name :: after) : end? (after ++ [m]) = end? after := by
    cases after with
    | cons next after => cases next <;> rfl
    | nil =>
      cases m with
      | opening _ _ => rfl
      | closing last => exact absurd rfl (apart line last (by simp [split]))
  rw [spans_snoc other]
  constructor
  · rintro ⟨before, line, after, split, free, rfl⟩
    exact ⟨before, line, after, split, free, by rw [same split]⟩
  · rintro ⟨before, line, after, split, free, rfl⟩
    exact ⟨before, line, after, split, free, by rw [same split]⟩

end Marker

/-! ### One marker after the other -/

namespace FunctionSpans

open Marker

variable {f : FunctionSpans} {ms : List Marker} {line : SourceLine} {name : String}

/-- The functions after some markers: the last of them tells which one is open. -/
structure Follows (f : FunctionSpans) (ms : List Marker) : Prop where
  opened : ∀ name, f.opened = some name ↔ ∃ line, ms.getLast? = some (opening line name)
  spans : ∀ name span, f.spans.find? name = some span ↔ Spans ms name span

theorem follows_empty : empty.Follows [] := by
  refine ⟨by simp [empty], fun name span => ?_⟩
  simp [empty, Spans]

theorem Follows.opened_eq_none (h : f.Follows ms) :
    f.opened = none ↔ ∀ line name, ms.getLast? ≠ some (opening line name) := by
  rw [Option.eq_none_iff_forall_ne_some]
  constructor
  · intro closed line name last
    exact closed name ((h.opened name).mpr ⟨line, last⟩)
  · intro closed name opened
    obtain ⟨line, last⟩ := (h.opened name).mp opened
    exact closed line name last

theorem Follows.enter (h : f.Follows ms) (line : SourceLine) (name : String) :
    (f.enter line.number name).1.Follows (ms ++ [opening line name]) := by
  constructor
  · intro other
    simp [FunctionSpans.enter]
  · intro other span
    rw [FunctionSpans.enter, NameTable.find?_insert]
    by_cases same : other = name
    · subst same
      rw [if_pos rfl, spans_opening, Option.some.injEq, eq_comm]
    · rw [if_neg same, h.spans, spans_other]
      · rintro _ ⟨⟩
        exact same rfl
      · simp

/-- A closing ends the function that is open. -/
theorem Follows.leave_of_opening (h : f.Follows ms) {first : SourceLine}
    (last : ms.getLast? = some (opening first name)) (line : Nat) :
    f.leave line = (⟨f.spans.insert name ⟨first.number, some line⟩, none⟩, none) := by
  obtain ⟨front, rfl⟩ := List.getLast?_eq_some_iff.mp last
  have opened := (h.opened name).mpr ⟨first, last⟩
  have found := (h.spans name _).mpr (spans_opening.mpr rfl)
  simp [FunctionSpans.leave, opened, found]

theorem leave_of_none (closed : f.opened = none) (line : Nat) :
    f.leave line = ({ f with opened := none }, some "`.endfunc` without `.func`") := by
  simp [leave, closed]

theorem Follows.leave (h : f.Follows ms) (line : SourceLine) :
    (f.leave line.number).1.Follows (ms ++ [closing line]) := by
  cases opened : f.opened with
  | none =>
    have closed := h.opened_eq_none.mp opened
    rw [leave_of_none opened]
    refine ⟨by simp, fun name span => ?_⟩
    rw [h.spans, spans_other (by simp)]
    exact fun first _ last => absurd last (closed first name)
  | some name =>
    obtain ⟨first, last⟩ := (h.opened name).mp opened
    rw [h.leave_of_opening last]
    refine ⟨by simp, fun other span => ?_⟩
    rw [NameTable.find?_insert]
    by_cases same : other = name
    · subst same
      obtain ⟨front, rfl⟩ := List.getLast?_eq_some_iff.mp last
      rw [if_pos rfl, spans_closing, Option.some.injEq, eq_comm]
    · rw [if_neg same, h.spans, spans_other (by simp)]
      intro other' _ last'
      cases last.symm.trans last'
      exact absurd rfl same

theorem Follows.step (h : f.Follows ms) (line : SourceLine) :
    (f.step line.number line.statement.body).1.Follows (ms ++ (ofLine? line).toList) := by
  rcases ofLine?_cases line with ⟨name, marker, body⟩ | ⟨rest, marker, body⟩ | ⟨marker, idle⟩
  · rw [marker, body]
    exact h.enter line name
  · rw [marker, body]
    exact h.leave line
  · rw [marker, idle, Option.toList_none, List.append_nil]
    exact h

/-- A line adds the warnings about the markers up to it.  An opening is given time until the next
marker, as if a closing came behind it. -/
theorem Follows.warnings_step (h : f.Follows ms) (file : String) (line end_ : SourceLine) :
    warnings file none (ms ++ (ofLine? line).toList) (some (closing end_)) =
      warnings file none ms (some (closing end_)) ++
        ((f.step line.number line.statement.body).2.map fun message =>
          (⟨.warning, message, file, line.number, line.text⟩ : Diagnostic)).toList := by
  rcases ofLine?_cases line with ⟨name, marker, body⟩ | ⟨rest, marker, body⟩ | ⟨marker, idle⟩
  · rw [marker, body, Option.toList_some, warnings_snoc, warnings_eq_append file ms _ end_]
    cases opened : f.opened with
    | none =>
      rw [pending?_of_closed (h.opened_eq_none.mp opened)]
      simp [warning?, FunctionSpans.step, FunctionSpans.enter, opened]
    | some other =>
      obtain ⟨first, last⟩ := (h.opened other).mp opened
      simp [last, pending?, warning?, FunctionSpans.step, FunctionSpans.enter, opened]
  · rw [marker, body, Option.toList_some, warnings_snoc, warnings_eq_append file ms _ end_,
      Option.or_none]
    cases opened : f.opened with
    | none =>
      have closed := h.opened_eq_none.mp opened
      rw [pending?_of_closed closed, warning?_of_closed closed]
      simp [FunctionSpans.step, leave_of_none opened]
    | some other =>
      obtain ⟨first, last⟩ := (h.opened other).mp opened
      simp [last, pending?, warning?, FunctionSpans.step, h.leave_of_opening last]
  · rw [marker, idle]
    simp

end FunctionSpans

/-! ### Files -/

namespace SourceFile

open Marker

variable {source : SourceFile} {table : SymbolTable} {line : SourceLine} {build build' : Build}
  {s t : Session}

theorem log_of_markFunction (run : source.markFunction line build s = .ok build' t) :
    t.log = s.log ++ ((build.functions.step line.number line.statement.body).2.map fun message =>
      (⟨.warning, message, source.file, line.number, line.text⟩ : Diagnostic)).toList := by
  unfold markFunction at run
  dsimp only at run
  cases warned : (build.functions.step line.number line.statement.body).2 with
  | none =>
    simp only [warned] at run
    cases run
    simp
  | some message =>
    simp only [warned] at run
    cases run
    rfl

/-- Records are built without a word. -/
theorem allows_log (log : Log) : Allows (fun s => s.log = log) fun _ => False :=
  ⟨fun _ _ same => same, fun _ _ never => never.elim⟩

theorem log_of_buildLine (run : source.buildLine table build line s = .ok build' t) :
    t.log = s.log ++ ((build.functions.step line.number line.statement.body).2.map fun message =>
      (⟨.warning, message, source.file, line.number, line.text⟩ : Diagnostic)).toList := by
  obtain ⟨entered, u, hEnter, run₁⟩ := bind_eq_ok.mp run
  obtain ⟨marked, v, hMark, run₂⟩ := bind_eq_ok.mp run₁
  obtain ⟨content?, w, hContent, run₃⟩ := bind_eq_ok.mp run₂
  obtain rfl : s = u := ((keeps_enterLabel table line build s rfl).ok hEnter).1
  have silent := allows_log v.log
  have reading : w.log = v.log :=
    ((keeps_content? silent.markReferenced line marked.scope v rfl).ok hContent).1
  have adding : t.log = v.log := by
    cases content? with
    | none =>
      cases run₃
      exact reading
    | some content => exact ((silent.addRecord line content marked w reading).ok run₃).1
  rw [adding, log_of_markFunction hMark, functions_of_enterLabel hEnter]

/-- The functions and the warnings after some lines. -/
theorem follows_of_buildLines {lines : List SourceLine} (end_ : SourceLine)
    (run : source.buildLines table lines s = .ok build t) :
    build.functions.Follows (markers lines) ∧
      t.log = s.log ++ warnings source.file none (markers lines) (some (closing end_)) := by
  refine foldlM_keeps (fun done (build : Build) (u : Session) =>
    build.functions.Follows (markers done) ∧
      u.log = s.log ++ warnings source.file none (markers done) (some (closing end_)))
    (fun done line rest _ {a b u v} h step => ?_)
    ⟨FunctionSpans.follows_empty, (List.append_nil _).symm⟩ run
  obtain ⟨follows, log⟩ := h
  rw [markers_snoc, functions_of_buildLine step, log_of_buildLine step,
    follows.warnings_step source.file line end_, log, List.append_assoc]
  exact ⟨follows.step line, rfl⟩

theorem log_of_closeFunctions {u : Unit} (read : source.WellRead)
    (follows : build.functions.Follows (markers source.lines))
    (run : source.closeFunctions build s = .ok u t) :
    t.log = s.log ++ (pending? source.file (markers source.lines).getLast? none).toList := by
  unfold closeFunctions at run
  cases opened : build.functions.opened with
  | none =>
    simp only [opened] at run
    cases run
    rw [pending?_of_closed (follows.opened_eq_none.mp opened)]
    simp
  | some name =>
    obtain ⟨line, last⟩ := (follows.opened name).mp opened
    obtain ⟨front, split⟩ := List.getLast?_eq_some_iff.mp last
    have found := (follows.spans name _).mpr (split ▸ spans_opening.mpr rfl)
    obtain ⟨member, -⟩ := mem_of_opening (List.mem_of_getLast? last)
    obtain ⟨i, here⟩ := List.mem_iff_getElem?.mp member
    simp only [opened, found, Option.map_some, Option.getD_some] at run
    obtain ⟨shown, v, hLine, warned⟩ := bind_eq_ok.mp run
    obtain ⟨there, rfl⟩ := require_eq_ok.mp hLine
    rw [read.number here, here, Option.some.injEq] at there
    subst there
    cases warned
    rw [last]
    rfl

theorem follows_of_build (read : source.WellRead) (run : source.build table s = .ok build t) :
    build.functions.Follows (markers source.lines) ∧
      t.log = s.log ++ warnings source.file none (markers source.lines) none := by
  rw [build_eq_bind] at run
  obtain ⟨lines, u, hLines, rest⟩ := bind_eq_ok.mp run
  obtain ⟨_, v, hFunctions, hLabels⟩ := bind_eq_ok.mp rest
  let end_ : SourceLine := ⟨0, "", none, .empty⟩
  obtain ⟨follows, log⟩ := follows_of_buildLines end_ hLines
  have closed := log_of_closeFunctions read follows hFunctions
  rw [log, List.append_assoc, ← warnings_eq_append] at closed
  rcases closeLabels_eq_ok hLabels with ⟨-, rfl, rfl⟩ | ⟨line, added⟩
  · exact ⟨follows, closed⟩
  · rw [functions_of_addRecord added, ← closed]
    exact ⟨follows, (((allows_log v.log).addRecord line .mark lines v rfl).ok added).1⟩

end SourceFile

namespace ObjectFile

open Marker

variable {options : Options} {file text : String} {o : ObjectFile} {s t : Session}

/-- The functions of a file are exact.  There is an entry for every name that a `.func` line has,
from the last such line to the next marker if that is an `.endfunc`.  While the records are built
exactly the markers without a partner are warned of, each once. -/
theorem functions_of_assemble (run : assemble options file text s = .ok o t) :
    (∀ (i : Nat) (line : SourceLine), o.lines[i]? = some line → line.number = i) ∧
    (∀ name, (∃ span, o.functions.find? name = some span) ↔
      ∃ line ∈ o.lines, line.statement.body = .directive .func name) ∧
    (∀ name span, o.functions.find? name = some span ↔ Spans (markers o.lines) name span) ∧
    ∃ u build, o.BuiltIn options text s u ∧ o.source.build o.table u = .ok build t ∧
      t.log = u.log ++ warnings file none (markers o.lines) none := by
  obtain ⟨rfl, u, build, stages⟩ := stages_of_assemble run
  obtain ⟨follows, log⟩ := SourceFile.follows_of_build stages.wellRead stages.run
  have spans (name : String) (span : FunctionSpan) :
      o.functions.find? name = some span ↔ Spans (markers o.lines) name span := by
    rw [stages.functions]
    exact follows.spans name span
  refine ⟨stages.wellRead.number, fun name => ?_, spans, u, build, stages.builtIn, stages.run, log⟩
  simp only [spans]
  constructor
  · rintro ⟨span, before, line, after, split, -⟩
    exact ⟨line, mem_of_opening (split ▸ by simp)⟩
  · rintro ⟨line, member, body⟩
    exact exists_spans (mem_markers member body)

/-- A function is opened twice and closed once, another one is opened inside of it, one marker
closes nothing, and the last function stays open. -/
theorem functions_of_nested_markers :
    let job : Job := ⟨{}, "a.s",
      ".func f\n.func g\nset a, 1\n.endfunc\n.endfunc\n.FUNC f\n:at\n.endfunc f\n.func h"⟩
    ∃ o, assemble job.options job.file job.text .empty = .ok o (Session.empty.next job) ∧
      o.functions.entries = [("f", ⟨5, some 7⟩), ("g", ⟨1, some 3⟩), ("h", ⟨8, none⟩)] ∧
      (Session.empty.next job).log.map (fun d => (d.line, d.message)) =
        [(1, "`.func f` is not closed before the next `.func`"), (4, "`.endfunc` without `.func`"),
          (8, "`.func h` is never closed")] ∧
      (∀ name span, o.functions.find? name = some span ↔ Spans (markers o.lines) name span) ∧
      ∃ u, o.BuiltIn job.options job.text .empty u ∧
        (Session.empty.next job).log = u.log ++ warnings job.file none (markers o.lines) none := by
  intro job
  have evaluated : (job.object? .empty).map (fun o => (o.functions.entries,
      (Session.empty.next job).log.map fun d => (d.line, d.message))) =
      some ([("f", ⟨5, some 7⟩), ("g", ⟨1, some 3⟩), ("h", ⟨8, none⟩)],
        [(1, "`.func f` is not closed before the next `.func`"), (4, "`.endfunc` without `.func`"),
          (8, "`.func h` is never closed")]) := by
    decide +kernel
  obtain ⟨o, present, same⟩ := Option.map_eq_some_iff.mp evaluated
  obtain ⟨entries, log⟩ := Prod.mk.inj same
  have run := Job.assemble_of_object? present
  obtain ⟨-, -, spans, u, -, builtIn, -, added⟩ := functions_of_assemble run
  exact ⟨o, run, entries, log, spans, u, builtIn, added⟩

end ObjectFile

end Dcpu16
