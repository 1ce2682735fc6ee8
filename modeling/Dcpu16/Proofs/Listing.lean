import Dcpu16.Listing
import Dcpu16.Proofs.Decoding
import Dcpu16.Proofs.Invariant
import Dcpu16.Proofs.Reading

/-! The listing of an image.  Its lines show the words of the image, block after block, each with
the address of its first word.  The line of an operation shows a machine instruction if the
operation could be made; after a failure it shows the source. -/

namespace Dcpu16

open Text

/-! ### Reading the columns of a line -/

namespace Row

/-- Does the row show a symbol? -/
def isLabel : Row → Bool
  | label _ => true
  | instruction .. | data .. => false

/-- The parts of a text between blanks. -/
def pieces (cs : List Char) : List (List Char) :=
  (cs.splitOn ' ').filter fun piece => !piece.isEmpty

theorem pieces_cons (rest : List Char) : pieces (' ' :: rest) = pieces rest := by
  simp [pieces, List.splitOn, List.splitOnP_cons_eq_if_modifyHead]

/-- The address and the words of a row. -/
def block? : Row → Option (Nat × List Word)
  | label _ => none
  | instruction address words .. | data address words _ => address.map (·, words)

end Row

/-! ### Blocks of words -/

/-- Rows that show the words `ws` from an address on, each a block that is not empty and stands
behind the one before it. -/
inductive Covers : Nat → List Row → List Word → Prop
  | nil (address : Nat) : Covers address [] []
  | cons {address : Nat} {row : Row} {rows : List Row} {block ws : List Word}
      (shows : row.block? = some (address, block)) (nonempty : block ≠ [])
      (rest : Covers (address + block.length) rows ws) :
      Covers address (row :: rows) (block ++ ws)

namespace Covers

variable {address : Nat} {rows rows' : List Row} {ws ws' : List Word}

theorem single {row : Row} (shows : row.block? = some (address, ws)) (nonempty : ws ≠ []) :
    Covers address [row] ws := by
  have one : Covers address [row] (ws ++ []) := .cons shows nonempty (.nil _)
  rwa [List.append_nil] at one

theorem append (h : Covers address rows ws) (h' : Covers (address + ws.length) rows' ws') :
    Covers address (rows ++ rows') (ws ++ ws') := by
  induction h with
  | nil address => exact h'
  | cons shows nonempty _ ih =>
    rw [List.cons_append, List.append_assoc]
    refine .cons shows nonempty (ih ?_)
    rwa [List.length_append, ← Nat.add_assoc] at h'

theorem filter_eq (h : Covers address rows ws) : (rows.filter fun row => !row.isLabel) = rows := by
  induction h with
  | nil => rfl
  | @cons _ row _ _ _ shows _ _ ih =>
    cases row with
    | label name => cases shows
    | instruction | data => rw [List.filter_cons_of_pos rfl, ih]

end Covers

/-- Data is cut into blocks of four words, so that each of them starts four words behind the one
before it. -/
theorem covers_dataRows (place : String) (address : Nat) (ws : List Word) :
    Covers address (dataRows place (some address) (quads ws)) ws := by
  fun_induction quads ws generalizing address with
  | case1 a b c d e rest ih =>
    have first : [a, b, c, d] ≠ [] := by simp
    exact Covers.cons rfl first (ih (address + 4))
  | case2 => exact .nil address
  | case3 ws few nonempty => exact .single rfl nonempty

namespace Record

variable {program : Program} {log : Log} {r : Record} {rs : List Record} {i : Instruction}

theorem covers_contentRows {word : Word} (address : r.address = some word)
    (full : r.wordList.length = r.size) : Covers word.toNat r.contentRows r.wordList := by
  unfold contentRows
  rw [address]
  cases content : r.content with
  | operation o =>
    refine .single rfl fun empty => ?_
    rw [empty, size, content] at full
    simp [Content.size, Operation.size] at full
    omega
  | data ws => exact covers_dataRows _ _ _
  | mark =>
    rw [size, content] at full
    rw [List.eq_nil_of_length_eq_zero full]
    exact .nil _

theorem rows?_eq_some {symbols : SymbolStore} {name : SymbolId → String}
    (named : ∀ x ∈ r.defined, symbols.mangled? x = some (name x)) :
    r.rows? symbols = some ((r.defined.map name).map Row.label ++ r.contentRows) := by
  rw [rows?, Runs.mapM_eq_some_map named]
  rfl

end Record

namespace Image

variable {sources : List (String × String)} {options : Options} {s : Session} {image : Image}

/-- Every symbol that a record binds has a name to be shown by. -/
theorem Finished.isSome_mangled? (h : Finished sources options s image)
    (sound : image.program.Sound) {r : Record} (member : r ∈ image.allRecords) {x : SymbolId}
    (bound : x ∈ r.defined) : (image.program.symbols.mangled? x).isSome := by
  have found : ∃ sym, image.program.symbols.get? x = some sym := by
    rcases List.mem_append.mp member with inside | closing
    · obtain ⟨sym, found, -⟩ := h.bound r inside x bound
      exact ⟨sym, found⟩
    · obtain ⟨word, rfl, -⟩ := h.closing_eq (Option.mem_toList.mp closing)
      obtain ⟨sym, found, -⟩ := h.endMark
      rw [List.mem_singleton.mp bound]
      exact ⟨sym, found⟩
  obtain ⟨sym, found⟩ := found
  exact sound.linked.isSome_mangled? (Nat.zero_le x) found

/-- The rows of an image that are not those of symbols show the content of its records. -/
theorem Finished.exists_rows (h : Finished sources options s image)
    (sound : image.program.Sound) : ∃ rows, image.rows? = some rows ∧
      (rows.filter fun row => !row.isLabel) = image.allRecords.flatMap Record.contentRows := by
  let name (x : SymbolId) : String := (image.program.symbols.mangled? x).getD ""
  let labels (r : Record) : List Row := (r.defined.map name).map Row.label
  have rows : image.allRecords.mapM (fun r => r.rows? image.program.symbols) =
      some (image.allRecords.map fun r => labels r ++ r.contentRows) := by
    refine Runs.mapM_eq_some_map fun r member => Record.rows?_eq_some fun x bound => ?_
    obtain ⟨key, named⟩ := Option.isSome_iff_exists.mp (h.isSome_mangled? sound member bound)
    rw [named]
    simp [name, named]
  refine ⟨image.allRecords.flatMap fun r => labels r ++ r.contentRows, ?_, ?_⟩
  · rw [rows?, rows]
    rfl
  · rw [List.filter_flatMap]
    refine List.flatMap_congr fun r member => ?_
    have none : (labels r).filter (fun row => !row.isLabel) = [] := by
      simp [labels, List.filter_eq_nil_iff, Row.isLabel]
    obtain ⟨before, after, split⟩ := List.append_of_mem member
    obtain ⟨word, address, -⟩ := (split ▸ h.row_allRecords).split
    rw [List.filter_append, none, List.nil_append]
    exact (Record.covers_contentRows address (h.length_wordList member)).filter_eq

end Image

end Dcpu16
