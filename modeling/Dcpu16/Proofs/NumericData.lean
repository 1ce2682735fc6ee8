import Dcpu16.Proofs.Grammar
import Dcpu16.Proofs.Operands
import Dcpu16.Proofs.RoundTrip

/-! Numbers as data.  A list of numbers, each in decimal or hexadecimal and with a minus sign or
without one, is stored number by number, modulo the size of a cell; the first number that no cell
holds is reported.  Words that are printed as data are read again.  A number has 64 bits, and a sign
behind the mark of a hexadecimal number makes it possible to negate the least of them. -/

namespace Dcpu16

open Text Text.Numeral

/-! ### Signed numerals -/

namespace Text.Numeral

variable {base n : Nat} {cs : List Char}

/-- Digits do not start with a sign. -/
theorem readInt?_of_digits? (h : digits? base cs = some n) : readInt? base cs = some (n : Int) := by
  unfold readInt?
  split
  · simp [digits?, digitsFrom?, digit?, show hexValue? '-' = none from rfl] at h
  · rw [readNat?_of_digits? h]
    rfl

theorem readInt64?_of_digits? (h : digits? base cs = some n) (fits : (n : Int) ≤ int64Max) :
    readInt64? base cs = some (n : Int) := by
  have low : int64Min ≤ (n : Int) := by
    unfold int64Min
    omega
  rw [readInt64?, readInt?_of_digits? h]
  exact Option.filter_some_pos (by simp [low, fits])

theorem range_of_readInt64? {v : Int} (h : readInt64? base cs = some v) :
    int64Min ≤ v ∧ v ≤ int64Max := by
  have range := (Option.filter_eq_some_iff.mp h).2
  simpa using range

/-- The least number is written with a sign. -/
theorem readInt64?_eq_least : readInt64? base cs = some int64Min ↔
    ∃ digits, cs = '-' :: digits ∧ Denotes base digits 0x8000000000000000 := by
  rw [readInt64?, Option.filter_eq_some_iff]
  constructor
  · rintro ⟨read, -⟩
    unfold readInt? at read
    split at read
    · next digits =>
      obtain ⟨v, lifted, same⟩ := Option.map_eq_some_iff.mp read
      obtain ⟨n, value, rfl⟩ : ∃ n : Nat, digits? base digits = some n ∧ (n : Int) = v := by
        simpa [Option.bind_eq_some_iff] using lifted
      obtain rfl : n = 0x8000000000000000 := by
        unfold int64Min at same
        omega
      exact ⟨digits, rfl, (digits?_eq_some.mp value).2⟩
    · obtain ⟨n, -, same⟩ := Option.map_eq_some_iff.mp read
      have negative : (n : Int) = -0x8000000000000000 := same
      omega
  · rintro ⟨digits, rfl, value⟩
    have nonempty : digits ≠ [] := by
      rintro rfl
      obtain ⟨ds, each, sum⟩ := value
      cases each
      cases sum
    have read := digits?_eq_some.mpr ⟨nonempty, value⟩
    simp only [readInt?, read]
    decide

end Text.Numeral

namespace Data

/-! ### Items -/

/-- How the digits of a number are to be read. -/
inductive Radix where
  | decimal
  | lowerHex
  | upperHex
  deriving DecidableEq, Repr

/-- The base that the digits are read in. -/
def Radix.base : Radix → Nat
  | decimal => 10
  | lowerHex | upperHex => 16

/-- What stands in front of the digits. -/
def Radix.mark : Radix → List Char
  | decimal => []
  | lowerHex => ['0', 'x']
  | upperHex => ['0', 'X']

theorem Radix.isTokenChar_mark (r : Radix) : ∀ c ∈ r.mark, isTokenChar c = true := by
  apply List.all_eq_true.mp
  cases r <;> rfl

/-- A number as it is written: white space, perhaps a minus sign with more white space, a mark and
digits, and again white space.  `minus` is what stands between the sign and the digits. -/
structure Item where
  before : List Char
  minus : Option (List Char)
  radix : Radix
  digits : List Char
  after : List Char
  magnitude : Nat
  leading : ∀ c ∈ before, isBlank c = true
  gap : ∀ c ∈ minus.getD [], isBlank c = true
  trailing : ∀ c ∈ after, isBlank c = true
  nonempty : digits ≠ []
  denotes : Denotes radix.base digits magnitude
  fits : (magnitude : Int) ≤ int64Max

namespace Item

variable (i : Item)

/-- The digits and the mark in front of them. -/
def numeral : List Char :=
  i.radix.mark ++ i.digits

/-- The number and its sign. -/
def core : List Char :=
  (i.minus.map ('-' :: ·)).getD [] ++ i.numeral

/-- The number with the white space around it. -/
def text : List Char :=
  i.before ++ (i.core ++ i.after)

/-- The number that is written. -/
def value : Int :=
  if i.minus.isSome then -i.magnitude else i.magnitude

/-- The text of a list of numbers. -/
def join (items : List Item) : List Char :=
  [','].intercalate (items.map text)

theorem digits?_digits : digits? i.radix.base i.digits = some i.magnitude :=
  digits?_eq_some.mpr ⟨i.nonempty, i.denotes⟩

theorem digitsFrom?_digits : digitsFrom? i.radix.base 0 i.digits = some i.magnitude :=
  digitsFrom?_eq_some.mpr ⟨_, i.denotes, by rw [Nat.zero_mul, Nat.zero_add]⟩

theorem isToken_numeral : IsToken i.numeral := by
  obtain ⟨nonempty, chars⟩ := isToken_of_digitsFrom? i.nonempty i.digitsFrom?_digits
  refine ⟨by simp [numeral, nonempty], fun c member => ?_⟩
  rcases List.mem_append.mp member with mark | inside
  · exact i.radix.isTokenChar_mark c mark
  · exact chars c inside

theorem magnitude?_numeral : magnitude? i.numeral = some (i.magnitude : Int) := by
  have read := readInt64?_of_digits? i.digits?_digits i.fits
  have digits := i.digitsFrom?_digits
  cases radix : i.radix with
  | decimal =>
    rw [radix] at read digits
    have numeral : i.numeral = i.digits := by
      rw [numeral, radix]
      rfl
    obtain ⟨c, cs, split⟩ := List.exists_cons_of_ne_nil i.nonempty
    have digit : c.isDigit = true :=
      isDigit_of_digit? (isSome_of_digitsFrom? digits (split ▸ List.mem_cons_self))
    rw [numeral, magnitude?, afterHexMark?_of_digitsFrom? digits]
    dsimp only
    rw [if_pos (by simp [split, digit])]
    exact read
  | lowerHex =>
    rw [numeral, radix]
    rw [radix] at read
    exact read
  | upperHex =>
    rw [numeral, radix]
    rw [radix] at read
    exact read

theorem trim_text : trim i.text = i.core := by
  have token := i.isToken_numeral
  refine trim_pad i.leading i.trailing (by simp [core, token.nonempty]) (fun c head => ?_)
    fun c last => ?_
  · unfold core at head
    cases minus : i.minus with
    | none =>
      rw [minus] at head
      exact isBlank_of_isTokenChar (token.chars c (List.mem_of_mem_head? head))
    | some gap =>
      rw [minus] at head
      cases head
      decide
  · rw [core, List.getLast?_append_of_ne_nil _ token.nonempty] at last
    exact isBlank_of_isTokenChar (token.chars c (List.mem_of_getLast? last))

theorem readItem_text : readItem i.text = .ok i.value := by
  have token := i.isToken_numeral
  have read := i.magnitude?_numeral
  unfold readItem
  dsimp only
  rw [i.trim_text, core]
  cases minus : i.minus with
  | none =>
    have unsigned : dropHead? '-' i.numeral = none := by
      rw [Option.eq_none_iff_forall_ne_some]
      intro rest inFront
      exact token.not_mem rfl (by rw [dropHead?_eq_some.mp inFront]; exact List.mem_cons_self)
    simp [unsigned, read, value, minus]
  | some gap =>
    have blank : ∀ c ∈ gap, isBlank c = true := by
      have := i.gap
      rwa [minus] at this
    have trimmed : trimStart (gap ++ i.numeral) = i.numeral := by
      rw [trimStart, List.dropWhile_append_of_pos blank]
      apply trimStart_of_head
      intro c head
      exact isBlank_of_isTokenChar (token.chars c (List.mem_of_mem_head? head))
    have other : (i.magnitude : Int) ≠ int64Min := by
      unfold int64Min
      omega
    simp [dropHead?, trimmed, read, other, value, minus]

theorem comma_not_mem_text : ',' ∉ i.text := by
  have blank {cs : List Char} (h : ∀ c ∈ cs, isBlank c = true) : ',' ∉ cs := by
    intro member
    cases h _ member
  have numeral : ',' ∉ i.numeral := i.isToken_numeral.not_mem rfl
  have before := blank i.leading
  have after := blank i.trailing
  have gap := blank i.gap
  cases minus : i.minus with
  | none => simp [text, core, minus, before, after, numeral]
  | some space =>
    rw [minus] at gap
    simpa [text, core, minus, before, after, numeral] using gap

end Item

theorem intercalate_cons (sep x : List Char) (xs : List (List Char)) :
    sep.intercalate (x :: xs) = x ++ xs.flatMap (sep ++ ·) := by
  induction xs generalizing x with
  | nil => simp
  | cons y ys ih =>
    rw [List.intercalate_cons_cons, ih]
    simp

theorem mem_intercalate {sep x : List Char} {xs : List (List Char)} {c : Char} (listed : x ∈ xs)
    (member : c ∈ x) : c ∈ sep.intercalate xs := by
  cases xs with
  | nil => cases listed
  | cons y ys =>
    rw [intercalate_cons, List.mem_append, List.mem_flatMap]
    rcases List.mem_cons.mp listed with rfl | later
    · exact .inl member
    · exact .inr ⟨x, later, List.mem_append_right _ member⟩

theorem readItems_join (items : List Item) :
    readItems (Item.join items) = .ok (items.map Item.value) := by
  cases items with
  | nil => rfl
  | cons i items =>
    have parts : (Item.join (i :: items)).splitOn ',' = (i :: items).map Item.text := by
      apply List.splitOn_intercalate
      · intro text member
        obtain ⟨j, -, rfl⟩ := List.mem_map.mp member
        exact j.comma_not_mem_text
      · simp
    have filled : (trim (Item.join (i :: items))).isEmpty = false := by
      obtain ⟨c, member⟩ := List.exists_mem_of_ne_nil _ i.isToken_numeral.nonempty
      have blank := isBlank_of_isTokenChar (i.isToken_numeral.chars c member)
      have inText : c ∈ i.text := by simp [Item.text, Item.core, member]
      have inJoin : c ∈ Item.join (i :: items) := mem_intercalate (by simp) inText
      rw [List.isEmpty_eq_false_iff]
      exact List.ne_nil_of_mem (mem_trim inJoin blank)
    rw [readItems, filled, parts, if_neg (by decide), List.mapM_map]
    exact Runs.mapM_eq_ok_map fun j _ => j.readItem_text

/-! ### Cells -/

/-- What a number is stored in: the least and the greatest number that it holds, the modulus by
which it stores them, and the error for any other number. -/
structure Cell where
  low : Int
  high : Int
  modulus : Int
  overflow : Int → AsmError

namespace Cell

/-- A word holds signed and unsigned numbers of 16 bits. -/
def word : Cell := ⟨-0x8000, 0xFFFF, 0x10000, .wordOverflow⟩

/-- A byte holds signed and unsigned numbers of 8 bits. -/
def byte : Cell := ⟨-0x80, 0xFF, 0x100, .byteOverflow⟩

/-- The number is neither below nor above those that the cell holds. -/
def Holds (cell : Cell) (v : Int) : Prop :=
  cell.low ≤ v ∧ v ≤ cell.high

instance (cell : Cell) (v : Int) : Decidable (cell.Holds v) :=
  inferInstanceAs (Decidable (_ ∧ _))

end Cell

end Data

/-- The cells of a directive for numbers. -/
def Directive.cell? : Directive → Option Data.Cell
  | byte => some .byte
  | short | word | uint16T | uint16 => some .word
  | _ => none

namespace Data

/-- A function that stores numbers in the cells. -/
structure Cell.Stores (cell : Cell) (store : Int → Except AsmError Word) : Prop where
  holds : ∀ v, cell.Holds v → ∃ w, store v = .ok w ∧ (w.toNat : Int) = v % cell.modulus
  rejects : ∀ v, ¬ cell.Holds v → store v = .error (cell.overflow v)

theorem toNat_ofInt (v : Int) : ((Word.ofInt v).toNat : Int) = v % 0x10000 := by
  have small : (v % 0x10000).toNat < 0x10000 := by omega
  rw [Word.ofInt, UInt16.toNat_ofNat_of_lt' small]
  omega

theorem stores_word : Cell.word.Stores Word.store where
  holds v h := by
    have h : -0x8000 ≤ v ∧ v ≤ 0xFFFF := h
    exact ⟨Word.ofInt v, by rw [Word.store, if_pos h], toNat_ofInt v⟩
  rejects v h := by
    have h : ¬ (-0x8000 ≤ v ∧ v ≤ 0xFFFF) := h
    rw [Word.store, if_neg h]
    rfl

theorem stores_byte : Cell.byte.Stores Word.storeByte where
  holds v h := by
    have h : -0x80 ≤ v ∧ v ≤ 0xFF := h
    refine ⟨Word.ofInt (v % 0x100), by rw [Word.storeByte, if_pos h], ?_⟩
    rw [toNat_ofInt]
    show v % 0x100 % 0x10000 = v % 0x100
    omega
  rejects v h := by
    have h : ¬ (-0x80 ≤ v ∧ v ≤ 0xFF) := h
    rw [Word.storeByte, if_neg h]
    rfl

/-- A directive for numbers reads a list of them and stores each. -/
theorem exists_store {d : Directive} {cell : Cell} (numeric : d.cell? = some cell) :
    ∃ store, cell.Stores store ∧ ∀ rest : String, parse d rest = readNumbers store rest.toList := by
  cases d <;> cases numeric
  · exact ⟨_, stores_byte, fun _ => rfl⟩
  · exact ⟨_, stores_word, fun _ => rfl⟩
  · exact ⟨_, stores_word, fun _ => rfl⟩
  · exact ⟨_, stores_word, fun _ => rfl⟩
  · exact ⟨_, stores_word, fun _ => rfl⟩

theorem parse_join {d : Directive} {store : Int → Except AsmError Word}
    (reads : ∀ rest : String, parse d rest = readNumbers store rest.toList) (items : List Item) :
    parse d (String.ofList (Item.join items)) =
      ((items.map Item.value).mapM store).mapError Stop.error := by
  rw [reads, String.toList_ofList, readNumbers, readItems_join]
  rfl

theorem parse_join_of_holds {d : Directive} {cell : Cell} (numeric : d.cell? = some cell)
    {items : List Item} (holds : ∀ i ∈ items, cell.Holds i.value) :
    ∃ words, parse d (String.ofList (Item.join items)) = .ok words ∧
      words.map (fun w => (w.toNat : Int)) = items.map fun i => i.value % cell.modulus := by
  obtain ⟨store, stores, reads⟩ := exists_store numeric
  have each : ∀ v ∈ items.map Item.value,
      ∃ w, store v = .ok w ∧ (w.toNat : Int) = v % cell.modulus := by
    intro v member
    obtain ⟨i, inside, rfl⟩ := List.mem_map.mp member
    exact stores.holds _ (holds i inside)
  obtain ⟨words, run, stored⟩ := Runs.exists_mapM_ok each
  refine ⟨words, by rw [parse_join reads, run]; rfl, ?_⟩
  have same : (items.map Item.value).map (· % cell.modulus) = words.map fun w => (w.toNat : Int) :=
    Runs.map_eq_of_forall₂ stored fun v w equal => equal.symm
  rw [← same, List.map_map]
  rfl

theorem parse_join_of_overflow {d : Directive} {cell : Cell} (numeric : d.cell? = some cell)
    {before after : List Item} {i : Item} (holds : ∀ j ∈ before, cell.Holds j.value)
    (outside : ¬ cell.Holds i.value) :
    parse d (String.ofList (Item.join (before ++ i :: after))) =
      .error (.error (cell.overflow i.value)) := by
  obtain ⟨store, stores, reads⟩ := exists_store numeric
  have run : ((before ++ i :: after).map Item.value).mapM store =
      .error (cell.overflow i.value) := by
    rw [Runs.mapM_eq_error]
    refine ⟨before.map Item.value, i.value, after.map Item.value, by simp, ?_,
      stores.rejects _ outside⟩
    intro v member
    obtain ⟨j, inside, rfl⟩ := List.mem_map.mp member
    obtain ⟨w, stored, -⟩ := stores.holds _ (holds j inside)
    exact ⟨w, stored⟩
  rw [parse_join reads, run]
  rfl

/-! ### Words that are printed -/

/-- A word as it is printed behind a comma, or as the first of a list. -/
def Item.ofWord (first : Bool) (w : Word) : Item where
  before := if first then [] else [' ']
  minus := none
  radix := .lowerHex
  digits := (hex w.toNat).toList
  after := []
  magnitude := w.toNat
  leading := by cases first <;> simp [isBlank_blank]
  gap := by simp
  trailing := by simp
  nonempty := hex_ne_nil _
  denotes := by
    obtain ⟨k, denotes, sum⟩ := digitsFrom?_eq_some.mp (digitsFrom?_hex w.toNat)
    rw [Nat.zero_mul, Nat.zero_add] at sum
    exact sum ▸ denotes
  fits := by
    have := w.toNat_lt
    unfold int64Max
    omega

/-- The list that words are printed as. -/
def itemsOf : List Word → List Item
  | [] => []
  | w :: ws => .ofWord true w :: ws.map (.ofWord false)

theorem Item.value_ofWord (first : Bool) (w : Word) : (ofWord first w).value = (w.toNat : Int) :=
  rfl

theorem value_itemsOf (words : List Word) :
    (itemsOf words).map Item.value = words.map fun w => (w.toNat : Int) := by
  cases words with
  | nil => rfl
  | cons w ws => simp [itemsOf, Item.value_ofWord, Function.comp_def]

theorem join_itemsOf (words : List Word) : Item.join (itemsOf words) =
    [',', ' '].intercalate (words.map fun w => (Item.ofWord true w).numeral) := by
  cases words with
  | nil => rfl
  | cons w ws =>
    simp [itemsOf, Item.join, intercalate_cons, List.flatMap_map, Item.text, Item.core,
      Item.numeral, Item.ofWord]

theorem toList_render (words : List Word) :
    (render words).toList = Directive.word.name.toList ++ ' ' :: Item.join (itemsOf words) := by
  rw [join_itemsOf]
  simp [render, String.toList_intercalate, Function.comp_def, Directive.name, Item.numeral,
    Item.ofWord, Radix.mark]

/-- Tokens with a comma and a blank between them. -/
theorem isLine_intercalate {tokens : List (List Char)} (each : ∀ t ∈ tokens, IsToken t) :
    IsLine ([',', ' '].intercalate tokens) := by
  induction tokens with
  | nil => exact isLine_of_plain (List.forall_mem_nil _)
  | cons t tokens ih =>
    obtain ⟨token, later⟩ := List.forall_mem_cons.mp each
    cases tokens with
    | nil =>
      rw [List.intercalate_singleton]
      exact isLine_of_plain token.plain
    | cons u tokens =>
      have plain : ∀ c ∈ t ++ [','], isPlain c = true := by
        intro c member
        rcases List.mem_append.mp member with inToken | comma
        · exact token.plain c inToken
        · rw [List.mem_singleton.mp comma]
          decide
      have split : [',', ' '].intercalate (t :: u :: tokens) =
          (t ++ [',']) ++ ' ' :: [',', ' '].intercalate (u :: tokens) := by
        rw [List.intercalate_cons_cons]
        simp
      have first := (List.forall_mem_cons.mp later).1
      rw [split, isLine_append_blank plain (by simp)]
      exact ⟨by simp [intercalate_cons, first.nonempty], ih later⟩

theorem parse_printed (words : List Word) :
    Statement.parse (tidy (render words).toList) =
      .ok ⟨none, .directive .word (String.ofList (Item.join (itemsOf words)))⟩ := by
  have line : IsLine (Item.join (itemsOf words)) := by
    rw [join_itemsOf]
    apply isLine_intercalate
    intro t member
    obtain ⟨w, -, rfl⟩ := List.mem_map.mp member
    exact Item.isToken_numeral _
  have token := Directive.word.isToken_name
  have tidied : tidy (render words).toList =
      Statement.spaced Directive.word.name.toList (Item.join (itemsOf words)) := by
    rw [toList_render]
    by_cases none : Item.join (itemsOf words) = []
    · rw [none]
      rfl
    · rw [← Statement.spaced_of_ne_nil none]
      exact tidy_of_isTidyFrom (Statement.isLine_spaced token.plain token.nonempty line).tidy
  rw [tidied]
  exact Statement.parse_directive Directive.word.lower_name line

theorem parse_itemsOf (words : List Word) :
    parse .word (String.ofList (Item.join (itemsOf words))) = .ok words := by
  have reads (rest : String) : parse .word rest = readNumbers Word.store rest.toList := rfl
  have stored : (words.map fun w => (w.toNat : Int)).mapM Word.store = .ok (words.map id) := by
    rw [List.mapM_map]
    exact Runs.mapM_eq_ok_map fun w _ => w.store_toNat
  rw [parse_join reads, value_itemsOf, stored, List.map_id]
  rfl

/-- A list of numbers is stored number by number, if the cells of the directive hold all of them;
else the first that they do not hold is reported.  The text that words are printed as is read as
these words. -/
theorem parse_numbers_exact {d : Directive} {cell : Cell} (numeric : d.cell? = some cell)
    (items : List Item) :
    ((∀ i ∈ items, cell.Holds i.value) →
      ∃ words, parse d (String.ofList (Item.join items)) = .ok words ∧
        words.map (fun w => (w.toNat : Int)) = items.map fun i => i.value % cell.modulus) ∧
    (∀ before i after, items = before ++ i :: after → (∀ j ∈ before, cell.Holds j.value) →
      ¬ cell.Holds i.value →
      parse d (String.ofList (Item.join items)) = .error (.error (cell.overflow i.value))) ∧
    ∀ words : List Word, ∃ rest,
      Statement.parse (tidy (render words).toList) = .ok ⟨none, .directive .word rest⟩ ∧
        parse .word rest = .ok words := by
  refine ⟨parse_join_of_holds numeric, ?_, fun words => ?_⟩
  · rintro before i after rfl holds outside
    exact parse_join_of_overflow numeric holds outside
  · exact ⟨_, parse_printed words, parse_itemsOf words⟩

/-- A tab behind the sign, a zero in front of a decimal number, and a number that is too large. -/
theorem parse_numbers_exact_bytes :
    ∃ items i, Item.join items = "-\t0X80 ,0255".toList ∧
      Item.join (items ++ [i]) = "-\t0X80 ,0255, 0x100".toList ∧
      Directive.byte.cell? = some .byte ∧ (∀ j ∈ items, Cell.byte.Holds j.value) ∧
      ¬ Cell.byte.Holds i.value ∧
      (∃ words, parse .byte "-\t0X80 ,0255" = .ok words ∧
        words.map (fun w => (w.toNat : Int)) = [0x80, 0xFF]) ∧
      parse .byte "-\t0X80 ,0255, 0x100" = .error (.error (.byteOverflow 0x100)) := by
  let low : Item :=
    ⟨[], some ['\t'], .upperHex, ['8', '0'], [' '], 0x80, List.forall_mem_nil _,
      List.forall_mem_singleton.mpr rfl, List.forall_mem_singleton.mpr rfl, by decide,
      ⟨[8, 0], .cons rfl (.cons rfl .nil), rfl⟩, by decide⟩
  let high : Item :=
    ⟨[], none, .decimal, ['0', '2', '5', '5'], [], 0xFF, List.forall_mem_nil _,
      List.forall_mem_nil _, List.forall_mem_nil _, by decide,
      ⟨[0, 2, 5, 5], .cons rfl (.cons rfl (.cons rfl (.cons rfl .nil))), rfl⟩, by decide⟩
  let above : Item :=
    ⟨[' '], none, .lowerHex, ['1', '0', '0'], [], 0x100, List.forall_mem_singleton.mpr rfl,
      List.forall_mem_nil _, List.forall_mem_nil _, by decide,
      ⟨[1, 0, 0], .cons rfl (.cons rfl (.cons rfl .nil)), rfl⟩, by decide⟩
  have holds : ∀ j ∈ [low, high], Cell.byte.Holds j.value :=
    List.forall_mem_cons.mpr ⟨by decide, List.forall_mem_singleton.mpr (by decide)⟩
  have outside : ¬ Cell.byte.Holds above.value := by decide
  refine ⟨[low, high], above, rfl, rfl, rfl, holds, outside, ?_, ?_⟩
  · exact (parse_numbers_exact (d := .byte) rfl [low, high]).1 holds
  · exact (parse_numbers_exact (d := .byte) rfl [low, high, above]).2.1 [low, high] above [] rfl
      holds outside

/-! ### The least number -/

/-- A minus sign in front of the least number, which has a sign of its own behind the mark. -/
def NegatesLeast (item : List Char) : Prop :=
  ∃ gap x digits, (∀ c ∈ gap, isBlank c = true) ∧ (x = 'x' ∨ x = 'X') ∧
    trim item = '-' :: (gap ++ '0' :: x :: '-' :: digits) ∧
    Denotes 16 digits 0x8000000000000000

theorem range_of_magnitude? {token : List Char} {v : Int} (h : magnitude? token = some v) :
    int64Min ≤ v ∧ v ≤ int64Max := by
  unfold magnitude? at h
  split at h
  · exact range_of_readInt64? h
  · split at h
    · exact range_of_readInt64? h
    · cases h

theorem magnitude?_eq_least {token : List Char} : magnitude? token = some int64Min ↔
    ∃ x digits, (x = 'x' ∨ x = 'X') ∧ token = '0' :: x :: '-' :: digits ∧
      Denotes 16 digits 0x8000000000000000 := by
  unfold magnitude?
  constructor
  · intro h
    split at h
    · next numeral mark =>
      obtain ⟨x, isMark, rfl⟩ := afterHexMark?_eq_some.mp mark
      obtain ⟨digits, rfl, value⟩ := readInt64?_eq_least.mp h
      exact ⟨x, digits, isMark, rfl, value⟩
    · split at h
      · next digit =>
        -- A decimal number starts with a digit, and not with a sign.
        obtain ⟨digits, rfl, -⟩ := readInt64?_eq_least.mp h
        cases digit
      · cases h
  · rintro ⟨x, digits, isMark, rfl, value⟩
    rw [afterHexMark?_eq_some.mpr ⟨x, isMark, rfl⟩]
    exact readInt64?_eq_least.mpr ⟨digits, rfl, value⟩

theorem negatesLeast_iff {item rest : List Char} (negative : trim item = '-' :: rest) :
    NegatesLeast item ↔ magnitude? (trimStart rest) = some int64Min := by
  rw [magnitude?_eq_least]
  unfold NegatesLeast
  rw [negative]
  constructor
  · rintro ⟨gap, x, digits, blank, isMark, same, value⟩
    obtain ⟨-, rfl⟩ := List.cons.inj same
    refine ⟨x, digits, isMark, ?_, value⟩
    rw [trimStart, List.dropWhile_append_of_pos blank]
    rfl
  · rintro ⟨x, digits, isMark, same, value⟩
    refine ⟨rest.takeWhile isBlank, x, digits, fun c member => List.mem_takeWhile_imp member,
      isMark, ?_, value⟩
    rw [← same, trimStart, List.takeWhile_append_dropWhile]

/-- Reading a number ends in a fault only where the least one is negated. -/
theorem readItem_eq_fault {item : List Char} {f : Fault} :
    readItem item = .error (.fault f) ↔ f = .overflow ∧ NegatesLeast item := by
  unfold readItem
  dsimp only
  cases sign : dropHead? '-' (trim item) with
  | none =>
    have unsigned : ¬ NegatesLeast item := by
      rintro ⟨gap, x, digits, -, -, same, -⟩
      cases sign.symm.trans (dropHead?_eq_some.mpr same)
    cases magnitude? (trim item) <;> simp [unsigned]
  | some rest =>
    rw [negatesLeast_iff (dropHead?_eq_some.mp sign)]
    dsimp only
    cases magnitude? (trimStart rest) with
    | none => simp
    | some v =>
      by_cases least : v = int64Min
      · simp [least, eq_comm]
      · simp [least]

theorem readItems_eq_fault {rest : List Char} {f : Fault} :
    readItems rest = .error (.fault f) ↔ f = .overflow ∧ ∃ before item after,
      rest.splitOn ',' = before ++ item :: after ∧ (∀ i ∈ before, ∃ v, readItem i = .ok v) ∧
        NegatesLeast item := by
  unfold readItems
  split
  · next empty =>
    refine iff_of_false (by simp) ?_
    rintro ⟨-, before, item, after, split, -, gap, x, digits, -, -, same, -⟩
    -- The sign is a character of the whole text, which is nothing but white space.
    have inItem : '-' ∈ item := mem_of_mem_trim (by rw [same]; exact List.mem_cons_self)
    have inRest : '-' ∈ [','].intercalate (rest.splitOn ',') :=
      mem_intercalate (by rw [split]; simp) inItem
    rw [List.intercalate_splitOn] at inRest
    have left : '-' ∈ trim rest := mem_trim inRest (by decide)
    rw [List.isEmpty_iff.mp empty] at left
    cases left
  · rw [Runs.mapM_eq_error]
    simp only [readItem_eq_fault]
    constructor
    · rintro ⟨before, item, after, split, went, rfl, least⟩
      exact ⟨rfl, before, item, after, split, went, least⟩
    · rintro ⟨rfl, before, item, after, split, went, least⟩
      exact ⟨before, item, after, split, went, rfl, least⟩

theorem readNumbers_eq_fault {store : Int → Except AsmError Word} {rest : List Char} {f : Fault} :
    readNumbers store rest = .error (.fault f) ↔ readItems rest = .error (.fault f) := by
  unfold readNumbers
  cases readItems rest with
  | error stop => simp [bind, Except.bind]
  | ok values =>
    show (values.mapM store).mapError Stop.error = .error (.fault f) ↔ _
    cases values.mapM store <;> simp [Except.mapError]

theorem parse_eq_fault {d : Directive} {rest : String} {f : Fault} :
    parse d rest = .error (.fault f) ↔
      d.cell?.isSome ∧ readItems rest.toList = .error (.fault f) := by
  have string : readString rest.toList ≠ .error (.fault f) := by
    unfold readString
    split <;> simp
  have asciz : (readString rest.toList).map (fun words => words ++ [0]) ≠ .error (.fault f) := by
    unfold readString
    split <;> simp [Except.map]
  cases d <;> simp [parse, Directive.cell?, readNumbers_eq_fault, string, asciz]

/-- Numbers as data overflow exactly if an item negates the least number of 64 bits, in the one way
that it can be written, and all items before it can be read.  Every other number that is negated is
above the least, and its opposite has 64 bits. -/
theorem parse_overflow_iff (d : Directive) (rest : String) (f : Fault) :
    (parse d rest = .error (.fault f) ↔ f = .overflow ∧ d.cell?.isSome ∧ ∃ before item after,
      rest.toList.splitOn ',' = before ++ item :: after ∧
        (∀ i ∈ before, ∃ v, readItem i = .ok v) ∧ NegatesLeast item) ∧
    ∀ item text v, trim item = '-' :: text → magnitude? (trimStart text) = some v →
      (int64Min < v ∧ -v ≤ int64Max ↔ ¬ NegatesLeast item) := by
  constructor
  · rw [parse_eq_fault, readItems_eq_fault]
    exact and_left_comm
  · intro item text v negative read
    obtain ⟨low, high⟩ := range_of_magnitude? read
    rw [negatesLeast_iff negative, read, Option.some.injEq]
    unfold int64Min int64Max at *
    omega

/-- Two signs, one in front of the mark and one behind it. -/
theorem parse_negated_least :
    magnitude? "0x-8000000000000000".toList = some int64Min ∧
      parse .word "-0x-8000000000000000" = .error (.fault .overflow) := by
  decide +kernel

end Data

end Dcpu16
