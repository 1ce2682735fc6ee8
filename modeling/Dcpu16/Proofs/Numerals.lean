import Dcpu16.Source.Expr.Parser

/-! Numerals that are written read back as the same number, in decimal as in hexadecimal, whatever
the case of the digits and however many zeros stand in front. -/

namespace Dcpu16.Text.Numeral

variable {base n m : Nat} {cs ds : List Char}

/-! ### Digits -/

theorem digitsFrom?_append :
    digitsFrom? base n (cs ++ ds) = (digitsFrom? base n cs).bind (digitsFrom? base · ds) := by
  induction cs generalizing n with
  | nil => rfl
  | cons c cs ih =>
    rw [List.cons_append, digitsFrom?, digitsFrom?]
    cases digit? base c with
    | none => rfl
    | some d => exact ih

/-- Zeros in front do not count. -/
theorem digitsFrom?_zeros (positive : 0 < base) (k : Nat) :
    digitsFrom? base 0 (List.replicate k '0' ++ ds) = digitsFrom? base 0 ds := by
  have zero : digit? base '0' = some 0 := by
    simp [digit?, show hexValue? '0' = some 0 from rfl, positive]
  induction k with
  | zero => rfl
  | succ k ih =>
    rw [List.replicate_succ, List.cons_append, digitsFrom?, zero, Nat.zero_mul]
    exact ih

/-- The digits of a number read back, if each of them is written as a character `spell` of the usual
one that has the same value. -/
theorem digitsFrom?_toDigits (above : 1 < base) (upTo : base ≤ 16) {spell : Char → Char}
    (same : ∀ d < 16, hexValue? (spell (Nat.digitChar d)) = some d) (n : Nat) :
    digitsFrom? base 0 ((Nat.toDigits base n).map spell) = some n := by
  have digit {d : Nat} (small : d < base) : digit? base (spell (Nat.digitChar d)) = some d := by
    rw [digit?, same d (by omega)]
    simp [small]
  -- All digits but the last are those of the quotient.
  induction n using Nat.strongRecOn with
  | ind n ih =>
    rw [Nat.toDigits_eq_if above]
    split
    · next small => simp [digitsFrom?, digit small]
    · next large =>
      have smaller : n / base < n := Nat.div_lt_self (by omega) above
      rw [List.map_append, digitsFrom?_append, ih _ smaller]
      have last : n % base < base := Nat.mod_lt _ (by omega)
      simp only [List.map_cons, List.map_nil, Option.bind_some, digitsFrom?, digit last]
      rw [Nat.div_add_mod']

theorem isSome_of_digitsFrom? (h : digitsFrom? base n cs = some m) {c : Char} (member : c ∈ cs) :
    (digit? base c).isSome := by
  induction cs generalizing n with
  | nil => cases member
  | cons d cs ih =>
    rw [digitsFrom?] at h
    cases value : digit? base d with
    | none => simp [value] at h
    | some v =>
      rw [value] at h
      rcases List.mem_cons.mp member with rfl | later
      · rw [value]
        rfl
      · exact ih h later

theorem hexValue?_of_digit? {c : Char} (h : (digit? base c).isSome) : (hexValue? c).isSome := by
  obtain ⟨d, value⟩ := Option.isSome_iff_exists.mp h
  exact Option.isSome_of_mem (Option.mem_filter_iff.mp value).1

theorem isDigit_of_digit? {c : Char} (h : (digit? 10 c).isSome) : c.isDigit = true := by
  obtain ⟨d, value⟩ := Option.isSome_iff_exists.mp h
  obtain ⟨value, small⟩ := Option.mem_filter_iff.mp value
  have small : d < 10 := of_decide_eq_true small
  unfold hexValue? at value
  split at value
  · next digit => simpa [Char.isDigit, Char.le_def] using digit
  split at value
  · cases value
    omega
  split at value
  · cases value
    omega
  · cases value

/-! ### Numerals without a sign -/

theorem digits?_of_digitsFrom? (nonempty : cs ≠ []) (h : digitsFrom? base 0 cs = some m) :
    digits? base cs = some m := by
  rw [digits?, if_neg (by simpa using nonempty), h]

/-- Digits do not start with a sign. -/
theorem readNat?_of_digits? (h : digits? base cs = some m) : readNat? base cs = some m := by
  unfold readNat?
  split
  · simp [digits?, digitsFrom?, digit?, show hexValue? '+' = none from rfl] at h
  · exact h

theorem digitsFrom?_decimal (n : Nat) : digitsFrom? 10 0 (decimal n).toList = some n := by
  rw [decimal, String.toList_ofList, ← List.map_id (Nat.toDigits 10 n)]
  exact digitsFrom?_toDigits (by decide) (by decide) (by decide) n

theorem decimal_ne_nil (n : Nat) : (decimal n).toList ≠ [] := by
  simp [decimal]

theorem digitsFrom?_hex (n : Nat) : digitsFrom? 16 0 (hex n).toList = some n := by
  rw [hex, String.toList_ofList, ← List.map_id (Nat.toDigits 16 n)]
  exact digitsFrom?_toDigits (by decide) (by decide) (by decide) n

theorem hex_ne_nil (n : Nat) : (hex n).toList ≠ [] := by
  simp [hex]

theorem digitsFrom?_fourHex (n : Nat) : digitsFrom? 16 0 (fourHex n).toList = some n := by
  rw [fourHex, String.toList_ofList, digitsFrom?_zeros (by decide)]
  exact digitsFrom?_toDigits (by decide) (by decide) (by decide) n

theorem fourHex_ne_nil (n : Nat) : (fourHex n).toList ≠ [] := by
  simp [fourHex]

/-- A numeral of decimal digits has no mark of a hexadecimal one. -/
theorem afterHexMark?_of_digitsFrom? (h : digitsFrom? 10 n cs = some m) :
    afterHexMark? cs = none := by
  unfold afterHexMark?
  split
  · exact absurd (isSome_of_digitsFrom? h (c := 'x') (by simp)) (by decide)
  · exact absurd (isSome_of_digitsFrom? h (c := 'X') (by simp)) (by decide)
  · rfl

end Dcpu16.Text.Numeral
