import BasicToC.Decimal.Notation
import BasicToC.Proofs.Decimal.Shortest
import BasicToC.Proofs.Scanning.Pieces

/-!
# Numbers in writing read back

A number that is written without an exponent is written as a numeral of the language, and the numeral
stands for that number.

* `digitsValue_decimalDigits`: the digits of a whole number spell it.
* `inFull_spec`: a decimal that is set out in full has a point, digits on both sides of it, and the
  value of the decimal.
* `Binary64.text_cases`: how a binary64 number is written.
* `whole_denotes`, `plain_denotes`: whole numbers and binary64 numbers in writing.
-/

set_option autoImplicit false

namespace BasicToC

/-! ## Digits -/

theorem decimalDigits_ne_nil (n : Nat) : decimalDigits n ≠ [] := Nat.toDigits_ne_nil

theorem decimalDigits_isDigit {n : Nat} : ∀ c ∈ decimalDigits n, c.isDigit :=
  fun _ => Nat.isDigit_of_mem_toDigits (by decide) (by decide)

theorem digitsValue_decimalDigits (n : Nat) : digitsValue (decimalDigits n) = n := by
  have hsame : ∀ (digits : List Char) (m : Nat),
      digits.foldl (fun n c => n * 10 + (c.toNat - '0'.toNat)) m = Nat.ofDigitChars 10 digits m := by
    intro digits m
    unfold Nat.ofDigitChars
    simp only [Nat.mul_comm]
  rw [digitsValue, hsame]
  exact Nat.ofDigitChars_toDigits (by decide) (by decide)

theorem digitsValue_zeros (count : Nat) : digitsValue (List.replicate count '0') = 0 := by
  induction count with
  | zero => rfl
  | succ count ih =>
    rw [List.replicate_succ', digitsValue_append, ih]
    rfl

theorem zero_isDigit (count : Nat) : ∀ c ∈ List.replicate count '0', c.isDigit := by
  intro c hc
  rw [List.eq_of_mem_replicate hc]
  decide

/-! ## Decimals -/

/-- A numeral with a point, and its value. -/
def Numeral (lexeme : List Char) (value : ℚ) : Prop :=
  ∃ digits fraction, lexeme = digits ++ '.' :: fraction ∧ digits ≠ [] ∧
    (∀ c ∈ digits, c.isDigit) ∧ (∀ c ∈ fraction, c.isDigit) ∧ amount digits fraction = value

/-- **A decimal that is set out in full is a numeral with its value.** -/
theorem Decimal.inFull_spec {digits : List Char} (hne : digits ≠ [])
    (hall : ∀ c ∈ digits, c.isDigit) (exponent : Int) :
    Numeral (inFull digits exponent) (digitsValue digits * 10 ^ exponent) := by
  unfold inFull
  split
  · rename_i he
    obtain ⟨k, rfl⟩ := Int.eq_ofNat_of_zero_le he
    refine ⟨digits ++ List.replicate k '0', ['0'], by simp, by simp [hne], ?_, zero_isDigit 1, ?_⟩
    · exact List.forall_mem_append.2 ⟨hall, zero_isDigit k⟩
    · rw [amount, digitsValue_append, digitsValue_zeros, List.length_replicate, zpow_natCast]
      simp [digitsValue]
  · rename_i he
    obtain ⟨k, rfl⟩ : ∃ k : Nat, exponent = -k := ⟨(-exponent).toNat, by omega⟩
    simp only [neg_neg, Int.toNat_natCast]
    split
    · rename_i hk
      obtain ⟨front, back, rfl, hback⟩ : ∃ front back, digits = front ++ back ∧ back.length = k :=
        ⟨_, _, (List.take_append_drop (digits.length - k) digits).symm, by
          rw [List.length_drop]; omega⟩
      have hlength : (front ++ back).length - k = front.length := by
        rw [List.length_append]
        omega
      rw [hlength, List.take_left, List.drop_left]
      obtain ⟨hfront, hfraction⟩ := List.forall_mem_append.1 hall
      refine ⟨front, back, rfl, ?_, hfront, hfraction, ?_⟩
      · rintro rfl
        rw [List.nil_append] at hk
        omega
      · rw [← amount_eq, hback]
    · rename_i hk
      refine ⟨['0'], List.replicate (k - digits.length) '0' ++ digits, rfl, by simp,
        zero_isDigit 1, ?_, ?_⟩
      · exact List.forall_mem_append.2 ⟨zero_isDigit _, hall⟩
      · have hlength : (List.replicate (k - digits.length) '0' ++ digits).length = k := by
          rw [List.length_append, List.length_replicate]
          omega
        rw [← amount_eq, hlength, digitsValue_append, digitsValue_append, digitsValue_zeros]
        simp [digitsValue]

/-! ## Numbers -/

theorem whole_shown (n : Nat) : (Value.whole n).shown.toList = decimalDigits n := by
  show (Nat.repr n).toList = _
  rw [Nat.repr_eq_ofList_toDigits, String.toList_ofList]
  rfl

/-- Whole numbers of the language have few digits. -/
theorem decimalDigits_few {n : Nat} (hn : n ≤ 2 ^ 63 - 1) :
    (decimalDigits n).length ≤ Lexeme.maxDigits := by
  have hfew : (decimalDigits n).length ≤ 19 :=
    (Nat.length_toDigits_le_iff (by decide) (by decide)).2 (hn.trans_lt (by decide))
  exact hfew.trans (by decide)

/-- A whole number in writing is a numeral that stands for it. -/
theorem whole_denotes {n : Nat} (hn : n ≤ 2 ^ 63 - 1) :
    Rule.number.Denotes (Value.whole n).shown.toList .integer (.whole n) := by
  rw [whole_shown]
  have hvalue := digitsValue_decimalDigits n
  have h := Rule.Denotes.integer (decimalDigits_ne_nil n) decimalDigits_isDigit
    (decimalDigits_few hn) (hvalue.le.trans hn)
  rwa [hvalue] at h

/-- **A binary64 number is written as a decimal that rounds to it**, set out in full or with an
exponent. -/
theorem Binary64.text_cases {s : Nat} {e : Int} (h : Canonical s e) :
    ∃ value, RoundsTo value s e ∧
      (Numeral (finite false s e).text.toList value ∨
        ∃ digits width exponent, digits ≠ [] ∧ (∀ c ∈ digits, c.isDigit) ∧
          (finite false s e).text.toList =
            Decimal.withExponent width digits (exponent + digits.length - 1) ∧
          value = digitsValue digits * 10 ^ exponent) := by
  simp only [text, chars, String.toList_ofList, Bool.false_eq_true, if_false]
  split
  · rename_i hs
    obtain rfl : s = 0 := by simpa using hs
    obtain rfl : e = -1074 := h.normal.resolve_left (by norm_num)
    have hzero : Numeral "0.0".toList 0 :=
      ⟨['0'], ['0'], rfl, by simp, zero_isDigit 1, zero_isDigit 1, by simp [amount, digitsValue]⟩
    exact ⟨0, roundsTo_zero, .inl hzero⟩
  · rename_i hs
    have hsize : (Decimal.shortest s e).size =
        digitsValue (decimalDigits (Decimal.shortest s e).digits) *
          10 ^ (Decimal.shortest s e).exponent := by
      rw [digitsValue_decimalDigits, Decimal.size]
    refine ⟨_, Decimal.shortest_roundsTo h (by simpa using hs), ?_⟩
    rw [hsize]
    unfold Decimal.chars
    simp only
    split
    · exact .inl (Decimal.inFull_spec (decimalDigits_ne_nil _) decimalDigits_isDigit _)
    · exact .inr ⟨_, _, _, decimalDigits_ne_nil _, decimalDigits_isDigit, rfl, rfl⟩

theorem withExponent_mark (width : Nat) (digits : List Char) (power : Int) :
    'e' ∈ Decimal.withExponent width digits power := by
  unfold Decimal.withExponent
  simp

/-- **A number that is written without an exponent is a numeral that stands for it.** -/
theorem plain_denotes {s : Nat} {e : Int} (h : Binary64.Canonical s e)
    (hplain : 'e' ∉ (Binary64.finite false s e).text.toList) :
    Rule.number.Denotes (Binary64.finite false s e).text.toList .float
      (.real (.finite false s e)) := by
  obtain ⟨value, hround, ⟨digits, fraction, htext, hne, hdigits, hfraction, rfl⟩ |
    ⟨digits, width, exponent, -, -, htext, -⟩⟩ := Binary64.text_cases h
  · rw [htext]
    exact .float hne hdigits hfraction hround
  · rw [htext] at hplain
    exact absurd (withExponent_mark _ _ _) hplain

end BasicToC
