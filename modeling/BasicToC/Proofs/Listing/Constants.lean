import BasicToC.Proofs.Decimal.Notation

/-!
# Numbers in writing as C reads them

Numbers are written for C, in which a zero in front of other digits makes a constant octal, and a
constant without a point and without an exponent is a whole one. Constants that end in a letter for
their type are left out.

* `Constant.Whole`, `Constant.Floating`: the decimal and octal constants of C, and the floating ones.
* `decimalDigits_first`: a number that is not zero is written without a zero in front.
* `Constant.whole_iff`: C reads the digits of a number as that number.
* `Constant.Floating.marked`, `Constant.Floating.other`: no floating constant is made of digits alone
  or is the name of a number.
* `Constant.Floating.unique`: a floating constant has one value.
* `floating_text`, `text_inj`: a binary64 number in writing is a floating constant that rounds to it,
  and no other number is written so.
-/

set_option autoImplicit false

namespace BasicToC

/-! ## Constants of C -/

namespace Constant

/-- The number that octal digits spell. -/
def octalValue (digits : List Char) : Nat :=
  digits.foldl (fun n c => n * 8 + (c.toNat - '0'.toNat)) 0

/-- Whole constants: decimal ones, and octal ones, which start with a zero. -/
inductive Whole : List Char → Nat → Prop where
  | decimal {first : Char} {more : List Char} (nonzero : first ≠ '0')
      (all : ∀ c ∈ first :: more, c.isDigit) : Whole (first :: more) (digitsValue (first :: more))
  | octal {more : List Char} (all : ∀ c ∈ more, '0' ≤ c ∧ c ≤ '7') :
      Whole ('0' :: more) (octalValue more)

/-- Digits with a point among them. -/
inductive Fractional : List Char → ℚ → Prop where
  | mk {digits fraction : List Char} (some : digits ≠ [] ∨ fraction ≠ [])
      (all : ∀ c ∈ digits, c.isDigit) (behind : ∀ c ∈ fraction, c.isDigit) :
      Fractional (digits ++ '.' :: fraction) (amount digits fraction)

/-- Exponents, from their mark on. -/
inductive Exponent : List Char → Int → Prop where
  | bare {mark : Char} {digits : List Char} (marked : mark = 'e' ∨ mark = 'E')
      (some : digits ≠ []) (all : ∀ c ∈ digits, c.isDigit) :
      Exponent (mark :: digits) (digitsValue digits)
  | plus {mark : Char} {digits : List Char} (marked : mark = 'e' ∨ mark = 'E')
      (some : digits ≠ []) (all : ∀ c ∈ digits, c.isDigit) :
      Exponent (mark :: '+' :: digits) (digitsValue digits)
  | minus {mark : Char} {digits : List Char} (marked : mark = 'e' ∨ mark = 'E')
      (some : digits ≠ []) (all : ∀ c ∈ digits, c.isDigit) :
      Exponent (mark :: '-' :: digits) (-digitsValue digits)

/-- Floating constants in decimal: digits with a point, with an exponent, or with both. -/
inductive Floating : List Char → ℚ → Prop where
  | point {text : List Char} {value : ℚ} (fractional : Fractional text value) : Floating text value
  | scaled {text tail : List Char} {value : ℚ} {power : Int} (fractional : Fractional text value)
      (raised : Exponent tail power) : Floating (text ++ tail) (value * 10 ^ power)
  | power {digits tail : List Char} {power : Int} (some : digits ≠ [])
      (all : ∀ c ∈ digits, c.isDigit) (raised : Exponent tail power) :
      Floating (digits ++ tail) (digitsValue digits * 10 ^ power)

theorem Exponent.mark {tail : List Char} {power : Int} (h : Exponent tail power) :
    'e' ∈ tail ∨ 'E' ∈ tail := by
  cases h with
  | bare marked | plus marked | minus marked => rcases marked with rfl | rfl <;> simp

/-- **A floating constant has a point or an exponent.** -/
theorem Floating.marked {text : List Char} {value : ℚ} (h : Floating text value) :
    '.' ∈ text ∨ 'e' ∈ text ∨ 'E' ∈ text := by
  cases h with
  | point fractional | scaled fractional =>
    cases fractional
    exact .inl (by simp)
  | power _ _ raised =>
    exact .inr (raised.mark.imp (List.mem_append_right _) (List.mem_append_right _))

/-- A floating constant up to its exponent: digits, with a point among them or without. -/
inductive Mantissa : List Char → ℚ → Prop where
  | fractional {text : List Char} {value : ℚ} : Fractional text value → Mantissa text value
  | whole {digits : List Char} : (∀ c ∈ digits, c.isDigit) → Mantissa digits (digitsValue digits)

theorem Mantissa.unique {text : List Char} {v w : ℚ} (h : Mantissa text v) (h' : Mantissa text w) :
    v = w := by
  cases h with
  | fractional h =>
    generalize htext : text = other at h'
    cases h with
    | mk _ all _ =>
      cases h' with
      | fractional h' =>
        cases h' with
        | mk _ all' _ =>
          obtain ⟨rfl, rfl⟩ := point_splits all all' htext
          rfl
      | whole hdigits => exact absurd (by simp [← htext]) (point_not_digits hdigits)
  | whole hdigits =>
    cases h' with
    | fractional h' =>
      cases h'
      exact absurd (by simp) (point_not_digits hdigits)
    | whole => rfl

theorem Mantissa.unmarked {text : List Char} {value : ℚ} (h : Mantissa text value) :
    ∀ c ∈ text, (c != 'e' && c != 'E') = true := by
  have hdigits {digits : List Char} (hall : ∀ c ∈ digits, c.isDigit) :
      ∀ c ∈ digits, (c != 'e' && c != 'E') = true := by
    intro c hc
    have hne : c ≠ 'e' ∧ c ≠ 'E' := by
      constructor <;> rintro rfl <;> exact absurd (hall _ hc) (by decide)
    simp [hne]
  cases h with
  | fractional h =>
    cases h with
    | mk _ all behind =>
      exact List.forall_mem_append.2 ⟨hdigits all, List.forall_mem_cons.2 ⟨by decide, hdigits behind⟩⟩
  | whole hall => exact hdigits hall

theorem Exponent.unique {tail : List Char} {p q : Int} (h : Exponent tail p) (h' : Exponent tail q) :
    p = q := by
  cases h with
  | bare _ _ all =>
    cases h' with
    | bare => rfl
    | plus | minus => exact absurd (all _ (List.mem_cons_self ..)) (by decide)
  | plus =>
    cases h' with
    | bare _ _ all => exact absurd (all _ (List.mem_cons_self ..)) (by decide)
    | plus => rfl
  | minus =>
    cases h' with
    | bare _ _ all => exact absurd (all _ (List.mem_cons_self ..)) (by decide)
    | minus => rfl

/-- What stands behind the mantissa of a floating constant: nothing, or an exponent. -/
inductive Raised : List Char → Int → Prop where
  | none : Raised [] 0
  | some {tail : List Char} {power : Int} : Exponent tail power → Raised tail power

theorem Raised.unique {tail : List Char} {p q : Int} (h : Raised tail p) (h' : Raised tail q) :
    p = q := by
  cases h with
  | none =>
    cases h' with
    | none => rfl
    | some h' => cases h'
  | some h =>
    cases h' with
    | none => cases h
    | some h' => exact h.unique h'

theorem Raised.marked {tail : List Char} {power : Int} (h : Raised tail power) :
    ∀ c ∈ tail.head?, (c != 'e' && c != 'E') = false := by
  cases h with
  | none => simp
  | some h => cases h with
    | bare marked | plus marked | minus marked => rcases marked with rfl | rfl <;> simp

/-- A floating constant is a mantissa with what stands behind it. -/
theorem Floating.parts {text : List Char} {value : ℚ} (h : Floating text value) :
    ∃ front tail v power, text = front ++ tail ∧ Mantissa front v ∧ Raised tail power ∧
      value = v * 10 ^ power := by
  cases h with
  | point fractional => exact ⟨_, [], _, 0, by simp, .fractional fractional, .none, by simp⟩
  | scaled fractional raised => exact ⟨_, _, _, _, rfl, .fractional fractional, .some raised, rfl⟩
  | power _ all raised => exact ⟨_, _, _, _, rfl, .whole all, .some raised, rfl⟩

/-- **A floating constant has one value.** -/
theorem Floating.unique {text : List Char} {v w : ℚ} (h : Floating text v) (h' : Floating text w) :
    v = w := by
  obtain ⟨front, tail, v, p, rfl, hv, hp, rfl⟩ := h.parts
  obtain ⟨front', tail', w, q, htext, hw, hq, rfl⟩ := h'.parts
  have hfront := congrArg (List.takeWhile fun c => c != 'e' && c != 'E') htext
  rw [takeWhile_eq_of_append hv.unmarked hp.marked, takeWhile_eq_of_append hw.unmarked hq.marked]
    at hfront
  subst hfront
  obtain rfl := List.append_cancel_left htext
  rw [hv.unique hw, hp.unique hq]

/-- A floating constant starts with a digit or with its point. -/
theorem Floating.starts {text : List Char} {value : ℚ} (h : Floating text value) :
    ∃ first more, text = first :: more ∧ (first.isDigit ∨ first = '.') := by
  have hrun {digits : List Char} (hne : digits ≠ []) (hall : ∀ c ∈ digits, c.isDigit)
      (more : List Char) : ∃ first rest, digits ++ more = first :: rest ∧
        (first.isDigit ∨ first = '.') := by
    obtain ⟨first, rest, rfl⟩ := List.exists_cons_of_ne_nil hne
    exact ⟨first, rest ++ more, rfl, .inl (hall first List.mem_cons_self)⟩
  have hfractional {text : List Char} {value : ℚ} (h : Fractional text value) (more : List Char) :
      ∃ first rest, text ++ more = first :: rest ∧ (first.isDigit ∨ first = '.') := by
    cases h with
    | @mk digits fraction some all behind =>
      rw [List.append_assoc]
      cases digits with
      | nil => exact ⟨'.', fraction ++ more, rfl, .inr rfl⟩
      | cons first digits => exact hrun (List.cons_ne_nil first digits) all _
  cases h with
  | point fractional => simpa using hfractional fractional []
  | scaled fractional => exact hfractional fractional _
  | power hne hall => exact hrun hne hall _

/-- No floating constant is the name of a number or a row of digits. -/
theorem Floating.other {text : String} {value : ℚ} (h : Floating text.toList value) :
    text ≠ "inf" ∧ text ≠ "nan" ∧ ¬ ∀ c ∈ text.toList, c.isDigit := by
  obtain ⟨first, more, hstart, hfirst⟩ := h.starts
  refine ⟨?_, ?_, fun hall => ?_⟩
  · rintro rfl
    obtain ⟨rfl, -⟩ := List.cons.inj hstart
    revert hfirst
    decide
  · rintro rfl
    obtain ⟨rfl, -⟩ := List.cons.inj hstart
    revert hfirst
    decide
  · rcases h.marked with hm | hm | hm <;> exact absurd (hall _ hm) (by decide)

end Constant

/-! ## Whole numbers -/

/-- **A number that is not zero is written without a zero in front.** The induction takes the digits
off from the right. -/
theorem decimalDigits_first {n : Nat} (hn : n ≠ 0) :
    ∃ first more, decimalDigits n = first :: more ∧ first ≠ '0' := by
  induction n using Nat.strongRecOn with
  | ind n ih =>
    unfold decimalDigits at ih ⊢
    rw [Nat.toDigits_eq_if (by decide)]
    split
    · rename_i hsmall
      refine ⟨n.digitChar, [], rfl, ?_⟩
      have hdigits : ∀ k < 10, k ≠ 0 → k.digitChar ≠ '0' := by decide
      exact hdigits n hsmall hn
    · rename_i hlarge
      obtain ⟨first, more, hdigits, hfirst⟩ := ih (n / 10) (by omega) (by omega)
      exact ⟨first, more ++ [(n % 10).digitChar], by rw [hdigits]; rfl, hfirst⟩

theorem decimalDigits_unpadded {n : Nat} {more : List Char} (h : decimalDigits n = '0' :: more) :
    n = 0 := by
  by_contra hn
  obtain ⟨first, rest, hdigits, hfirst⟩ := decimalDigits_first hn
  rw [hdigits] at h
  exact hfirst (List.cons.inj h).1

/-- **C reads the digits of a number as that number**, and as no other one. -/
theorem Constant.whole_iff {n m : Nat} : Whole (decimalDigits n) m ↔ m = n := by
  rcases eq_or_ne n 0 with rfl | hn
  · have hzero : decimalDigits 0 = ['0'] := by decide
    rw [hzero]
    constructor
    · rintro (⟨nonzero, -⟩ | -)
      · exact absurd rfl nonzero
      · rfl
    · rintro rfl
      exact @Whole.octal [] (by simp)
  · obtain ⟨first, more, hdigits, hfirst⟩ := decimalDigits_first hn
    have hvalue := digitsValue_decimalDigits n
    have hall : ∀ c ∈ decimalDigits n, c.isDigit := decimalDigits_isDigit
    rw [hdigits] at hvalue hall ⊢
    constructor
    · intro h
      cases h with
      | decimal => exact hvalue
      | octal => exact absurd rfl hfirst
    · rintro rfl
      rw [← hvalue]
      exact .decimal hfirst hall

/-! ## Binary64 numbers -/

/-- A power of ten is written as an exponent of C, whatever zeros fill it up. -/
theorem Constant.exponent_written (width : Nat) (power : Int) :
    Exponent ('e' :: (if power < 0 then '-' else '+') ::
      (List.replicate (width - (decimalDigits power.natAbs).length) '0' ++
        decimalDigits power.natAbs)) power := by
  generalize width - (decimalDigits power.natAbs).length = count
  have hsome : List.replicate count '0' ++ decimalDigits power.natAbs ≠ [] := by
    simp [decimalDigits_ne_nil]
  have hdigits := List.forall_mem_append.2
    ⟨zero_isDigit count, decimalDigits_isDigit (n := power.natAbs)⟩
  have hvalue : digitsValue (List.replicate count '0' ++ decimalDigits power.natAbs) =
      power.natAbs := by
    rw [digitsValue_append, digitsValue_zeros, digitsValue_decimalDigits, Nat.zero_mul, Nat.zero_add]
  split
  · have h := Exponent.minus (.inl rfl) hsome hdigits
    rw [hvalue] at h
    rwa [show -(power.natAbs : Int) = power by omega] at h
  · have h := Exponent.plus (.inl rfl) hsome hdigits
    rw [hvalue] at h
    rwa [show (power.natAbs : Int) = power by omega] at h

/-- **A decimal with an exponent is a floating constant with its value.** -/
theorem Decimal.withExponent_floating {digits : List Char} (hne : digits ≠ [])
    (hall : ∀ c ∈ digits, c.isDigit) (width : Nat) (exponent : Int) :
    Constant.Floating (withExponent width digits (exponent + digits.length - 1))
      (digitsValue digits * 10 ^ exponent) := by
  obtain ⟨first, more, rfl⟩ := List.exists_cons_of_ne_nil hne
  have hraised := Constant.exponent_written width (exponent + (first :: more).length - 1)
  cases more with
  | nil =>
    have hpower : exponent + [first].length - 1 = exponent := by
      rw [List.length_singleton]
      omega
    have h := Constant.Floating.power hne hall hraised
    rwa [hpower] at h ⊢
  | cons second more =>
    obtain ⟨hfirst, hmore⟩ := List.forall_mem_cons.1 hall
    have h := Constant.Floating.scaled
      (.mk (.inl (List.cons_ne_nil first [])) (by simpa using hfirst) hmore) hraised
    have hpower : -((second :: more).length : Int) +
        (exponent + (first :: second :: more).length - 1) = exponent := by
      simp only [List.length_cons]
      omega
    rw [← amount_eq, mul_assoc, ← zpow_add₀ (by norm_num), hpower, List.append_assoc] at h
    exact h

/-- **A binary64 number in writing is a floating constant of C that rounds to it**, be it written with
an exponent or without. -/
theorem floating_text {s : Nat} {e : Int} (h : Binary64.Canonical s e) :
    ∃ value, Constant.Floating (Binary64.finite false s e).text.toList value ∧
      Binary64.RoundsTo value s e := by
  obtain ⟨value, hround, ⟨digits, fraction, htext, hne, hdigits, hfraction, rfl⟩ |
    ⟨digits, width, exponent, hne, hdigits, htext, rfl⟩⟩ := Binary64.text_cases h
  · exact ⟨_, htext ▸ .point (.mk (.inl hne) hdigits hfraction), hround⟩
  · exact ⟨_, htext ▸ Decimal.withExponent_floating hne hdigits width exponent, hround⟩

/-- **No two binary64 numbers are written alike.** -/
theorem Binary64.text_inj {s s' : Nat} {e e' : Int} (h : Canonical s e) (h' : Canonical s' e')
    (htext : (finite false s e).text = (finite false s' e').text) : s = s' ∧ e = e' := by
  obtain ⟨v, hv, hround⟩ := floating_text h
  obtain ⟨w, hw, hround'⟩ := floating_text h'
  rw [htext] at hv
  rw [hv.unique hw] at hround
  exact hround.unique hround'

end BasicToC
