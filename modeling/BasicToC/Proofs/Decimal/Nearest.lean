import BasicToC.Decimal.Binary64
import Mathlib.Algebra.Order.Field.Power
import Mathlib.Tactic.FieldSimp
import Mathlib.Tactic.Linarith
import Mathlib.Tactic.NormNum
import Mathlib.Tactic.Positivity
import Mathlib.Tactic.Ring
import Mathlib.Tactic.Zify

/-!
# Rounding to binary64

What it means for a binary64 number to be the nearest one to a fraction, said over the rational
numbers and apart from how it is found.

* `Canonical`, `size`: the finite magnitudes.
* `RoundsTo`: the nearest magnitude, the even one of two that are equally near.
* `tooLarge`: from where on a number rounds to infinity.
* `roundQuotient_nearest`, `quotient_bounds`, `lastBit_spec`: the two steps in which the number is found.
* `nearest_spec`, `ofDecimal_spec`: fractions and decimals are rounded to the nearest number.
* `Canonical.eq_of_size`, `compare_eq`: a magnitude is kept in one way only, and found by comparing.
-/

set_option autoImplicit false

namespace BasicToC.Binary64

/-- The significand and the power of two of a finite magnitude: 53 bits, the first of which is one
unless the power is the least. -/
structure Canonical (significand : Nat) (exponent : Int) : Prop where
  bits : significand < 2 ^ 53
  least : -1074 ≤ exponent
  greatest : exponent ≤ 971
  normal : 2 ^ 52 ≤ significand ∨ exponent = -1074

/-- The magnitude of a significand and a power of two. -/
def size (significand : Nat) (exponent : Int) : ℚ := significand * 2 ^ exponent

/-- Where rounding to infinity begins: half a unit above the greatest finite magnitude. -/
def tooLarge : ℚ := (2 ^ 54 - 1) * 2 ^ (970 : Int)

/-- A finite magnitude is the one that a fraction rounds to: none is nearer, and if another one is
equally near it has the even significand. -/
structure RoundsTo (q : ℚ) (significand : Nat) (exponent : Int) : Prop where
  canonical : Canonical significand exponent
  inRange : q < tooLarge
  nearest : ∀ n f, Canonical n f → |q - size significand exponent| ≤ |q - size n f|
  even : ∀ n f, Canonical n f → |q - size n f| = |q - size significand exponent| →
    size n f ≠ size significand exponent → significand % 2 = 0

/-! ## To the nearest whole number -/

/-- A whole number is the nearest one to a fraction, the even one of two. -/
structure RoundsToWhole (x : ℚ) (s : Nat) : Prop where
  near : |x - s| ≤ 1 / 2
  even : |x - s| = 1 / 2 → s % 2 = 0

theorem roundQuotient_nearest (num : Nat) {den : Nat} (hd : 0 < den) :
    RoundsToWhole (num / den) (roundQuotient num den) := by
  have hden : (0 : ℚ) < den := by exact_mod_cast hd
  have hmod : num % den < den := Nat.mod_lt _ hd
  have hsplit : (num : ℚ) / den = (num / den : Nat) + (num % den : Nat) / den := by
    have h : (num : ℚ) = den * (num / den : Nat) + (num % den : Nat) := by
      exact_mod_cast (Nat.div_add_mod num den).symm
    rw [h]
    field_simp
  have hpos : (0 : ℚ) ≤ (num % den : Nat) / den := by positivity
  unfold roundQuotient
  simp only
  split
  · rename_i hlow
    have hhalf : ((num % den : Nat) : ℚ) / den < 1 / 2 := by
      rw [div_lt_div_iff₀ hden two_pos]
      exact_mod_cast (by omega : num % den * 2 < 1 * den)
    have heq : |(num : ℚ) / den - (num / den : Nat)| = (num % den : Nat) / den := by
      rw [hsplit, add_sub_cancel_left, abs_of_nonneg hpos]
    exact ⟨by rw [heq]; exact hhalf.le, fun h => absurd (heq.symm.trans h) hhalf.ne⟩
  · split
    · rename_i hhigh
      have hhalf : (1 : ℚ) / 2 < (num % den : Nat) / den := by
        rw [div_lt_div_iff₀ two_pos hden]
        exact_mod_cast (by omega : 1 * den < num % den * 2)
      have hone : ((num % den : Nat) : ℚ) / den < 1 := by
        rw [div_lt_one hden]
        exact_mod_cast hmod
      have heq : |(num : ℚ) / den - (num / den + 1 : Nat)| = 1 - (num % den : Nat) / den := by
        rw [hsplit, Nat.cast_add, Nat.cast_one, abs_of_nonpos (by linarith)]
        ring
      exact ⟨by rw [heq]; linarith, fun h => by rw [heq] at h; linarith⟩
    · have hexact : num % den * 2 = den := by omega
      have hhalf : ((num % den : Nat) : ℚ) / den = 1 / 2 := by
        rw [div_eq_div_iff hden.ne' two_ne_zero]
        exact_mod_cast (by omega : num % den * 2 = 1 * den)
      have hnear : |(num : ℚ) / den - (num / den + num / den % 2 : Nat)| = 1 / 2 := by
        rw [hsplit, hhalf, Nat.cast_add]
        rcases Nat.mod_two_eq_zero_or_one (num / den) with h | h <;> rw [h]
        · norm_num
        · rw [abs_of_nonpos (by norm_num)]
          norm_num
      exact ⟨hnear.le, fun _ => by omega⟩

namespace RoundsToWhole

variable {x : ℚ} {s : Nat}

/-- No whole number is nearer; another one that is equally near is odd. -/
theorem nearest (h : RoundsToWhole x s) (k : ℤ) :
    |x - s| ≤ |x - k| ∧ (|x - k| = |x - s| → (k : ℚ) ≠ s → s % 2 = 0) := by
  by_cases hk : k = s
  · subst hk
    exact ⟨le_refl _, fun _ hne => absurd rfl hne⟩
  · have hfar : (1 : ℚ) ≤ |(k : ℚ) - s| := by
      have : (1 : ℤ) ≤ |k - s| := Int.one_le_abs (sub_ne_zero.2 hk)
      exact_mod_cast this
    have htriangle : |(k : ℚ) - s| ≤ |x - s| + |x - k| := by
      have := abs_sub_le (k : ℚ) x s
      rw [abs_sub_comm (k : ℚ) x] at this
      linarith
    have hnear := h.near
    exact ⟨by linarith, fun heq _ => h.even (le_antisymm hnear (by linarith))⟩

theorem le_of_le (h : RoundsToWhole x s) {k : Nat} (hk : (k : ℚ) ≤ x) : k ≤ s := by
  have hnear := abs_le.1 h.near
  by_contra hlt
  have : (s : ℚ) + 1 ≤ k := by exact_mod_cast (by omega : s + 1 ≤ k)
  linarith

theorem le_of_lt (h : RoundsToWhole x s) {k : Nat} (hk : x < k) : s ≤ k := by
  have hnear := abs_le.1 h.near
  by_contra hlt
  have : (k : ℚ) + 1 ≤ s := by exact_mod_cast (by omega : k + 1 ≤ s)
  linarith

end RoundsToWhole

/-! ## The power of two -/

theorem scaled_den_pos (num : Nat) {den : Nat} (hd : 0 < den) (e : Int) :
    0 < (scaled num den e).2 := by
  unfold scaled
  split
  · exact Nat.mul_pos hd (Nat.pow_pos (by decide))
  · exact hd

theorem scaled_eq (num : Nat) {den : Nat} (hd : 0 < den) (e : Int) :
    ((scaled num den e).1 : ℚ) / (scaled num den e).2 = num / den / 2 ^ e := by
  have hden : (den : ℚ) ≠ 0 := by exact_mod_cast hd.ne'
  unfold scaled
  split
  · rename_i he
    obtain ⟨k, rfl⟩ := Int.eq_ofNat_of_zero_le he
    simp only [Int.toNat_natCast, zpow_natCast, Nat.pow_eq, Nat.cast_mul, Nat.cast_pow,
      Nat.cast_ofNat]
    rw [div_div]
  · rename_i he
    obtain ⟨k, rfl⟩ : ∃ k : Nat, e = -k := ⟨(-e).toNat, by omega⟩
    simp only [neg_neg, Int.toNat_natCast, Nat.pow_eq, Nat.cast_mul, Nat.cast_pow, Nat.cast_ofNat,
      zpow_neg, zpow_natCast]
    field_simp

/-- The lengths of numerator and denominator in bits tell the size of a fraction. The difference of
the lengths is right or one too high. -/
theorem quotient_bounds {num den : Nat} (hn : num ≠ 0) (hd : 0 < den) :
    (2 : ℚ) ^ ((Nat.log2 num : Int) - Nat.log2 den - 1) ≤ num / den ∧
      (num : ℚ) / den < 2 ^ ((Nat.log2 num : Int) - Nat.log2 den + 1) := by
  have hden : (0 : ℚ) < den := by exact_mod_cast hd
  have htwo (k : Int) : (0 : ℚ) < 2 ^ k := by positivity
  have hnlow : (2 : ℚ) ^ (Nat.log2 num : Int) ≤ num := by
    rw [zpow_natCast]
    exact_mod_cast Nat.log2_self_le hn
  have hnhigh : (num : ℚ) < 2 ^ ((Nat.log2 num : Int) + 1) := by
    have h : num < 2 ^ (Nat.log2 num + 1) := Nat.lt_log2_self
    exact_mod_cast h
  have hdlow : (2 : ℚ) ^ (Nat.log2 den : Int) ≤ den := by
    rw [zpow_natCast]
    exact_mod_cast Nat.log2_self_le hd.ne'
  have hdhigh : (den : ℚ) < 2 ^ ((Nat.log2 den : Int) + 1) := by
    have h : den < 2 ^ (Nat.log2 den + 1) := Nat.lt_log2_self
    exact_mod_cast h
  constructor
  · rw [le_div_iff₀ hden]
    calc (2 : ℚ) ^ ((Nat.log2 num : Int) - Nat.log2 den - 1) * den
        ≤ 2 ^ ((Nat.log2 num : Int) - Nat.log2 den - 1) * 2 ^ ((Nat.log2 den : Int) + 1) :=
          mul_le_mul_of_nonneg_left hdhigh.le (htwo _).le
      _ = 2 ^ (Nat.log2 num : Int) := by
        rw [← zpow_add₀ two_ne_zero]
        congr 1
        omega
      _ ≤ num := hnlow
  · rw [div_lt_iff₀ hden]
    calc (num : ℚ) < 2 ^ ((Nat.log2 num : Int) + 1) := hnhigh
      _ = 2 ^ ((Nat.log2 num : Int) - Nat.log2 den + 1) * 2 ^ (Nat.log2 den : Int) := by
        rw [← zpow_add₀ two_ne_zero]
        congr 1
        omega
      _ ≤ 2 ^ ((Nat.log2 num : Int) - Nat.log2 den + 1) * den :=
        mul_le_mul_of_nonneg_left hdlow (htwo _).le

/-- The last bit leaves 53 bits in front of it, or it is the least of all. -/
theorem lastBit_spec {num den : Nat} (hn : num ≠ 0) (hd : 0 < den) :
    -1074 ≤ lastBit num den ∧ (num : ℚ) / den / 2 ^ lastBit num den < 2 ^ 53 ∧
      ((2 : ℚ) ^ 52 ≤ num / den / 2 ^ lastBit num den ∨ lastBit num den = -1074) := by
  have htwo (k : Int) : (0 : ℚ) < 2 ^ k := by positivity
  let estimate : Int := (Nat.log2 num : Int) - (Nat.log2 den : Int)
  obtain ⟨hlow, hhigh⟩ : (2 : ℚ) ^ (estimate - 1) ≤ num / den ∧
      (num : ℚ) / den < 2 ^ (estimate + 1) := quotient_bounds hn hd
  -- The power that leaves 53 bits.
  let free : Int := if (scaled num den estimate).2 ≤ (scaled num den estimate).1 then estimate - 52
    else estimate - 53
  have hbit : lastBit num den = max free (-1074) := rfl
  have hscaled := scaled_eq num hd estimate
  have hspos : (0 : ℚ) < (scaled num den estimate).2 := by exact_mod_cast scaled_den_pos num hd estimate
  have hfree : (2 : ℚ) ^ (free + 52) ≤ num / den ∧ (num : ℚ) / den < 2 ^ (free + 53) := by
    simp only [free]
    split
    · rename_i hle
      have hone : (1 : ℚ) ≤ num / den / 2 ^ estimate := by
        rw [← hscaled, le_div_iff₀ hspos, one_mul]
        exact_mod_cast hle
      rw [le_div_iff₀ (htwo _), one_mul] at hone
      exact ⟨by rwa [sub_add_cancel], by rwa [show estimate - 52 + 53 = estimate + 1 by ring]⟩
    · rename_i hlt
      have hone : (num : ℚ) / den / 2 ^ estimate < 1 := by
        rw [← hscaled, div_lt_iff₀ hspos, one_mul]
        exact_mod_cast Nat.lt_of_not_le hlt
      rw [div_lt_iff₀ (htwo _), one_mul] at hone
      exact ⟨by rwa [show estimate - 53 + 52 = estimate - 1 by ring], by rwa [sub_add_cancel]⟩
  rw [hbit]
  refine ⟨le_max_right _ _, ?_, ?_⟩
  · rw [div_lt_iff₀ (htwo _)]
    calc (num : ℚ) / den < 2 ^ (free + 53) := hfree.2
      _ ≤ 2 ^ (53 + max free (-1074)) := zpow_le_zpow_right₀ one_le_two (by omega)
      _ = 2 ^ 53 * 2 ^ max free (-1074) := by
        rw [zpow_add₀ two_ne_zero]
        norm_cast
  · rcases le_or_gt (-1074) free with hge | hlt
    · left
      rw [max_eq_left hge, le_div_iff₀ (htwo _)]
      calc (2 : ℚ) ^ 52 * 2 ^ free = 2 ^ (free + 52) := by
            rw [add_comm, zpow_add₀ two_ne_zero]
            norm_cast
        _ ≤ num / den := hfree.1
    · exact .inr (max_eq_right hlt.le)

/-! ## To the nearest number -/

/-- Fractions between 53 and 52 bits of some last bit, or below 53 bits of the least one. -/
structure Fits (q : ℚ) (e : Int) : Prop where
  least : -1074 ≤ e
  below : q / 2 ^ e < 2 ^ 53
  normal : 2 ^ 52 ≤ q / 2 ^ e ∨ e = -1074

section Grid

variable {q : ℚ} {e : Int} {s : Nat}

/-- The nearest multiple of the last bit is the nearest number. Numbers with a finer last bit all lie
below. -/
theorem Fits.nearest (hq : Fits q e) (hs : RoundsToWhole (q / 2 ^ e) s) {n : Nat} {f : Int}
    (h : Canonical n f) :
    |q - size s e| ≤ |q - size n f| ∧
      (|q - size n f| = |q - size s e| → size n f ≠ size s e → s % 2 = 0) := by
  have htwo : (0 : ℚ) < 2 ^ e := by positivity
  have hscale (y : ℚ) : |q - y * 2 ^ e| = |q / 2 ^ e - y| * 2 ^ e := by
    rw [← abs_of_pos htwo, ← abs_mul, abs_of_pos htwo, sub_mul, div_mul_cancel₀ _ htwo.ne']
  unfold size
  rcases le_or_gt e f with hle | hlt
  · obtain ⟨k, hk⟩ : ∃ k : ℤ, (n : ℚ) * 2 ^ f = k * 2 ^ e := by
      obtain ⟨d, hd⟩ := Int.eq_ofNat_of_zero_le (sub_nonneg.2 hle)
      refine ⟨n * 2 ^ d, ?_⟩
      have hf : f = d + e := by omega
      rw [hf, zpow_add₀ two_ne_zero, zpow_natCast]
      push_cast
      ring
    obtain ⟨hnear, heven⟩ := hs.nearest k
    rw [hk, hscale, hscale]
    refine ⟨mul_le_mul_of_nonneg_right hnear htwo.le, fun heq hne => ?_⟩
    exact heven (mul_right_cancel₀ htwo.ne' heq) fun h => hne (by rw [h])
  · have hnormal : (2 : ℚ) ^ 52 ≤ q / 2 ^ e := hq.normal.resolve_right (by have := h.least; omega)
    have hbelow : (n : ℚ) * 2 ^ f < 2 ^ 52 * 2 ^ e := by
      have hn : (n : ℚ) < 2 ^ 53 := by exact_mod_cast h.bits
      calc (n : ℚ) * 2 ^ f < 2 ^ 53 * 2 ^ f := mul_lt_mul_of_pos_right hn (by positivity)
        _ = 2 ^ 52 * 2 ^ (f + 1) := by
          rw [zpow_add₀ two_ne_zero]
          ring
        _ ≤ 2 ^ 52 * 2 ^ e :=
          mul_le_mul_of_nonneg_left (zpow_le_zpow_right₀ one_le_two (by omega)) (by positivity)
    have hfloor : (2 : ℚ) ^ 52 * 2 ^ e ≤ q := (le_div_iff₀ htwo).1 hnormal
    have hstrict : |q - s * 2 ^ e| < |q - n * 2 ^ f| := by
      have hgrid := (hs.nearest (2 ^ 52)).1
      have hmul := mul_le_mul_of_nonneg_right hgrid htwo.le
      rw [Int.cast_pow, Int.cast_ofNat, ← hscale, ← hscale,
        abs_of_nonneg (sub_nonneg.2 hfloor)] at hmul
      rw [abs_of_nonneg (by linarith : 0 ≤ q - n * 2 ^ f)]
      linarith
    exact ⟨hstrict.le, fun heq => absurd heq hstrict.ne'⟩

/-- The significand has at most one bit too many, and 53 bits unless the last bit is the least. -/
theorem Fits.significand (hq : Fits q e) (hs : RoundsToWhole (q / 2 ^ e) s) :
    s ≤ 2 ^ 53 ∧ (2 ^ 52 ≤ s ∨ e = -1074) := by
  refine ⟨hs.le_of_lt (by exact_mod_cast hq.below), hq.normal.imp_left fun h => ?_⟩
  exact hs.le_of_le (by exact_mod_cast h)

theorem tooLarge_eq : tooLarge = (2 ^ 53 - 1 / 2) * 2 ^ (971 : Int) := by
  unfold tooLarge
  rw [show (971 : Int) = 970 + 1 from rfl, zpow_add_one₀ two_ne_zero]
  ring

theorem Fits.lt_tooLarge (hq : Fits q e) (he : e ≤ 970) : q < tooLarge := by
  have htwo : (0 : ℚ) < 2 ^ e := by positivity
  calc q < 2 ^ 53 * 2 ^ e := (div_lt_iff₀ htwo).1 hq.below
    _ ≤ 2 ^ 53 * 2 ^ (970 : Int) :=
      mul_le_mul_of_nonneg_left (zpow_le_zpow_right₀ one_le_two he) (by positivity)
    _ ≤ tooLarge := mul_le_mul_of_nonneg_right (by norm_num) (by positivity)

/-- A significand of 53 bits is that of a finite number up to the greatest power of two. -/
theorem Fits.roundsTo (hq : Fits q e) (hs : RoundsToWhole (q / 2 ^ e) s) (hbits : s ≠ 2 ^ 53)
    (he : e ≤ 971) : RoundsTo q s e := by
  obtain ⟨hle, hnormal⟩ := hq.significand hs
  refine ⟨⟨by omega, hq.least, he, hnormal⟩, ?_, fun n f h => (hq.nearest hs h).1,
    fun n f h => (hq.nearest hs h).2⟩
  rcases lt_or_eq_of_le he with hlt | rfl
  · exact hq.lt_tooLarge (by omega)
  · -- Half a unit above the greatest significand, which is odd, would have been rounded up.
    have htwo : (0 : ℚ) < 2 ^ (971 : Int) := by positivity
    have hsize : (s : ℚ) ≤ 2 ^ 53 - 1 := by
      have : (s : ℚ) + 1 ≤ 2 ^ 53 := by exact_mod_cast (by omega : s + 1 ≤ 2 ^ 53)
      linarith
    have hnear := abs_le.1 hs.near
    rw [tooLarge_eq, ← div_lt_iff₀ htwo]
    refine lt_of_le_of_ne (by linarith) fun heq => ?_
    have hs' : (s : ℚ) = (2 ^ 53 - 1 : Nat) := by
      push_cast
      linarith
    have hodd : s = 2 ^ 53 - 1 := by exact_mod_cast hs'
    have heven := hs.even (by rw [heq, hs']; norm_num)
    omega

/-- One bit too many is carried into the power of two. -/
theorem Fits.roundsTo_carry (hq : Fits q e) (hs : RoundsToWhole (q / 2 ^ e) (2 ^ 53))
    (he : e ≤ 970) : RoundsTo q (2 ^ 52) (e + 1) := by
  have hsize : size (2 ^ 52) (e + 1) = size (2 ^ 53) e := by
    unfold size
    rw [zpow_add₀ two_ne_zero]
    push_cast
    ring
  refine ⟨⟨by norm_num, by have := hq.least; omega, by omega, .inl le_rfl⟩, hq.lt_tooLarge he,
    fun n f h => ?_, fun n f _ _ _ => by norm_num⟩
  rw [hsize]
  exact (hq.nearest hs h).1

/-- Above the greatest power of two everything is too large. -/
theorem Fits.tooLarge_le (hq : Fits q e) (hs : RoundsToWhole (q / 2 ^ e) s)
    (h : s = 2 ^ 53 ∧ 971 ≤ e ∨ 972 ≤ e) : tooLarge ≤ q := by
  have htwo : (0 : ℚ) < 2 ^ e := by positivity
  rcases h with ⟨rfl, he⟩ | he
  · have hnear := abs_le.1 hs.near
    have hlow : (2 : ℚ) ^ 53 - 1 / 2 ≤ q / 2 ^ e := by
      push_cast at hnear
      linarith
    calc tooLarge = (2 ^ 53 - 1 / 2) * 2 ^ (971 : Int) := tooLarge_eq
      _ ≤ (2 ^ 53 - 1 / 2) * 2 ^ e :=
        mul_le_mul_of_nonneg_left (zpow_le_zpow_right₀ one_le_two he) (by norm_num)
      _ ≤ q := (le_div_iff₀ htwo).1 hlow
  · have hlow : (2 : ℚ) ^ 52 ≤ q / 2 ^ e := hq.normal.resolve_right (by omega)
    calc tooLarge = (2 ^ 53 - 1 / 2) * 2 ^ (971 : Int) := tooLarge_eq
      _ ≤ 2 ^ 53 * 2 ^ (971 : Int) := mul_le_mul_of_nonneg_right (by norm_num) (by positivity)
      _ = 2 ^ 52 * 2 ^ (972 : Int) := by
        rw [show (972 : Int) = 971 + 1 from rfl, zpow_add_one₀ two_ne_zero]
        ring
      _ ≤ 2 ^ 52 * 2 ^ e :=
        mul_le_mul_of_nonneg_left (zpow_le_zpow_right₀ one_le_two he) (by norm_num)
      _ ≤ q := (le_div_iff₀ htwo).1 hlow

end Grid

/-- What rounding a fraction has to give: the nearest finite number, or infinity where that begins. -/
def Rounded (q : ℚ) (negative : Bool) : Binary64 → Prop
  | .finite sign significand exponent => sign = negative ∧ RoundsTo q significand exponent
  | .infinite sign => sign = negative ∧ tooLarge ≤ q
  | .undefined => False

theorem roundsTo_zero : RoundsTo 0 0 (-1074) where
  canonical := ⟨by norm_num, le_rfl, by norm_num, .inr rfl⟩
  inRange := mul_pos (by norm_num) (by positivity)
  nearest n f _ := by
    rw [show size 0 (-1074) = 0 by simp [size], sub_zero, abs_zero]
    exact abs_nonneg _
  even n f _ _ _ := rfl

/-- **Fractions are rounded to the nearest number.** -/
theorem nearest_spec (negative : Bool) (num : Nat) {den : Nat} (hd : 0 < den) :
    Rounded (num / den) negative (nearest negative num den) := by
  unfold nearest
  by_cases hn : num = 0
  · subst hn
    simpa [Rounded] using roundsTo_zero
  · obtain ⟨hleast, hbelow, hnormal⟩ := lastBit_spec hn hd
    have hq : Fits ((num : ℚ) / den) (lastBit num den) := ⟨hleast, hbelow, hnormal⟩
    have hs := roundQuotient_nearest (scaled num den (lastBit num den)).1
      (scaled_den_pos num hd (lastBit num den))
    rw [scaled_eq num hd] at hs
    simp only [beq_iff_eq, hn, if_false, Nat.pow_eq]
    split
    · rename_i hcarry
      rw [hcarry] at hs
      split
      · exact ⟨rfl, hq.tooLarge_le hs (.inl ⟨rfl, by omega⟩)⟩
      · exact ⟨rfl, hq.roundsTo_carry hs (by omega)⟩
    · rename_i hbits
      split
      · exact ⟨rfl, hq.tooLarge_le hs (.inr (by omega))⟩
      · exact ⟨rfl, hq.roundsTo hs hbits (by omega)⟩

/-- **Decimals are rounded to the nearest number.** -/
theorem ofDecimal_spec (negative : Bool) (digits : Nat) (exponent : Int) :
    Rounded (digits * 10 ^ exponent) negative (ofDecimal negative digits exponent) := by
  unfold ofDecimal
  split
  · rename_i he
    obtain ⟨k, rfl⟩ := Int.eq_ofNat_of_zero_le he
    have h := nearest_spec negative (digits * Nat.pow 10 k) Nat.one_pos
    simpa using h
  · rename_i he
    obtain ⟨k, rfl⟩ : ∃ k : Nat, exponent = -k := ⟨(-exponent).toNat, by omega⟩
    have hpos : 0 < Nat.pow 10 k := Nat.pow_pos (by decide)
    have h := nearest_spec negative digits hpos
    simpa [div_eq_mul_inv] using h

/-! ## Equal numbers -/

/-- A magnitude is kept in one way only. -/
theorem Canonical.eq_of_size {m n : Nat} {e f : Int} (hm : Canonical m e)
    (hn : Canonical n f) (h : size m e = size n f) : m = n ∧ e = f := by
  wlog hle : e ≤ f generalizing m n e f with hsym
  · obtain ⟨hmn, hef⟩ := hsym hn hm h.symm (by omega)
    exact ⟨hmn.symm, hef.symm⟩
  obtain ⟨d, hd⟩ := Int.eq_ofNat_of_zero_le (sub_nonneg.2 hle)
  obtain rfl : f = e + d := by omega
  have hpos : (2 : ℚ) ^ e ≠ 0 := by positivity
  have hmn : m = n * 2 ^ d := by
    have hscaled : (m : ℚ) * 2 ^ e = n * 2 ^ d * 2 ^ e := by
      rw [size, size, zpow_add₀ two_ne_zero, zpow_natCast] at h
      linarith
    exact_mod_cast mul_right_cancel₀ hpos hscaled
  cases d with
  | zero => simpa using hmn
  | succ d =>
    -- With a greater power the second one would have a full significand, and the first one more.
    have hbits := hm.bits
    have hleast := hm.least
    have htwo : 2 * n ≤ n * 2 ^ (d + 1) := by
      rw [pow_succ]
      nlinarith [Nat.one_le_two_pow (n := d)]
    rcases hn.normal with hfull | hend <;> omega

/-- Numbers that compare as equal are of one magnitude. -/
theorem compare_eq {m n : Nat} {e f : Int}
    (h : (finite false m e).compare? (finite false n f) = some .eq) : size m e = size n f := by
  have hfraction (m : Nat) (e : Int) :
      size m e = (if 0 ≤ e then (m : ℚ) * 2 ^ e.toNat else m) /
        (if 0 ≤ e then 1 else 2 ^ (-e).toNat : ℚ) := by
    unfold size
    split
    · rename_i he
      obtain ⟨k, rfl⟩ := Int.eq_ofNat_of_zero_le he
      simp
    · rename_i he
      obtain ⟨k, rfl⟩ : ∃ k : Nat, e = -k := ⟨(-e).toNat, by omega⟩
      simp [zpow_neg, div_eq_mul_inv]
  simp only [compare?, fraction?, compareFraction?, Bool.false_eq_true, if_false, Option.some.injEq,
    compare_eq_iff_eq] at h
  have hcross := congrArg (Int.cast (R := ℚ)) h
  push_cast at hcross
  rw [hfraction, hfraction, div_eq_div_iff (by split <;> positivity) (by split <;> positivity)]
  convert hcross using 2 <;> split <;> simp

end BasicToC.Binary64
