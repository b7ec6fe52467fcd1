import BasicToC.Decimal.Shortest
import BasicToC.Proofs.Decimal.Neighbours

/-!
# Shortest decimals read back

The decimal that is found for a binary64 number lies among the fractions that round to the number.

* `Decimal.size`: the value of a decimal.
* `Interval.Holds`, `around_holds`: the interval that is searched holds the fractions within half of
  the gaps around the number.
* `powerAbove_le`, `roughPower_le`: the search starts at a power of ten next to the number.
* `onGrid_spec`, `grid_hit`: what is found on a grid lies in the interval, and on a fine enough grid
  something is found.
* `shortest_roundsTo`: the decimal rounds to the number.
-/

set_option autoImplicit false

namespace BasicToC.Decimal

open BasicToC.Binary64 (below below_le below_cases Canonical Around RoundsTo)

/-- The value of a decimal. -/
def size (decimal : Decimal) : ℚ := decimal.digits * 10 ^ decimal.exponent

variable {interval : Interval} {q : ℚ} {s num den : Nat} {e : Int}

/-! ## The interval -/

/-- A fraction lies between the ends of an interval, and is an end only if they count. -/
structure Interval.Holds (interval : Interval) (q : ℚ) : Prop where
  low : (interval.low : ℚ) / interval.den ≤ q
  high : q ≤ interval.high / interval.den
  ends : q = interval.low / interval.den ∨ q = interval.high / interval.den → interval.closed = true

theorem Interval.contains_iff (hi : 0 < interval.den) (hd : 0 < den) :
    interval.contains num den = true ↔ interval.Holds (num / den) := by
  have hi' : (0 : ℚ) < interval.den := by exact_mod_cast hi
  have hd' : (0 : ℚ) < den := by exact_mod_cast hd
  have hlow : (interval.low : ℚ) / interval.den < num / den ↔
      interval.low * den < num * interval.den := by
    rw [div_lt_div_iff₀ hi' hd']
    exact_mod_cast Iff.rfl
  have hlow' : (num : ℚ) / den = interval.low / interval.den ↔
      interval.low * den = num * interval.den := by
    rw [eq_comm, div_eq_div_iff hi'.ne' hd'.ne']
    exact_mod_cast Iff.rfl
  have hhigh : (num : ℚ) / den < interval.high / interval.den ↔
      num * interval.den < interval.high * den := by
    rw [div_lt_div_iff₀ hd' hi']
    exact_mod_cast Iff.rfl
  have hhigh' : (num : ℚ) / den = interval.high / interval.den ↔
      num * interval.den = interval.high * den := by
    rw [div_eq_div_iff hd'.ne' hi'.ne']
    exact_mod_cast Iff.rfl
  simp only [Interval.contains, Bool.and_eq_true, Bool.or_eq_true, beq_iff_eq, compare_lt_iff_lt,
    compare_eq_iff_eq]
  rw [← hlow, ← hlow', ← hhigh, ← hhigh']
  constructor
  · rintro ⟨hl, hh⟩
    refine ⟨hl.elim le_of_lt fun h => h.1.ge, hh.elim le_of_lt fun h => h.1.le, ?_⟩
    rintro (heq | heq)
    · exact hl.elim (fun h => absurd heq h.ne') fun h => h.2
    · exact hh.elim (fun h => absurd heq h.ne) fun h => h.2
  · rintro ⟨hl, hh, hends⟩
    refine ⟨?_, ?_⟩
    · exact hl.lt_or_eq.imp_right fun h => ⟨h.symm, hends (.inl h.symm)⟩
    · exact hh.lt_or_eq.imp_right fun h => ⟨h, hends (.inr h)⟩

/-- The interval around a magnitude: its value, its ends and what they have in common. -/
theorem around_spec (hs : s ≠ 0) (e : Int) :
    0 < (Interval.around s e).den ∧
      ((Interval.around s e).value : ℚ) / (Interval.around s e).den = Binary64.size s e ∧
      ((Interval.around s e).low : ℚ) / (Interval.around s e).den =
        Binary64.size s e - below s e * 2 ^ e / 4 ∧
      ((Interval.around s e).high : ℚ) / (Interval.around s e).den =
        Binary64.size s e + 2 ^ e / 2 ∧
      ((Interval.around s e).closed = true ↔ s % 2 = 0) := by
  have hbelow : (if (s == Nat.pow 2 52 && decide (-1074 < e)) = true then 1 else 2) = below s e := by
    simp [below]
  have hle : below s e ≤ 4 * s := by
    have : (below s e : ℚ) ≤ 2 := below_le s e
    have : below s e ≤ 2 := by exact_mod_cast this
    omega
  have hfour : (2 : ℚ) ^ (2 : Int) = 4 := by norm_num
  unfold Interval.around Binary64.size
  simp only [hbelow]
  split
  · rename_i he
    obtain ⟨k, hk⟩ := Int.eq_ofNat_of_zero_le (sub_nonneg.2 he)
    have hpow : (2 : ℚ) ^ e = 4 * 2 ^ k := by
      rw [show e = 2 + (k : Int) by omega, zpow_add₀ two_ne_zero, hfour, zpow_natCast]
    refine ⟨Nat.one_pos, ?_, ?_, ?_, by simp⟩ <;>
      · simp only [hk, Int.toNat_natCast, Nat.pow_eq, Nat.cast_mul, Nat.cast_sub hle, Nat.cast_add,
          Nat.cast_pow, Nat.cast_ofNat, Nat.cast_one, div_one, hpow]
        ring
  · rename_i he
    obtain ⟨k, hk⟩ : ∃ k : Nat, 2 - e = k := ⟨(2 - e).toNat, by omega⟩
    have hpow : (2 : ℚ) ^ e = 4 / 2 ^ k := by
      rw [show e = 2 - (k : Int) by omega, zpow_sub₀ two_ne_zero, hfour, zpow_natCast]
    refine ⟨Nat.pow_pos (by decide), ?_, ?_, ?_, by simp⟩ <;>
      · simp only [hk, Int.toNat_natCast, Nat.pow_eq, Nat.cast_mul, Nat.cast_sub hle, Nat.cast_add,
          Nat.cast_pow, Nat.cast_ofNat, hpow]
        ring

/-- **The interval holds the fractions within half of the gaps around the number.** -/
theorem around_holds (hs : s ≠ 0) : (Interval.around s e).Holds q ↔ Around s e q := by
  obtain ⟨-, -, hlow, hhigh, hclosed⟩ := around_spec hs e
  constructor
  · rintro ⟨hl, hh, hends⟩
    rw [hlow] at hl
    rw [hhigh] at hh
    rw [hlow, hhigh, hclosed] at hends
    exact ⟨hl, hh, hends⟩
  · rintro ⟨hl, hh, hends⟩
    rw [← hlow] at hl
    rw [← hhigh] at hh
    rw [← hlow, ← hhigh, ← hclosed] at hends
    exact ⟨hl, hh, hends⟩

/-! ## The power of ten -/

/-- Counting up, the last power but one stays below the fraction. The induction is on the fuel. -/
theorem powerAbove_le (hd : 0 < den) (fuel : Nat) {start : Int}
    (h : (10 : ℚ) ^ (start - 1) ≤ num / den) :
    (10 : ℚ) ^ (powerAbove num den fuel start - 1) ≤ num / den := by
  have hd' : (0 : ℚ) < den := by exact_mod_cast hd
  induction fuel generalizing start with
  | zero => exact h
  | succ fuel ih =>
    have hnext {reached : Prop} [Decidable reached]
        (hstep : ¬ reached → (10 : ℚ) ^ start * den ≤ num) :
        (10 : ℚ) ^ ((if reached then start else powerAbove num den fuel (start + 1)) - 1) ≤
          num / den := by
      split
      · exact h
      · rename_i hreached
        refine ih ?_
        rw [add_sub_cancel_right, le_div_iff₀ hd']
        exact hstep hreached
    unfold powerAbove
    by_cases hstart : 0 ≤ start
    · simp only [hstart, if_true]
      obtain ⟨k, rfl⟩ := Int.eq_ofNat_of_zero_le hstart
      refine hnext fun hreached => ?_
      rw [Int.toNat_natCast, not_lt] at hreached
      rw [zpow_natCast, mul_comm]
      exact_mod_cast hreached
    · simp only [hstart, if_false]
      obtain ⟨k, rfl⟩ : ∃ k : Nat, start = -k := ⟨(-start).toNat, by omega⟩
      refine hnext fun hreached => ?_
      rw [neg_neg, Int.toNat_natCast, not_lt] at hreached
      rw [zpow_neg, zpow_natCast, inv_mul_le_iff₀ (by positivity), mul_comm]
      exact_mod_cast hreached

/-- A power of ten is not above a power of two when this holds of equal powers of both. -/
theorem ten_le_two {b : Nat} (hb : b ≠ 0) {k l : Int} (h : (10 : ℚ) ^ (b * k) ≤ 2 ^ (b * l)) :
    (10 : ℚ) ^ k ≤ 2 ^ l := by
  rw [mul_comm, mul_comm (b : Int), zpow_mul, zpow_mul, zpow_natCast, zpow_natCast] at h
  exact (pow_le_pow_iff_left₀ (by positivity) (by positivity) hb).1 h

/-- A rough power of ten, taken two lower, is not above the power of two that it is made from. Ten
bits are worth at least three digits, and 93 bits at most 28; for the powers that there are, two
digits make up for what these counts leave out. -/
theorem rough_le {l : Int} (hlow : -1100 ≤ l) (hhigh : l ≤ 1100) :
    (10 : ℚ) ^ ((l * 30103).fdiv 100000 - 2) ≤ 2 ^ l := by
  obtain ⟨k, hk⟩ : ∃ k, k = (l * 30103).fdiv 100000 - 2 := ⟨_, rfl⟩
  have hfloor : 100000 * (k + 2) ≤ l * 30103 := by
    have := Int.mul_fdiv_self_le (x := l * 30103) (k := 100000) (by decide)
    omega
  rw [← hk]
  rcases le_or_gt 0 l with hl | hl
  · refine ten_le_two (b := 10) (by decide) ?_
    calc (10 : ℚ) ^ ((10 : Nat) * k) ≤ 10 ^ (3 * l) :=
          zpow_le_zpow_right₀ (by norm_num) (by push_cast; omega)
      _ = (10 ^ (3 : Int)) ^ l := zpow_mul _ _ _
      _ ≤ (2 ^ (10 : Int)) ^ l := zpow_le_zpow_left₀ hl (by norm_num) (by norm_num)
      _ = 2 ^ ((10 : Nat) * l) := (zpow_mul _ _ _).symm
  · refine ten_le_two (b := 93) (by decide) ?_
    calc (10 : ℚ) ^ ((93 : Nat) * k) ≤ 10 ^ (28 * l) :=
          zpow_le_zpow_right₀ (by norm_num) (by push_cast; omega)
      _ = (10 ^ (28 : Int)) ^ l := zpow_mul _ _ _
      _ ≤ (2 ^ (93 : Int)) ^ l := by
        rw [← inv_le_inv₀ (by positivity) (by positivity), ← zpow_neg, ← zpow_neg]
        exact zpow_le_zpow_left₀ (by omega) (by norm_num) (by norm_num)
      _ = 2 ^ ((93 : Nat) * l) := (zpow_mul _ _ _).symm

theorem roughPower_le (hn : num ≠ 0) (hd : 0 < den) (hlow : (2 : ℚ) ^ (-1074 : Int) ≤ num / den)
    (hhigh : (num : ℚ) / den < 2 ^ (1024 : Int)) :
    (10 : ℚ) ^ (roughPower num den - 1) ≤ num / den := by
  obtain ⟨hl, hh⟩ := Binary64.quotient_bounds hn hd
  have hmost := (zpow_lt_zpow_iff_right₀ (one_lt_two : (1 : ℚ) < 2)).1 (hl.trans_lt hhigh)
  have hleast := (zpow_lt_zpow_iff_right₀ (one_lt_two : (1 : ℚ) < 2)).1 (hlow.trans_lt hh)
  have hpower : roughPower num den - 1 =
      (((Nat.log2 num : Int) - Nat.log2 den - 1) * 30103).fdiv 100000 - 2 := by
    unfold roughPower
    omega
  rw [hpower]
  exact (rough_le (by omega) (by omega)).trans hl

/-! ## The grids -/

/-- The points of a grid are the multiples of `down / up`. The two points next to the value are tried,
and what is found is one that lies in the interval. -/
theorem onGrid_cases (interval : Interval) (k : Int) :
    ∃ up down n : Nat, 0 < up ∧ 0 < down ∧ (down : ℚ) / up = 10 ^ k ∧
      n = interval.value * up / (interval.den * down) ∧
      ((onGrid? interval k = none ∧ interval.contains (n * down) up = false ∧
          interval.contains ((n + 1) * down) up = false) ∨
        ∃ m, onGrid? interval k = some ⟨m, k⟩ ∧ interval.contains (m * down) up = true) := by
  obtain ⟨up, hup⟩ : ∃ up, up = if 0 ≤ k then 1 else Nat.pow 10 (-k).toNat := ⟨_, rfl⟩
  obtain ⟨down, hdown⟩ : ∃ down, down = if 0 ≤ k then Nat.pow 10 k.toNat else 1 := ⟨_, rfl⟩
  obtain ⟨n, hn⟩ : ∃ n, n = interval.value * up / (interval.den * down) := ⟨_, rfl⟩
  have hpos : 0 < up ∧ 0 < down ∧ (down : ℚ) / up = 10 ^ k := by
    rw [hup, hdown]
    split
    · rename_i hk
      obtain ⟨m, rfl⟩ := Int.eq_ofNat_of_zero_le hk
      exact ⟨Nat.one_pos, Nat.pow_pos (by decide), by simp⟩
    · rename_i hk
      obtain ⟨m, rfl⟩ : ∃ m : Nat, k = -m := ⟨(-k).toNat, by omega⟩
      exact ⟨Nat.pow_pos (by decide), Nat.one_pos, by simp⟩
  have hround : Binary64.roundQuotient (interval.value * up) (interval.den * down) = n ∨
      Binary64.roundQuotient (interval.value * up) (interval.den * down) = n + 1 := by
    unfold Binary64.roundQuotient
    rw [← hn]
    simp only
    split
    · exact .inl rfl
    · split
      · exact .inr rfl
      · omega
  refine ⟨up, down, n, hpos.1, hpos.2.1, hpos.2.2, hn, ?_⟩
  unfold onGrid?
  simp only [← hup, ← hdown, ← hn]
  cases hlow : interval.contains (n * down) up <;>
    cases hhigh : interval.contains ((n + 1) * down) up
  case false.false => exact .inl ⟨rfl, rfl, rfl⟩
  case false.true => exact .inr ⟨n + 1, rfl, hhigh⟩
  case true.false => exact .inr ⟨n, rfl, hlow⟩
  case true.true =>
    refine .inr ⟨_, rfl, ?_⟩
    rcases hround with hr | hr <;> rw [hr]
    · exact hlow
    · exact hhigh

/-- **What the search on a grid comes to**: the value lies between two points of the grid, what is
found lies in the interval, and nothing is found only if neither of the two points does. -/
theorem onGrid_spec (hi : 0 < interval.den) (k : Int) :
    (∀ decimal, onGrid? interval k = some decimal → interval.Holds decimal.size) ∧
      ∃ n : Nat, (n : ℚ) * 10 ^ k ≤ interval.value / interval.den ∧
        (interval.value : ℚ) / interval.den < (n + 1 : Nat) * 10 ^ k ∧
        (onGrid? interval k = none →
          ¬ interval.Holds (n * 10 ^ k) ∧ ¬ interval.Holds ((n + 1 : Nat) * 10 ^ k)) := by
  obtain ⟨up, down, n, hup, hdown, hunit, hn, hsearch⟩ := onGrid_cases interval k
  have hgrid (m : Nat) : ((m * down : Nat) : ℚ) / up = m * 10 ^ k := by
    rw [← hunit, Nat.cast_mul, mul_div_assoc]
  have hinside (m : Nat) : interval.contains (m * down) up = true ↔ interval.Holds (m * 10 ^ k) := by
    rw [Interval.contains_iff hi hup, hgrid]
  have hden : (0 : ℚ) < interval.den := by exact_mod_cast hi
  have hup' : (0 : ℚ) < up := by exact_mod_cast hup
  refine ⟨fun decimal h => ?_, n, ?_, ?_, fun h => ?_⟩
  · rcases hsearch with ⟨hnone, -⟩ | ⟨m, hsome, hm⟩
    · rw [hnone] at h
      cases h
    · rw [hsome] at h
      cases h
      exact (hinside m).1 hm
  · rw [← hgrid, div_le_div_iff₀ hup' hden]
    have hfloor := Nat.div_mul_le_self (interval.value * up) (interval.den * down)
    rw [← hn] at hfloor
    exact_mod_cast (by linarith : n * down * interval.den ≤ interval.value * up)
  · rw [← hgrid, div_lt_div_iff₀ hden hup']
    have hnext : interval.value * up < (n + 1) * (interval.den * down) := by
      rw [hn, mul_comm (_ + 1)]
      exact Nat.lt_mul_div_succ _ (Nat.mul_pos hi hdown)
    exact_mod_cast (by linarith : interval.value * up < (n + 1) * down * interval.den)
  · rcases hsearch with ⟨-, hlow, hhigh⟩ | ⟨m, hsome, -⟩
    · rw [← hinside, ← hinside, hlow, hhigh]
      exact ⟨Bool.false_ne_true, Bool.false_ne_true⟩
    · rw [hsome] at h
      cases h

/-- When something is found on the last grid, what is found first lies in the interval. The induction
is on the number of grids. -/
theorem firstHit_holds (hi : 0 < interval.den) {above : Int} {fuel count : Nat}
    (hlast : onGrid? interval (above - (count + fuel : Nat)) ≠ none) :
    interval.Holds (firstHit interval above (fuel + 1) count).size := by
  induction fuel generalizing count with
  | zero =>
    unfold firstHit
    split
    · rename_i hfound
      exact (onGrid_spec hi _).1 _ hfound
    · rename_i hnone
      exact absurd hnone hlast
  | succ fuel ih =>
    unfold firstHit
    split
    · rename_i hfound
      exact (onGrid_spec hi _).1 _ hfound
    · refine ih ?_
      rwa [show count + 1 + fuel = count + (fuel + 1) by omega]

/-- Below a power of ten that is at most ten times the number, seventeen digits suffice: the points of
the grid stand closer than the ends of the interval. -/
theorem grid_hit (h : Canonical s e) (hs : s ≠ 0) {above : Int}
    (habove : (10 : ℚ) ^ (above - 1) ≤ Binary64.size s e) :
    onGrid? (Interval.around s e) (above - 17) ≠ none := by
  intro hnone
  obtain ⟨hden, hvalue, -⟩ := around_spec hs e
  obtain ⟨-, n, hlow, hhigh, hneither⟩ := onGrid_spec hden (above - 17)
  obtain ⟨hfloor, hnext⟩ := hneither hnone
  rw [around_holds hs] at hfloor hnext
  rw [hvalue] at hlow hhigh
  have htwo : (0 : ℚ) < 2 ^ e := by positivity
  have hreach := mul_pos (Binary64.below_pos s e) htwo
  have hstep : (10 : ℚ) ^ (above - 17) * 10 ^ 16 ≤ s * 2 ^ e := by
    refine le_trans (le_of_eq ?_) habove
    rw [← zpow_natCast, ← zpow_add₀ (by norm_num)]
    congr 1
    push_cast
    omega
  have hnarrow : (10 : ℚ) ^ (above - 17) < 2 ^ e / 2 + below s e * 2 ^ e / 4 := by
    have hbits : (s : ℚ) < 2 ^ 53 := by exact_mod_cast h.bits
    rcases below_cases s e with ⟨hb, hs'⟩ | ⟨hb, -⟩
    · rw [hb, Nat.cast_one]
      rw [hs'] at hstep
      push_cast at hstep
      linarith
    · rw [hb, Nat.cast_two]
      nlinarith
  push_cast at hhigh hnext
  rcases lt_or_ge ((n + 1 : ℚ) * 10 ^ (above - 17)) (Binary64.size s e + 2 ^ e / 2) with hlt | hge
  · exact hnext (.of_lt (by linarith) hlt)
  · exact hfloor (.of_lt (by linarith) (by linarith))

/-! ## The shortest decimal -/

/-- Leaving out zeros at the end does not change the value. -/
theorem stripped_size (fuel : Nat) (decimal : Decimal) : (stripped fuel decimal).size = decimal.size := by
  induction fuel generalizing decimal with
  | zero => rfl
  | succ fuel ih =>
    unfold stripped
    split
    · rename_i hzero
      rw [ih, size, size, zpow_add_one₀ (by norm_num)]
      have hten : decimal.digits = decimal.digits / 10 * 10 := by
        rw [beq_iff_eq] at hzero
        omega
      have hten' : (decimal.digits : ℚ) = (decimal.digits / 10 : Nat) * 10 := by exact_mod_cast hten
      rw [hten']
      ring
    · rfl

/-- **The decimal that is found for a number rounds to the number.** -/
theorem shortest_roundsTo (h : Canonical s e) (hs : s ≠ 0) : RoundsTo (shortest s e).size s e := by
  obtain ⟨hden, hvalue, -⟩ := around_spec hs e
  have hone : (1 : ℚ) ≤ s := by exact_mod_cast Nat.one_le_iff_ne_zero.2 hs
  have hleast : (2 : ℚ) ^ (-1074 : Int) ≤ Binary64.size s e := by
    calc (2 : ℚ) ^ (-1074 : Int) ≤ 2 ^ e := zpow_le_zpow_right₀ one_le_two h.least
      _ ≤ s * 2 ^ e := le_mul_of_one_le_left (by positivity) hone
  have hmost : Binary64.size s e < 2 ^ (1024 : Int) := by
    have hbits : (s : ℚ) < 2 ^ 53 := by exact_mod_cast h.bits
    calc (s : ℚ) * 2 ^ e < 2 ^ 53 * 2 ^ e := mul_lt_mul_of_pos_right hbits (by positivity)
      _ ≤ 2 ^ 53 * 2 ^ (971 : Int) :=
        mul_le_mul_of_nonneg_left (zpow_le_zpow_right₀ one_le_two h.greatest) (by positivity)
      _ = 2 ^ (1024 : Int) := by
        rw [show (1024 : Int) = (53 : Nat) + 971 from rfl, zpow_add₀ two_ne_zero, zpow_natCast]
  have hnum : (Interval.around s e).value ≠ 0 := by
    intro hzero
    rw [hzero, Nat.cast_zero, zero_div] at hvalue
    have : (0 : ℚ) < 2 ^ (-1074 : Int) := by positivity
    linarith
  rw [← hvalue] at hleast hmost
  have habove := powerAbove_le hden 8 (roughPower_le hnum hden hleast hmost)
  rw [hvalue] at habove
  refine Around.roundsTo h ((around_holds hs).1 ?_)
  unfold shortest
  rw [stripped_size]
  exact firstHit_holds hden (grid_hit h hs habove)

end BasicToC.Decimal
