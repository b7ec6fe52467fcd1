import BasicToC.Proofs.Decimal.Nearest

/-!
# The neighbours of a binary64 number

How far the finite magnitudes stand apart, and which fractions round to which of them.

* `below`: how far down the fractions reach that round to a magnitude.
* `Canonical.apart`: the gaps on both sides of a magnitude.
* `Around`, `Around.roundsTo`: what lies within half of both gaps rounds to the magnitude between
  them.
* `RoundsTo.unique`: no fraction rounds to two magnitudes.
-/

set_option autoImplicit false

namespace BasicToC.Binary64

variable {q : ℚ} {s n : Nat} {e f : Int}

/-- Half of the gap below a magnitude, in quarters of its last bit. The lower neighbour of a power of
two is only half as far away. -/
def below (s : Nat) (e : Int) : Nat := if s = 2 ^ 52 ∧ -1074 < e then 1 else 2

theorem below_cases (s : Nat) (e : Int) :
    (below s e = 1 ∧ s = 2 ^ 52) ∨ (below s e = 2 ∧ (s ≠ 2 ^ 52 ∨ e ≤ -1074)) := by
  unfold below
  split
  · rename_i h
    exact .inl ⟨rfl, h.1⟩
  · rename_i h
    exact .inr ⟨rfl, by omega⟩

theorem below_pos (s : Nat) (e : Int) : (0 : ℚ) < below s e := by
  rcases below_cases s e with ⟨h, -⟩ | ⟨h, -⟩ <;> rw [h] <;> norm_num

theorem below_le (s : Nat) (e : Int) : (below s e : ℚ) ≤ 2 := by
  rcases below_cases s e with ⟨h, -⟩ | ⟨h, -⟩ <;> rw [h] <;> norm_num

/-- A magnitude with the same last bit or a greater one is a multiple of the last bit. -/
theorem size_multiple (n : Nat) (h : e ≤ f) : ∃ k : Nat, size n f = k * 2 ^ e := by
  obtain ⟨d, hd⟩ := Int.eq_ofNat_of_zero_le (sub_nonneg.2 h)
  refine ⟨n * 2 ^ d, ?_⟩
  rw [size, show f = d + e by omega, zpow_add₀ two_ne_zero, zpow_natCast]
  push_cast
  ring

/-- A magnitude with a smaller last bit lies below all that have 53 bits, by half of their last bit
at least. -/
theorem Canonical.size_le (hn : Canonical n f) (h : f < e) :
    size n f ≤ 2 ^ 52 * 2 ^ e - 2 ^ e / 2 := by
  have hbits : (n : ℚ) ≤ 2 ^ 53 - 1 := by
    have : (n : ℚ) + 1 ≤ 2 ^ 53 := by exact_mod_cast hn.bits
    linarith
  calc size n f ≤ (2 ^ 53 - 1) * 2 ^ f := mul_le_mul_of_nonneg_right hbits (by positivity)
    _ ≤ (2 ^ 53 - 1) * 2 ^ (e - 1) :=
      mul_le_mul_of_nonneg_left (zpow_le_zpow_right₀ one_le_two (by omega)) (by norm_num)
    _ = 2 ^ 52 * 2 ^ e - 2 ^ e / 2 := by
      rw [zpow_sub_one₀ two_ne_zero]
      ring

/-- **The gaps on both sides of a magnitude**: its last bit above, and as much below unless it is a
power of two. -/
theorem Canonical.apart (h : Canonical s e) (hn : Canonical n f) :
    size n f = size s e ∨ size s e + 2 ^ e ≤ size n f ∨
      size n f ≤ size s e - below s e * 2 ^ e / 2 := by
  have htwo : (0 : ℚ) < 2 ^ e := by positivity
  rcases le_or_gt e f with hle | hlt
  · obtain ⟨k, hk⟩ := size_multiple n hle
    rw [hk, size]
    rcases lt_trichotomy k s with hks | rfl | hks
    · right; right
      have hstep : (k : ℚ) + 1 ≤ s := by exact_mod_cast hks
      nlinarith [below_le s e]
    · exact .inl rfl
    · right; left
      have hstep : (s : ℚ) + 1 ≤ k := by exact_mod_cast hks
      nlinarith
  · right; right
    have hfull : 2 ^ 52 ≤ s := h.normal.resolve_right (by have := hn.least; omega)
    have hsize := hn.size_le hlt
    rcases below_cases s e with ⟨hb, hs⟩ | ⟨hb, hs⟩
    · have hsize' : size s e = 2 ^ 52 * 2 ^ e := by
        rw [hs, size]
        norm_num
      rw [hb, hsize', Nat.cast_one]
      linarith
    · have hmore : (2 : ℚ) ^ 52 + 1 ≤ s := by
        have := hn.least
        exact_mod_cast (by omega : 2 ^ 52 + 1 ≤ s)
      have hsize' : (2 ^ 52 + 1) * 2 ^ e ≤ size s e := mul_le_mul_of_nonneg_right hmore htwo.le
      rw [hb, Nat.cast_two]
      linarith

/-- The fractions within half of both gaps around a magnitude. The two ends belong to it when its
significand is even. -/
structure Around (s : Nat) (e : Int) (q : ℚ) : Prop where
  low : size s e - below s e * 2 ^ e / 4 ≤ q
  high : q ≤ size s e + 2 ^ e / 2
  even : q = size s e - below s e * 2 ^ e / 4 ∨ q = size s e + 2 ^ e / 2 → s % 2 = 0

theorem Around.of_lt (hlow : size s e - below s e * 2 ^ e / 4 < q) (hhigh : q < size s e + 2 ^ e / 2) :
    Around s e q :=
  ⟨hlow.le, hhigh.le, fun h => (h.elim hlow.ne' hhigh.ne).elim⟩

theorem Around.inRange (h : Canonical s e) (hq : Around s e q) : q < tooLarge := by
  have htwo : (0 : ℚ) < 2 ^ e := by positivity
  have htop : (2 : ℚ) ^ e ≤ 2 ^ (971 : Int) := zpow_le_zpow_right₀ one_le_two h.greatest
  have hbits : (s : ℚ) ≤ 2 ^ 53 - 1 := by
    have : (s : ℚ) + 1 ≤ 2 ^ 53 := by exact_mod_cast h.bits
    linarith
  have hend : size s e + 2 ^ e / 2 ≤ tooLarge := by
    calc size s e + 2 ^ e / 2 = (s + 1 / 2) * 2 ^ e := by rw [size]; ring
      _ ≤ (2 ^ 53 - 1 / 2) * 2 ^ (971 : Int) :=
        mul_le_mul (by linarith) htop htwo.le (by norm_num)
      _ = tooLarge := tooLarge_eq.symm
  refine lt_of_le_of_ne (hq.high.trans hend) fun heq => ?_
  -- The upper end of the greatest magnitude belongs to it no more, as its significand is odd.
  have heven := hq.even (.inr (le_antisymm hq.high (heq ▸ hend)))
  have hless : (s : ℚ) ≤ 2 ^ 53 - 2 := by
    have : (s : ℚ) + 2 ≤ 2 ^ 53 := by
      have := h.bits
      exact_mod_cast (by omega : s + 2 ≤ 2 ^ 53)
    linarith
  have hless' : q < tooLarge := by
    calc q ≤ (s + 1 / 2) * 2 ^ e := hq.high.trans_eq (by rw [size]; ring)
      _ ≤ (2 ^ 53 - 3 / 2) * 2 ^ (971 : Int) :=
        mul_le_mul (by linarith) htop htwo.le (by norm_num)
      _ < (2 ^ 53 - 1 / 2) * 2 ^ (971 : Int) :=
        mul_lt_mul_of_pos_right (by norm_num) (by positivity)
      _ = tooLarge := tooLarge_eq.symm
  exact hless'.ne heq

/-- **What lies within half of both gaps rounds to the magnitude between them.** -/
theorem Around.roundsTo (h : Canonical s e) (hq : Around s e q) : RoundsTo q s e := by
  have htwo : (0 : ℚ) < 2 ^ e := by positivity
  have hreach : (0 : ℚ) < below s e * 2 ^ e := mul_pos (below_pos s e) htwo
  have hlow := hq.low
  have hhigh := hq.high
  refine ⟨h, hq.inRange h, fun n f hn => ?_, fun n f hn heq hne => ?_⟩
  · rcases h.apart hn with heq | hup | hdown
    · rw [heq]
    · rw [abs_sub_comm q (size n f), abs_of_nonneg (by linarith : 0 ≤ size n f - q)]
      exact abs_le.2 ⟨by linarith, by linarith⟩
    · rw [abs_of_nonneg (by linarith : 0 ≤ q - size n f)]
      exact abs_le.2 ⟨by linarith, by linarith⟩
  · rcases h.apart hn with heq' | hup | hdown
    · exact absurd heq' hne
    · rw [abs_sub_comm q (size n f), abs_of_nonneg (by linarith : 0 ≤ size n f - q)] at heq
      refine hq.even (.inr (le_antisymm hhigh ?_))
      rcases abs_cases (q - size s e) with ⟨habs, -⟩ | ⟨habs, -⟩ <;> linarith
    · rw [abs_of_nonneg (by linarith : 0 ≤ q - size n f)] at heq
      refine hq.even (.inl (le_antisymm ?_ hlow))
      rcases abs_cases (q - size s e) with ⟨habs, -⟩ | ⟨habs, -⟩ <;> linarith

/-- **No fraction rounds to two magnitudes.** It would lie half way between them, so that both of
them were even; but between two even ones there is an odd one. -/
theorem RoundsTo.unique (h : RoundsTo q s e) (h' : RoundsTo q n f) : s = n ∧ e = f := by
  wlog hle : size s e ≤ size n f generalizing s n e f with hsym
  · obtain ⟨hs, he⟩ := hsym h' h (le_of_not_ge hle)
    exact ⟨hs.symm, he.symm⟩
  refine h.canonical.eq_of_size h'.canonical (le_antisymm hle (le_of_not_gt fun hlt => ?_))
  have hnear : |q - size s e| = |q - size n f| :=
    le_antisymm (h.nearest n f h'.canonical) (h'.nearest s e h.canonical)
  have heven := h.even n f h'.canonical hnear.symm hlt.ne'
  have heven' := h'.even s e h.canonical hnear hlt.ne
  have hmiddle : q = (size s e + size n f) / 2 := by
    rcases abs_eq_abs.1 hnear with heq | heq <;> linarith
  have hnext : Canonical (s + 1) e := by
    have hc := h.canonical
    exact ⟨by have := hc.bits; omega, hc.least, hc.greatest, hc.normal.imp_left (by omega)⟩
  have htwo : (0 : ℚ) < 2 ^ e := by positivity
  have hsize : size (s + 1) e = size s e + 2 ^ e := by
    rw [size, size]
    push_cast
    ring
  have hup : size (s + 1) e ≤ size n f := by
    rw [hsize]
    rcases h.canonical.apart h'.canonical with heq | hup | hdown
    · exact absurd heq hlt.ne'
    · exact hup
    · have := mul_pos (below_pos s e) htwo
      linarith
  have hbetween := h.nearest _ _ hnext
  rcases eq_or_lt_of_le hup with heq | hlt'
  · obtain ⟨rfl, -⟩ := hnext.eq_of_size h'.canonical heq
    omega
  · have hcloser : |q - size (s + 1) e| < |q - size s e| := by
      rw [abs_of_nonneg (by linarith : 0 ≤ q - size s e)]
      exact abs_lt.2 ⟨by linarith, by linarith⟩
    linarith

end BasicToC.Binary64
