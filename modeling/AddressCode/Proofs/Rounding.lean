import AddressCode.Number.Shortest
import Mathlib.Algebra.Order.Field.Power
import Mathlib.Algebra.Order.Field.Rat
import Mathlib.Data.Int.Log
import Mathlib.Data.Rat.Floor
import Mathlib.Tactic.FieldSimp
import Mathlib.Tactic.Linarith
import Mathlib.Tactic.NormNum
import Mathlib.Tactic.Positivity
import Mathlib.Tactic.Ring

/-!
# AddressCode.Proofs.Rounding — the nearest number of an exact value

A fraction, a decimal and a finite number have an exact value, a rational.  The number that is
nearest to a fraction or a decimal depends on that value alone:

* `Number.nearest_congr`: equal fractions have the same nearest number;
* `Decimal.toNumber_congr`: so have decimals of the same worth, however many zeros they end in;
* `Decimal.toNumber_eq`: a decimal with the worth of a positive number is read as that number.

Logarithms carry the proofs.  The binary exponent of a fraction is the logarithm of its value
(`Number.floorLog2_eq`), the number of digits in front of the point is the decimal one
(`Decimal.leading_eq`), and the exponent of a number is the logarithm of its worth with a lower
bound (`Number.exponent_eq`).
-/

namespace AddressCode

/-! ## Powers and logarithms -/

/-- A power with an exponent of either sign as a fraction of two powers. -/
theorem zpow_eq_div {b : ℚ} (hb : b ≠ 0) (e : ℤ) : b ^ e = b ^ e.toNat / b ^ (-e).toNat := by
  have he : e = (e.toNat : ℤ) - ((-e).toNat : ℤ) := by omega
  calc b ^ e = b ^ ((e.toNat : ℤ) - ((-e).toNat : ℤ)) := by rw [← he]
    _ = b ^ e.toNat / b ^ (-e).toNat := by rw [zpow_sub₀ hb, zpow_natCast, zpow_natCast]

/-- The logarithm is the exponent of the power below. -/
theorem log_eq_of_le_of_lt {b : ℕ} (hb : 1 < b) {r : ℚ} {e : ℤ} (hlow : (b : ℚ) ^ e ≤ r)
    (hhigh : r < (b : ℚ) ^ (e + 1)) : Int.log b r = e := by
  have hpos : 0 < r := lt_of_lt_of_le (zpow_pos (by exact_mod_cast Nat.zero_lt_of_lt hb) e) hlow
  have hle := (Int.zpow_le_iff_le_log hb hpos).mp hlow
  have hlt := (Int.lt_zpow_iff_log_lt hb hpos).mp hhigh
  omega

/-! ## Fractions -/

section Fractions

variable {n d n' d' : Nat}

theorem roundDiv_mul_left {k : Nat} (hk : 0 < k) (n d : Nat) :
    roundDiv (k * n) (k * d) = roundDiv n d := by
  have hlt : ∀ a b, k * a < k * b ↔ a < b := fun a b => Nat.mul_lt_mul_left hk
  simp only [roundDiv, Nat.mul_div_mul_left _ _ hk, Nat.mul_mod_mul_left, Nat.mul_left_comm 2 k,
    hlt]

/-- Equal fractions are rounded alike. -/
theorem roundDiv_congr (hd : 0 < d) (hd' : 0 < d') (h : n * d' = n' * d) :
    roundDiv n d = roundDiv n' d' := by
  calc roundDiv n d = roundDiv (d' * n) (d' * d) := (roundDiv_mul_left hd' n d).symm
    _ = roundDiv (d * n') (d * d') := by
      rw [Nat.mul_comm d' n, h, Nat.mul_comm d' d, Nat.mul_comm n' d]
    _ = roundDiv n' d' := roundDiv_mul_left hd n' d'

theorem roundDiv_mul_self (m : Nat) (hd : 0 < d) : roundDiv (m * d) d = m := by
  have hlt : 2 * (m * d % d) < d := by simpa using hd
  rw [roundDiv, if_pos hlt, Nat.mul_div_cancel m hd]

theorem roundDiv_eq_or (n d : Nat) : roundDiv n d = n / d ∨ roundDiv n d = n / d + 1 := by
  simp only [roundDiv]
  split
  · exact Or.inl rfl
  · split
    · exact Or.inr rfl
    · split
      · exact Or.inl rfl
      · exact Or.inr rfl

namespace Number

/-- The test on the exponent compares a power of two with the fraction. -/
theorem two_zpow_le_iff (hd : 0 < d) (e : ℤ) :
    d * Nat.pow 2 e.toNat ≤ n * Nat.pow 2 (-e).toNat ↔ (2 : ℚ) ^ e ≤ (n : ℚ) / d := by
  have hd' : (0 : ℚ) < d := by exact_mod_cast hd
  rw [zpow_eq_div two_ne_zero, div_le_div_iff₀ (by positivity) hd', mul_comm _ (d : ℚ)]
  simp only [Nat.pow_eq]
  exact_mod_cast Iff.rfl

/-- The binary exponent of a fraction is its logarithm: the estimate from the lengths of its parts
is right or one too large. -/
theorem floorLog2_eq (hn : 0 < n) (hd : 0 < d) : floorLog2 n d = Int.log 2 ((n : ℚ) / d) := by
  have hd' : (0 : ℚ) < d := by exact_mod_cast hd
  have hnlow : (2 : ℚ) ^ (n.log2 : ℤ) ≤ n := by exact_mod_cast Nat.log2_self_le hn.ne'
  have hdlow : (2 : ℚ) ^ (d.log2 : ℤ) ≤ d := by exact_mod_cast Nat.log2_self_le hd.ne'
  have hnhigh : (n : ℚ) < (2 : ℚ) ^ ((n.log2 : ℤ) + 1) := by exact_mod_cast Nat.lt_log2_self
  have hdhigh : (d : ℚ) < (2 : ℚ) ^ ((d.log2 : ℤ) + 1) := by exact_mod_cast Nat.lt_log2_self
  -- each part is less than twice the power below it, so the estimate is off by one at most
  obtain ⟨e, he⟩ : ∃ e : ℤ, e = (n.log2 : ℤ) - d.log2 := ⟨_, rfl⟩
  have hlow : (2 : ℚ) ^ (e - 1) ≤ (n : ℚ) / d := by
    rw [le_div_iff₀ hd']
    calc (2 : ℚ) ^ (e - 1) * d ≤ 2 ^ (e - 1) * 2 ^ ((d.log2 : ℤ) + 1) := by gcongr
      _ = 2 ^ (n.log2 : ℤ) := by
        rw [← zpow_add₀ two_ne_zero]
        congr 1
        omega
      _ ≤ n := hnlow
  have hhigh : (n : ℚ) / d < 2 ^ (e + 1) := by
    rw [div_lt_iff₀ hd']
    calc (n : ℚ) < 2 ^ ((n.log2 : ℤ) + 1) := hnhigh
      _ = 2 ^ (e + 1) * 2 ^ (d.log2 : ℤ) := by
        rw [← zpow_add₀ two_ne_zero]
        congr 1
        omega
      _ ≤ 2 ^ (e + 1) * d := by gcongr
  simp only [floorLog2, ← he, two_zpow_le_iff hd]
  by_cases h : (2 : ℚ) ^ e ≤ (n : ℚ) / d
  · rw [if_pos h]
    exact (log_eq_of_le_of_lt one_lt_two (by exact_mod_cast h) (by exact_mod_cast hhigh)).symm
  · rw [if_neg h]
    refine (log_eq_of_le_of_lt one_lt_two (by exact_mod_cast hlow) ?_).symm
    rw [sub_add_cancel]
    exact_mod_cast not_le.mp h

/-- Equal fractions have the same nearest number. -/
theorem nearest_congr (hd : 0 < d) (hd' : 0 < d') (h : n * d' = n' * d) :
    nearest n d = nearest n' d' := by
  rcases Nat.eq_zero_or_pos n with rfl | hn
  · obtain rfl : n' = 0 := by
      rcases Nat.mul_eq_zero.mp (h.symm.trans (Nat.zero_mul d')) with h0 | h0
      · exact h0
      · omega
    simp [nearest]
  · have hn' : 0 < n' := Nat.pos_of_mul_pos_right (h ▸ Nat.mul_pos hn hd')
    have hratio : (n : ℚ) / d = n' / d' := by
      rw [div_eq_div_iff (by positivity) (by positivity)]
      exact_mod_cast h
    have hlog : floorLog2 n d = floorLog2 n' d' := by
      rw [floorLog2_eq hn hd, floorLog2_eq hn' hd', hratio]
    have hround : ∀ a b : Nat, roundDiv (n * Nat.pow 2 a) (d * Nat.pow 2 b) =
        roundDiv (n' * Nat.pow 2 a) (d' * Nat.pow 2 b) := by
      intro a b
      have hb : 0 < Nat.pow 2 b := Nat.two_pow_pos b
      refine roundDiv_congr (Nat.mul_pos hd hb) (Nat.mul_pos hd' hb) ?_
      calc n * Nat.pow 2 a * (d' * Nat.pow 2 b) = n * d' * (Nat.pow 2 a * Nat.pow 2 b) := by ring
        _ = n' * Nat.pow 2 a * (d * Nat.pow 2 b) := by rw [h]; ring
    simp only [nearest, hlog, hround, beq_eq_false_iff_ne.mpr hn.ne',
      beq_eq_false_iff_ne.mpr hd.ne', beq_eq_false_iff_ne.mpr hn'.ne',
      beq_eq_false_iff_ne.mpr hd'.ne']

end Number

end Fractions

/-! ## Numbers -/

namespace Number

variable {x : Number} {n d : Nat}

/-- Is this a number greater than zero, and finite? -/
structure Positive (x : Number) : Prop where
  unsigned : x.isNegative = false
  nonzero : x.isZero = false
  finite : x.magnitude < infinity.magnitude

/-- The exact value of the magnitude of a finite number. -/
def worth (x : Number) : ℚ := x.significand * 2 ^ x.exponent

theorem magnitude_infinity : infinity.magnitude = 2047 * 2 ^ 52 := by decide

theorem Positive.magnitude_pos (h : x.Positive) : 0 < x.magnitude := by
  have hzero := h.nonzero
  simp only [isZero, beq_eq_false_iff_ne] at hzero
  omega

/-- The bits of a number without a sign are its magnitude. -/
theorem eq_ofMagnitude (h : x.isNegative = false) : x = ⟨x.magnitude.toUInt64⟩ := by
  obtain ⟨b⟩ := x
  simp only [isNegative, decide_eq_false_iff_not, not_le, Nat.pow_eq] at h
  simp [magnitude, Nat.mod_eq_of_lt h]

/-- A significand and an exponent are one of two kinds: those of the smallest numbers, and those
whose significand has all its 53 binary digits. -/
theorem parts_cases (x : Number) :
    (x.exponent = -1074 ∧ x.significand < 2 ^ 52 ∧ x.magnitude = x.significand) ∨
    (-1074 ≤ x.exponent ∧ 2 ^ 52 ≤ x.significand ∧ x.significand < 2 ^ 53 ∧
      (x.magnitude : ℤ) = (x.exponent + 1074) * 2 ^ 52 + x.significand) := by
  simp only [exponent, significand, Nat.pow_eq]
  split
  · exact Or.inl ⟨rfl, by omega, rfl⟩
  · refine Or.inr ⟨?_, ?_, ?_, ?_⟩ <;> omega

theorem Positive.significand_pos (h : x.Positive) : 0 < x.significand := by
  have hpos := h.magnitude_pos
  rcases x.parts_cases with ⟨-, -, heq⟩ | ⟨-, hlow, -⟩ <;> omega

theorem significand_lt (x : Number) : x.significand < 2 ^ 53 := by
  rcases x.parts_cases with ⟨-, h, -⟩ | ⟨-, -, h, -⟩ <;> omega

theorem le_exponent (x : Number) : -1074 ≤ x.exponent := by
  rcases x.parts_cases with ⟨h, -⟩ | ⟨h, -⟩ <;> omega

theorem Positive.exponent_le (h : x.Positive) : x.exponent ≤ 971 := by
  have hfinite := h.finite
  rw [magnitude_infinity] at hfinite
  rcases x.parts_cases with ⟨he, -⟩ | ⟨-, hlow, -, heq⟩ <;> omega

theorem Positive.worth_pos (h : x.Positive) : 0 < x.worth := by
  have hpos : (0 : ℚ) < x.significand := by exact_mod_cast h.significand_pos
  exact mul_pos hpos (zpow_pos two_pos _)

/-- The least number greater than zero is `2 ^ -1074`, and the others are below `2 ^ 1024`. -/
theorem Positive.worth_bounds (h : x.Positive) :
    (2 : ℚ) ^ (-1074 : ℤ) ≤ x.worth ∧ x.worth < (2 : ℚ) ^ (1024 : ℤ) := by
  have hpos : (1 : ℚ) ≤ x.significand := by exact_mod_cast h.significand_pos
  have hlt : (x.significand : ℚ) < 2 ^ (53 : ℤ) := by exact_mod_cast x.significand_lt
  constructor
  · calc (2 : ℚ) ^ (-1074 : ℤ) ≤ 2 ^ x.exponent := zpow_le_zpow_right₀ one_le_two x.le_exponent
      _ ≤ x.significand * 2 ^ x.exponent := le_mul_of_one_le_left (by positivity) hpos
  · calc x.significand * (2 : ℚ) ^ x.exponent < 2 ^ (53 : ℤ) * 2 ^ x.exponent := by gcongr
      _ = 2 ^ (53 + x.exponent) := (zpow_add₀ two_ne_zero _ _).symm
      _ ≤ 2 ^ (1024 : ℤ) := zpow_le_zpow_right₀ one_le_two (by linarith [h.exponent_le])

/-- The last place of a number is worth 52 binary places less than its first one, but not less than
that of the smallest numbers. -/
theorem Positive.exponent_eq (h : x.Positive) :
    x.exponent = max (Int.log 2 x.worth - 52) (-1074) := by
  rcases x.parts_cases with ⟨he, hlt, -⟩ | ⟨he, hlow, hhigh, -⟩
  · have hlog : Int.log 2 x.worth < -1022 := by
      refine (Int.lt_zpow_iff_log_lt one_lt_two h.worth_pos).mp ?_
      have hlt' : (x.significand : ℚ) < 2 ^ (52 : ℤ) := by exact_mod_cast hlt
      calc x.worth = x.significand * (2 : ℚ) ^ (-1074 : ℤ) := by rw [worth, he]
        _ < 2 ^ (52 : ℤ) * 2 ^ (-1074 : ℤ) := by gcongr
        _ = ((2 : ℕ) : ℚ) ^ (-1022 : ℤ) := (zpow_add₀ two_ne_zero _ _).symm
    omega
  · have hlow' : (2 : ℚ) ^ (52 : ℤ) ≤ x.significand := by exact_mod_cast hlow
    have hhigh' : (x.significand : ℚ) < 2 ^ (53 : ℤ) := by exact_mod_cast hhigh
    have hlog : Int.log 2 x.worth = 52 + x.exponent := by
      refine log_eq_of_le_of_lt one_lt_two ?_ ?_
      · rw [Nat.cast_ofNat, zpow_add₀ two_ne_zero, worth]
        gcongr
      · rw [Nat.cast_ofNat, add_right_comm, zpow_add₀ two_ne_zero, worth]
        gcongr
        exact hhigh'
    omega

theorem magnitude_eq (x : Number) :
    (x.exponent + 1074).toNat * Nat.pow 2 52 + x.significand = x.magnitude := by
  simp only [Nat.pow_eq]
  rcases x.parts_cases with ⟨he, -, heq⟩ | ⟨he, -, -, heq⟩ <;> omega

/-- A fraction with the value of a number is rounded to that number. -/
theorem Positive.nearest_eq (h : x.Positive) (hd : 0 < d) (hworth : (n : ℚ) / d = x.worth) :
    nearest n d = x := by
  have hd' : (0 : ℚ) < d := by exact_mod_cast hd
  have hn : 0 < n := by
    rcases Nat.eq_zero_or_pos n with rfl | hn
    · exact absurd h.worth_pos (by simp [← hworth])
    · exact hn
  -- at the exponent of the number the division leaves nothing, so there is nothing to round
  have hround : roundDiv (n * Nat.pow 2 (-x.exponent).toNat) (d * Nat.pow 2 x.exponent.toNat) =
      x.significand := by
    have hscale : n * 2 ^ (-x.exponent).toNat = x.significand * (d * 2 ^ x.exponent.toNat) := by
      rw [worth, zpow_eq_div two_ne_zero, div_eq_iff hd'.ne'] at hworth
      have heq : (n : ℚ) * 2 ^ (-x.exponent).toNat =
          x.significand * (d * 2 ^ x.exponent.toNat) := by
        rw [hworth]
        field_simp
      exact_mod_cast heq
    simp only [Nat.pow_eq]
    rw [hscale, roundDiv_mul_self _ (Nat.mul_pos hd (Nat.two_pow_pos _))]
  have hexp : max (floorLog2 n d - 52) (-1074) = x.exponent := by
    rw [floorLog2_eq hn hd, hworth, h.exponent_eq]
  simp only [nearest, beq_eq_false_iff_ne.mpr hn.ne', beq_eq_false_iff_ne.mpr hd.ne', hexp, hround,
    x.magnitude_eq, Bool.or_self, Bool.false_eq_true, if_false, if_neg (not_le.mpr h.finite)]
  exact (eq_ofMagnitude h.unsigned).symm

end Number

/-! ## Decimals -/

namespace Decimal

variable {d d' : Decimal} {x : Number}

/-- The exact value of a decimal. -/
def worth (d : Decimal) : ℚ := d.significand * 10 ^ d.exponent

theorem worth_pos (h : 0 < d.significand) : 0 < d.worth := by
  have hpos : (0 : ℚ) < d.significand := by exact_mod_cast h
  exact mul_pos hpos (zpow_pos (by norm_num) _)

theorem significand_eq_zero_iff : d.significand = 0 ↔ d.worth = 0 := by
  have hne : (10 : ℚ) ^ d.exponent ≠ 0 := zpow_ne_zero _ (by norm_num)
  simp [worth, hne]

/-- The exponent of the first digit is the decimal logarithm of the worth. -/
theorem leading_eq (h : 0 < d.significand) : d.leading = Int.log 10 d.worth := by
  obtain ⟨k, hk⟩ : ∃ k, d.digits.length = k + 1 :=
    Nat.exists_eq_succ_of_ne_zero Nat.length_toDigits_pos.ne'
  have hhigh : d.significand < 10 ^ (k + 1) :=
    (Nat.length_toDigits_le_iff (by norm_num) (by omega)).mp hk.le
  have hlow : 10 ^ k ≤ d.significand := by
    rcases Nat.eq_zero_or_pos k with rfl | hpos
    · exact h
    · by_contra hlt
      have hle := (Nat.length_toDigits_le_iff (by norm_num) hpos).mpr (not_le.mp hlt)
      rw [digits] at hk
      omega
  have hlow' : (10 : ℚ) ^ (k : ℤ) ≤ d.significand := by exact_mod_cast hlow
  have hhigh' : (d.significand : ℚ) < 10 ^ ((k : ℤ) + 1) := by exact_mod_cast hhigh
  have hten : (10 : ℚ) ≠ 0 := by norm_num
  have hleading : d.leading = (k : ℤ) + d.exponent := by
    rw [leading, hk]
    omega
  rw [hleading]
  refine (log_eq_of_le_of_lt (b := 10) (by norm_num) ?_ ?_).symm
  · rw [Nat.cast_ofNat, zpow_add₀ hten, worth]
    gcongr
  · rw [Nat.cast_ofNat, add_right_comm, zpow_add₀ hten, worth]
    gcongr

/-- How a decimal is read: within the range of numbers its nearest number is that of a fraction. -/
theorem toNumber_of_pos (h : 0 < d.significand) : d.toNumber =
    if 399 < d.leading then .infinity
    else if d.leading < -401 then .zero
    else .nearest (d.significand * Nat.pow 10 d.exponent.toNat)
      (Nat.pow 10 (-d.exponent).toNat) := by
  have hne : (d.significand == 0) = false := beq_eq_false_iff_ne.mpr h.ne'
  have htop : ((Nat.toDigits 10 d.significand).length : ℤ) + d.exponent = d.leading + 1 := by
    rw [leading, digits]
    omega
  have hhigh : (400 < d.leading + 1) = (399 < d.leading) := propext (by omega)
  have hlow : (d.leading + 1 < -400) = (d.leading < -401) := propext (by omega)
  simp only [toNumber, Number.ofDecimal, hne, htop, hhigh, hlow, Bool.false_eq_true, if_false]

/-- The fraction that stands for a decimal has its worth. -/
theorem fraction_worth (d : Decimal) :
    ((d.significand * Nat.pow 10 d.exponent.toNat : ℕ) : ℚ) / (Nat.pow 10 (-d.exponent).toNat : ℕ) =
      d.worth := by
  rw [worth, zpow_eq_div (by norm_num)]
  push_cast [Nat.pow_eq]
  ring

/-- Decimals of the same worth are read as the same number. -/
theorem toNumber_congr (h : d.worth = d'.worth) : d.toNumber = d'.toNumber := by
  rcases Nat.eq_zero_or_pos d.significand with hzero | hpos
  · have hzero' : d'.significand = 0 := by
      rw [significand_eq_zero_iff, ← h, ← significand_eq_zero_iff, hzero]
    simp [toNumber, Number.ofDecimal, hzero, hzero']
  · have hpos' : 0 < d'.significand := by
      refine Nat.pos_of_ne_zero fun hzero => ?_
      rw [significand_eq_zero_iff, ← h] at hzero
      exact (worth_pos hpos).ne' hzero
    have hleading : d.leading = d'.leading := by rw [leading_eq hpos, leading_eq hpos', h]
    have hten : ∀ k : Nat, 0 < Nat.pow 10 k := fun k => Nat.pow_pos (by norm_num)
    rw [toNumber_of_pos hpos, toNumber_of_pos hpos', hleading]
    congr 2
    refine Number.nearest_congr (hten _) (hten _) ?_
    have hworth := (fraction_worth d).trans (h.trans (fraction_worth d').symm)
    rw [div_eq_div_iff (by exact_mod_cast (hten _).ne') (by exact_mod_cast (hten _).ne')] at hworth
    exact_mod_cast hworth

/-- A decimal with the worth of a positive number is read as that number. -/
theorem toNumber_eq (hx : x.Positive) (h : d.worth = x.worth) : d.toNumber = x := by
  have hpos : 0 < d.significand := by
    refine Nat.pos_of_ne_zero fun hzero => ?_
    rw [significand_eq_zero_iff, h] at hzero
    exact hx.worth_pos.ne' hzero
  -- no number is so small or so large that its decimal is cut off by its length alone
  obtain ⟨hlow, hhigh⟩ := hx.worth_bounds
  have hle : (-401 : ℤ) ≤ d.leading := by
    rw [leading_eq hpos, h, ← Int.zpow_le_iff_le_log (by norm_num) hx.worth_pos]
    refine le_trans ?_ hlow
    rw [zpow_neg, zpow_neg]
    exact inv_anti₀ (by positivity) (by exact_mod_cast (by decide +kernel : 2 ^ 1074 ≤ 10 ^ 401))
  have hlt : d.leading < 400 := by
    rw [leading_eq hpos, h, ← Int.lt_zpow_iff_log_lt (by norm_num) hx.worth_pos]
    exact lt_trans hhigh (by exact_mod_cast (by decide +kernel : 2 ^ 1024 < 10 ^ 400))
  rw [toNumber_of_pos hpos, if_neg (by omega), if_neg (by omega)]
  exact hx.nearest_eq (Nat.pow_pos (by norm_num)) ((fraction_worth d).trans h)

end Decimal

end AddressCode
