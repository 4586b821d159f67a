import Mathlib

/-!
# Rounding to a number of binary digits

To the nearest number with `p` significant binary digits, and to the even one of two. The
exponents are not bounded: neither overflow nor underflow is in here. Rounding is monotone
(`roundTo_le_roundTo`), and numbers that lie apart by more than the two errors stay apart
(`roundTo_lt_roundTo_iff`).
-/

namespace Nyet.Lib

/-! ## To an integer -/

/-- The nearest integer, the even one of two. -/
def roundEven (x : ℚ) : ℤ :=
  if Int.fract x < 1 / 2 then ⌊x⌋
  else if 1 / 2 < Int.fract x then ⌊x⌋ + 1
  else if Even ⌊x⌋ then ⌊x⌋
  else ⌊x⌋ + 1

variable {x y : ℚ}

theorem roundEven_intCast (n : ℤ) : roundEven n = n := by
  rw [roundEven, Int.fract_intCast, if_pos (by norm_num), Int.floor_intCast]

theorem floor_le_roundEven (x : ℚ) : ⌊x⌋ ≤ roundEven x := by
  rw [roundEven]
  split_ifs <;> omega

theorem roundEven_le_floor (x : ℚ) : roundEven x ≤ ⌊x⌋ + 1 := by
  rw [roundEven]
  split_ifs <;> omega

/-- An integer is off by a half at most. -/
theorem abs_roundEven_sub_le (x : ℚ) : |(roundEven x : ℚ) - x| ≤ 1 / 2 := by
  have hparts := Int.floor_add_fract x
  have hnonneg := Int.fract_nonneg x
  have hlt := Int.fract_lt_one x
  rw [abs_le, roundEven]
  split_ifs with hlow hhigh
  all_goals
    push_cast
    constructor <;> linarith

theorem roundEven_le_roundEven (h : x ≤ y) : roundEven x ≤ roundEven y := by
  rcases (Int.floor_mono h).lt_or_eq with hlt | heq
  · exact (roundEven_le_floor x).trans ((Int.add_one_le_iff.mpr hlt).trans (floor_le_roundEven y))
  · -- between the same two integers the fractional part decides
    have hfract : Int.fract x ≤ Int.fract y := by
      have hx := Int.floor_add_fract x
      have hy := Int.floor_add_fract y
      rw [heq] at hx
      linarith
    rw [roundEven, roundEven, heq]
    split_ifs <;> first | omega | linarith

/-- An integer bounds what is rounded if it bounds what it is rounded from. -/
theorem roundEven_le_of_le {n : ℤ} (h : x ≤ n) : roundEven x ≤ n :=
  roundEven_intCast n ▸ roundEven_le_roundEven h

theorem le_roundEven_of_le {n : ℤ} (h : (n : ℚ) ≤ x) : n ≤ roundEven x :=
  roundEven_intCast n ▸ roundEven_le_roundEven h

/-! ## To significant digits -/

/-- The exponent of the last of `p` binary digits. -/
def lastDigit (p : ℕ) (x : ℚ) : ℤ := Int.log 2 x + 1 - p

/-- The nearest number with `p` binary digits. -/
def roundTo (p : ℕ) (x : ℚ) : ℚ := roundEven (x / 2 ^ lastDigit p x) * 2 ^ lastDigit p x

variable {p : ℕ}

theorem two_zpow_pos (e : ℤ) : (0 : ℚ) < 2 ^ e := zpow_pos two_pos e

theorem zpow_log_le (hx : 0 < x) : (2 : ℚ) ^ Int.log 2 x ≤ x := by
  have h := Int.zpow_log_le_self (b := 2) Nat.one_lt_two hx
  simpa using h

theorem lt_zpow_log (x : ℚ) : x < (2 : ℚ) ^ (Int.log 2 x + 1) := by
  have h := Int.lt_zpow_succ_log_self (b := 2) Nat.one_lt_two x
  simpa using h

/-- What identifies the logarithm. -/
theorem log_eq_of_le_of_lt {e : ℤ} (hle : (2 : ℚ) ^ e ≤ x) (hlt : x < 2 ^ (e + 1)) :
    Int.log 2 x = e := by
  have hx : 0 < x := (two_zpow_pos e).trans_le hle
  refine le_antisymm ?_ ?_
  · rw [← Int.lt_add_one_iff, ← zpow_lt_zpow_iff_right₀ (one_lt_two (α := ℚ))]
    exact (zpow_log_le hx).trans_lt hlt
  · rw [← Int.lt_add_one_iff, ← zpow_lt_zpow_iff_right₀ (one_lt_two (α := ℚ))]
    exact hle.trans_lt (lt_zpow_log x)

/-- The digits of a number: `p` of them, the first one not zero. -/
theorem digits_bounds (p : ℕ) (hx : 0 < x) :
    (2 : ℚ) ^ ((p : ℤ) - 1) ≤ x / 2 ^ lastDigit p x ∧ x / 2 ^ lastDigit p x < 2 ^ (p : ℤ) := by
  rw [le_div_iff₀ (two_zpow_pos _), div_lt_iff₀ (two_zpow_pos _), ← zpow_add₀ two_ne_zero,
    ← zpow_add₀ two_ne_zero, lastDigit]
  constructor
  · have hexp : (p : ℤ) - 1 + (Int.log 2 x + 1 - p) = Int.log 2 x := by ring
    rw [hexp]
    exact zpow_log_le hx
  · have hexp : (p : ℤ) + (Int.log 2 x + 1 - p) = Int.log 2 x + 1 := by ring
    rw [hexp]
    exact lt_zpow_log x

/-- They stay within a power of two when they are rounded. -/
theorem roundEven_digits_bounds (hp : 0 < p) (hx : 0 < x) :
    (2 : ℤ) ^ (p - 1) ≤ roundEven (x / 2 ^ lastDigit p x) ∧
      roundEven (x / 2 ^ lastDigit p x) ≤ (2 : ℤ) ^ p := by
  obtain ⟨hlow, hhigh⟩ := digits_bounds p hx
  constructor
  · refine le_roundEven_of_le ?_
    rw [Int.cast_pow, Int.cast_ofNat, ← zpow_natCast, Nat.cast_pred hp]
    exact hlow
  · refine roundEven_le_of_le ?_
    rw [Int.cast_pow, Int.cast_ofNat, ← zpow_natCast]
    exact hhigh.le

theorem roundTo_bounds (hp : 0 < p) (hx : 0 < x) :
    (2 : ℚ) ^ Int.log 2 x ≤ roundTo p x ∧ roundTo p x ≤ 2 ^ (Int.log 2 x + 1) := by
  obtain ⟨hlow, hhigh⟩ := roundEven_digits_bounds hp hx
  have hpos := two_zpow_pos (lastDigit p x)
  rw [roundTo]
  constructor
  · have hexp : Int.log 2 x = ((p - 1 : ℕ) : ℤ) + lastDigit p x := by
      rw [lastDigit, Nat.cast_pred hp]
      ring
    rw [hexp, zpow_add₀ two_ne_zero, zpow_natCast]
    exact mul_le_mul_of_nonneg_right (by exact_mod_cast hlow) hpos.le
  · have hexp : Int.log 2 x + 1 = (p : ℤ) + lastDigit p x := by
      rw [lastDigit]
      ring
    rw [hexp, zpow_add₀ two_ne_zero, zpow_natCast]
    exact mul_le_mul_of_nonneg_right (by exact_mod_cast hhigh) hpos.le

/-- What has few enough digits is not changed. -/
theorem roundTo_of_digits {n : ℤ} (h : x = n * 2 ^ lastDigit p x) : roundTo p x = x := by
  have hdigits : x / 2 ^ lastDigit p x = n := by
    rw [div_eq_iff (two_zpow_pos _).ne']
    exact h
  rw [roundTo, hdigits, roundEven_intCast]
  exact h.symm

/-- **Rounding is monotone.** -/
theorem roundTo_le_roundTo (hp : 0 < p) (hx : 0 < x) (h : x ≤ y) : roundTo p x ≤ roundTo p y := by
  have hlog : Int.log 2 x ≤ Int.log 2 y := Int.log_mono_right hx h
  rcases hlog.lt_or_eq with hlt | heq
  · -- a power of two lies between them
    calc roundTo p x ≤ 2 ^ (Int.log 2 x + 1) := (roundTo_bounds hp hx).2
      _ ≤ 2 ^ Int.log 2 y := zpow_le_zpow_right₀ one_le_two (Int.add_one_le_iff.mpr hlt)
      _ ≤ roundTo p y := (roundTo_bounds hp (hx.trans_le h)).1
  · have hdigit : lastDigit p x = lastDigit p y := by rw [lastDigit, lastDigit, heq]
    have hpos := two_zpow_pos (lastDigit p y)
    rw [roundTo, roundTo, hdigit]
    refine mul_le_mul_of_nonneg_right ?_ hpos.le
    exact_mod_cast roundEven_le_roundEven (div_le_div_of_nonneg_right h hpos.le)

/-- **The error**: half a unit of the last digit. -/
theorem abs_roundTo_sub_le (hx : 0 < x) : |roundTo p x - x| ≤ x / 2 ^ p := by
  have hpos := two_zpow_pos (lastDigit p x)
  have herr := abs_roundEven_sub_le (x / 2 ^ lastDigit p x)
  have hscale : roundTo p x - x =
      ((roundEven (x / 2 ^ lastDigit p x) : ℚ) - x / 2 ^ lastDigit p x) * 2 ^ lastDigit p x := by
    rw [roundTo, sub_mul, div_mul_cancel₀ _ hpos.ne']
  have hunit : (1 / 2 : ℚ) * 2 ^ lastDigit p x = 2 ^ Int.log 2 x / 2 ^ p := by
    rw [lastDigit, zpow_sub₀ two_ne_zero, zpow_add_one₀ two_ne_zero, zpow_natCast]
    ring
  calc |roundTo p x - x| =
        |(roundEven (x / 2 ^ lastDigit p x) : ℚ) - x / 2 ^ lastDigit p x| * 2 ^ lastDigit p x := by
        rw [hscale, abs_mul, abs_of_pos hpos]
    _ ≤ 1 / 2 * 2 ^ lastDigit p x := mul_le_mul_of_nonneg_right herr hpos.le
    _ = 2 ^ Int.log 2 x / 2 ^ p := hunit
    _ ≤ x / 2 ^ p := div_le_div_of_nonneg_right (zpow_log_le hx) (by positivity)

/-- **Numbers that lie apart stay apart**, and no others do. -/
theorem roundTo_lt_roundTo_iff (hp : 0 < p) (hx : 0 < x) (hy : 0 < y)
    (hapart : x < y → x + x / 2 ^ p < y - y / 2 ^ p) : roundTo p x < roundTo p y ↔ x < y := by
  constructor
  · intro hlt
    by_contra hle
    exact absurd (roundTo_le_roundTo hp hy (not_lt.mp hle)) (not_le.mpr hlt)
  · intro hlt
    have hxerr := (abs_le.mp (abs_roundTo_sub_le (p := p) hx)).2
    have hyerr := (abs_le.mp (abs_roundTo_sub_le (p := p) hy)).1
    have := hapart hlt
    linarith

end Nyet.Lib
