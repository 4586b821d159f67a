import Nyet.Lib.Rounding

/-!
# Normal `binary32` numbers

What Lean's model of `Float32` does to positive normal numbers, as rational arithmetic. A number
that `Denotes` a rational is one of 24 digits; the quotient of two of them denotes the rounded
quotient (`Denotes.div`), and they compare as what they denote (`Denotes.lt_iff`). Subnormal
numbers, infinities and NaNs are left out.
-/

namespace Nyet.Lib

open Float.Model Float.Model.UnpackedFloat

/-! ## Mantissas with two more bits -/

/-- The mantissa and its two residual bits stand for a number. -/
structure Extends (em : ExtendedMantissa) (x : ℚ) : Prop where
  nonneg : 0 ≤ x - em.mantissa
  lt_one : x - em.mantissa < 1
  roundBit : em.roundBit = true ↔ 1 / 2 ≤ x - em.mantissa
  stickyBit : em.stickyBit = true ↔ x - em.mantissa ≠ 0 ∧ x - em.mantissa ≠ 1 / 2

variable {em : ExtendedMantissa} {x : ℚ}

theorem Extends.floor (h : Extends em x) : ⌊x⌋ = em.mantissa := by
  have hnonneg := h.nonneg
  have hlt := h.lt_one
  rw [Int.floor_eq_iff]
  push_cast
  constructor <;> linarith

theorem Extends.fract (h : Extends em x) : Int.fract x = x - em.mantissa := by
  rw [Int.fract, h.floor, Int.cast_natCast]

/-- A shift halves the number. -/
theorem Extends.shiftRightOne (h : Extends em x) : Extends em.shiftRightOne (x / 2) := by
  have hnonneg := h.nonneg
  have hlt := h.lt_one
  have hparts : ((em.mantissa / 2 : ℕ) : ℚ) = (em.mantissa - (em.mantissa % 2 : ℕ)) / 2 := by
    have hnat := Nat.div_add_mod em.mantissa 2
    rw [eq_div_iff two_ne_zero, eq_sub_iff_add_eq]
    exact_mod_cast (mul_comm 2 (em.mantissa / 2) ▸ hnat)
  have hrest : x / 2 - ((em.mantissa / 2 : ℕ) : ℚ) =
      (x - em.mantissa + (em.mantissa % 2 : ℕ)) / 2 := by
    rw [hparts]
    ring
  -- what was below the last digit is nothing exactly if both bits are clear; it is sticky from now
  -- on
  have hor : (em.roundBit || em.stickyBit) = true ↔ x - em.mantissa ≠ 0 := by
    rw [Bool.or_eq_true, h.roundBit, h.stickyBit]
    constructor
    · rintro (hround | ⟨hne, -⟩)
      · intro hzero
        linarith
      · exact hne
    · intro hne
      by_cases hhalf : x - em.mantissa = 1 / 2
      · exact Or.inl hhalf.ge
      · exact Or.inr ⟨hne, hhalf⟩
  -- the digit that leaves the mantissa is the new round bit
  rcases Nat.mod_two_eq_zero_or_one em.mantissa with hbit | hbit
  · rw [hbit, Nat.cast_zero, add_zero] at hrest
    refine ⟨?_, ?_, ?_, ?_⟩ <;>
      rw [show (em.shiftRightOne).mantissa = em.mantissa / 2 from rfl, hrest]
    · linarith
    · linarith
    · rw [show (em.shiftRightOne).roundBit = (em.mantissa % 2 != 0) from rfl, hbit]
      exact iff_of_false (by decide) (by linarith)
    · rw [show (em.shiftRightOne).stickyBit = (em.roundBit || em.stickyBit) from rfl, hor]
      constructor
      · intro hne
        exact ⟨fun h0 => hne (by linarith), fun h1 => by linarith⟩
      · rintro ⟨hne, -⟩ h0
        exact hne (by linarith)
  · rw [hbit, Nat.cast_one] at hrest
    refine ⟨?_, ?_, ?_, ?_⟩ <;>
      rw [show (em.shiftRightOne).mantissa = em.mantissa / 2 from rfl, hrest]
    · linarith
    · linarith
    · rw [show (em.shiftRightOne).roundBit = (em.mantissa % 2 != 0) from rfl, hbit]
      exact iff_of_true (by decide) (by linarith)
    · rw [show (em.shiftRightOne).stickyBit = (em.roundBit || em.stickyBit) from rfl, hor]
      constructor
      · intro hne
        exact ⟨fun h0 => by linarith, fun h1 => hne (by linarith)⟩
      · rintro ⟨-, hne⟩ h0
        exact hne (by linarith)

theorem Extends.shiftRight (h : Extends em x) (n : ℕ) : Extends (em >>> n) (x / 2 ^ n) := by
  induction n with
  | zero =>
    rw [pow_zero, div_one]
    exact h
  | succ n ih =>
    rw [pow_succ, ← div_div]
    exact ih.shiftRightOne

/-- What the two bits are for. -/
theorem Extends.roundedMantissa (h : Extends em x) : (em.roundedMantissa : ℤ) = roundEven x := by
  rw [roundEven, h.floor, h.fract]
  have hround := h.roundBit
  have hsticky := h.stickyBit
  obtain ⟨mantissa, round, sticky⟩ := em
  cases round <;> cases sticky <;>
    simp only [Bool.false_eq_true, true_iff, false_iff, not_le, not_and_or, not_not] at hround hsticky
  · -- exact
    show (mantissa : ℤ) = _
    rw [if_pos hround]
  · show (mantissa : ℤ) = _
    rw [if_pos hround]
  · -- a tie
    have htie := hsticky.resolve_left (by linarith)
    show ((mantissa + mantissa % 2 : ℕ) : ℤ) = _
    rw [if_neg (by linarith), if_neg (by linarith)]
    rcases Nat.mod_two_eq_zero_or_one mantissa with hbit | hbit
    · rw [if_pos (by exact_mod_cast Nat.even_iff.mpr hbit), hbit, Nat.add_zero]
    · rw [if_neg (by exact_mod_cast Nat.not_even_iff.mpr hbit), hbit]
      rfl
  · show ((mantissa + 1 : ℕ) : ℤ) = _
    rw [if_neg (by linarith), if_pos (lt_of_le_of_ne hround (Ne.symm hsticky.2))]
    rfl

/-- A mantissa that is all there is. -/
theorem extends_exact (m : ℕ) : Extends (.ofMantissaAndAccuracy m .exact) m := by
  refine ⟨?_, ?_, ?_, ?_⟩ <;>
    rw [show (ExtendedMantissa.ofMantissaAndAccuracy m .exact).mantissa = m from rfl, sub_self]
  · exact one_pos
  · exact iff_of_false Bool.false_ne_true (by norm_num)
  · exact iff_of_false Bool.false_ne_true (by simp)

/-- A mantissa and a proper fraction. -/
theorem extends_fraction (m : ℕ) {num den : ℕ} (h : num < den) :
    Extends (.ofMantissaAndAccuracy m (accuracyOfFraction num den)) (m + num / den) := by
  have hden : (0 : ℚ) < den := by exact_mod_cast Nat.zero_lt_of_lt h
  have hlt : (num : ℚ) / den < 1 := by
    rw [div_lt_one hden]
    exact_mod_cast h
  have hhalf : (1 / 2 : ℚ) ≤ num / den ↔ den ≤ 2 * num := by
    rw [div_le_div_iff₀ two_pos hden, one_mul, mul_comm]
    exact_mod_cast Iff.rfl
  have hisHalf : (num : ℚ) / den = 1 / 2 ↔ 2 * num = den := by
    rw [div_eq_div_iff hden.ne' two_ne_zero, one_mul, mul_comm]
    exact_mod_cast Iff.rfl
  by_cases hzero : num = 0
  · have hexact : accuracyOfFraction num den = .exact := if_pos hzero
    rw [hexact, hzero, Nat.cast_zero, zero_div, add_zero]
    exact extends_exact m
  have hne : (num : ℚ) / den ≠ 0 := div_ne_zero (by exact_mod_cast hzero) hden.ne'
  have hacc : accuracyOfFraction num den = .inexact (compare (2 * num) den) := if_neg hzero
  rw [hacc]
  -- the round bit says at least a half, the sticky bit neither nothing nor exactly a half
  cases hcompare : compare (2 * num) den with
  | lt =>
    have hcmp : 2 * num < den := Nat.compare_eq_lt.mp hcompare
    refine ⟨?_, ?_, ?_, ?_⟩ <;>
      rw [show (ExtendedMantissa.ofMantissaAndAccuracy m (.inexact .lt)).mantissa = m from rfl,
        add_sub_cancel_left]
    · positivity
    · exact hlt
    · exact iff_of_false Bool.false_ne_true (by rw [hhalf]; omega)
    · exact iff_of_true rfl ⟨hne, by rw [Ne, hisHalf]; omega⟩
  | eq =>
    have hcmp : 2 * num = den := Nat.compare_eq_eq.mp hcompare
    refine ⟨?_, ?_, ?_, ?_⟩ <;>
      rw [show (ExtendedMantissa.ofMantissaAndAccuracy m (.inexact .eq)).mantissa = m from rfl,
        add_sub_cancel_left]
    · positivity
    · exact hlt
    · exact iff_of_true rfl (hhalf.mpr hcmp.ge)
    · exact iff_of_false Bool.false_ne_true fun hboth => hboth.2 (hisHalf.mpr hcmp)
  | gt =>
    have hcmp : den < 2 * num := Nat.compare_eq_gt.mp hcompare
    refine ⟨?_, ?_, ?_, ?_⟩ <;>
      rw [show (ExtendedMantissa.ofMantissaAndAccuracy m (.inexact .gt)).mantissa = m from rfl,
        add_sub_cancel_left]
    · positivity
    · exact hlt
    · exact iff_of_true rfl (hhalf.mpr hcmp.le)
    · exact iff_of_true rfl ⟨hne, by rw [Ne, hisHalf]; omega⟩

/-! ## Rounding a mantissa -/

theorem log2_eq_of_le_of_lt {m k : ℕ} (hle : 2 ^ k ≤ m) (hlt : m < 2 ^ (k + 1)) : m.log2 = k := by
  rw [Nat.log2_eq_log_two]
  exact Nat.log_eq_of_pow_le_of_lt_pow hle hlt

section

variable {spec : Format} {q : ℚ} {m : ℕ} {e : ℤ}

/-- A mantissa that is the integer part of `q` at a scale at least as fine as needed. -/
theorem totalExponent_of_floor (hq : 0 < q) (hfloor : ⌊q / 2 ^ e⌋ = m) (hfine : e ≤ Int.log 2 q) :
    totalExponent m e = Int.log 2 q + 1 := by
  obtain ⟨k, hk⟩ := Int.eq_ofNat_of_zero_le (sub_nonneg.mpr hfine)
  have hlog : Int.log 2 q = k + e := by omega
  obtain ⟨hlow, hhigh⟩ := Int.floor_eq_iff.mp hfloor
  -- the floor is between the powers that the number itself is between
  have hle : 2 ^ k ≤ m := by
    have hscaled : ((2 ^ k : ℕ) : ℤ) ≤ ⌊q / 2 ^ e⌋ := by
      rw [Int.le_floor, le_div_iff₀ (two_zpow_pos e)]
      push_cast
      rw [← zpow_natCast, ← zpow_add₀ two_ne_zero, ← hlog]
      exact zpow_log_le hq
    rw [hfloor] at hscaled
    exact_mod_cast hscaled
  have hlt : m < 2 ^ (k + 1) := by
    have hscaled : q / 2 ^ e < ((2 ^ (k + 1) : ℕ) : ℚ) := by
      rw [div_lt_iff₀ (two_zpow_pos e)]
      push_cast
      rw [← zpow_natCast, ← zpow_add₀ two_ne_zero]
      have hexp : ((k + 1 : ℕ) : ℤ) + e = Int.log 2 q + 1 := by
        push_cast
        omega
      rw [hexp]
      exact lt_zpow_log q
    exact_mod_cast hlow.trans_lt hscaled
  rw [totalExponent, log2_eq_of_le_of_lt hle hlt]
  omega

theorem shiftToTargetExponent_eq {acc : Accuracy} {t : ℤ}
    (ht : spec.targetExponent (totalExponent m e) = t) {n : ℕ} (hn : t = e + n) :
    shiftToTargetExponent spec m e acc =
      (ExtendedMantissa.ofMantissaAndAccuracy m acc >>> n, t) := by
  rw [shiftToTargetExponent, ht, shiftToExponent]
  have hshift : (t - e).toNat = n := by omega
  rw [hshift, hn]

/-- The second shift of a mantissa that has been rounded: by one, if it has one digit more. -/
theorem renormalize {r : ℕ} {d : ℤ} (hlow : 2 ^ (spec.mantissaBits - 1) ≤ r)
    (hhigh : r ≤ 2 ^ spec.mantissaBits) (hnormal : spec.minExponent ≤ d) :
    ∃ em e', shiftToTargetExponent spec r d .exact = (em, e') ∧
      2 ^ (spec.mantissaBits - 1) ≤ em.mantissa ∧ em.mantissa < 2 ^ spec.mantissaBits ∧
      (em.mantissa : ℚ) * 2 ^ e' = r * 2 ^ d ∧ d ≤ e' ∧ e' ≤ d + 1 := by
  have hbits : 0 < spec.mantissaBits := Nat.add_pos_left one_pos _
  have hpred : spec.mantissaBits - 1 + 1 = spec.mantissaBits := Nat.succ_pred_eq_of_pos hbits
  -- rounding up can only carry into a new digit from all ones, and then the mantissa is a power of
  -- two
  rcases hhigh.lt_or_eq with hlt | heq
  · have htotal : totalExponent r d = spec.mantissaBits + d := by
      rw [totalExponent, log2_eq_of_le_of_lt hlow (hpred.symm ▸ hlt)]
      omega
    have htarget : spec.targetExponent (totalExponent r d) = d := by
      rw [Format.targetExponent, htotal, add_sub_cancel_left]
      exact max_eq_left hnormal
    exact ⟨_, d, shiftToTargetExponent_eq htarget (n := 0) (add_zero d).symm, hlow, hlt, rfl,
      le_refl d, Int.le_add_one (le_refl d)⟩
  · have htotal : totalExponent r d = spec.mantissaBits + (d + 1) := by
      rw [totalExponent, heq, Nat.log2_two_pow]
      omega
    have htarget : spec.targetExponent (totalExponent r d) = d + 1 := by
      rw [Format.targetExponent, htotal, add_sub_cancel_left]
      exact max_eq_left (hnormal.trans (Int.le_add_one (le_refl d)))
    have hhalf : r / 2 = 2 ^ (spec.mantissaBits - 1) := by
      rw [heq, ← hpred, pow_succ, Nat.mul_div_cancel _ two_pos, Nat.add_sub_cancel]
    have hdouble : (2 : ℚ) ^ spec.mantissaBits = 2 ^ (spec.mantissaBits - 1) * 2 := by
      rw [← pow_succ, hpred]
    refine ⟨_, d + 1, shiftToTargetExponent_eq htarget (n := 1) rfl, hhalf.ge, ?_, ?_,
      Int.le_add_one (le_refl d), le_refl _⟩
    · show r / 2 < _
      rw [hhalf]
      exact Nat.pow_lt_pow_right one_lt_two (Nat.pred_lt hbits.ne')
    · show ((r / 2 : ℕ) : ℚ) * 2 ^ (d + 1) = r * 2 ^ d
      rw [hhalf, heq, zpow_add_one₀ two_ne_zero]
      push_cast
      rw [hdouble]
      ring

/-- **Rounding with two residual bits** is `roundTo`, and gives a full mantissa. -/
theorem roundWithAccuracy_eq {acc : Accuracy} (sign : Sign) (hq : 0 < q)
    (hem : Extends (.ofMantissaAndAccuracy m acc) (q / 2 ^ e))
    (hfine : e ≤ lastDigit spec.mantissaBits q)
    (hnormal : spec.minExponent ≤ lastDigit spec.mantissaBits q) :
    ∃ m' e' h, roundWithAccuracy spec sign m e acc = .finite sign m' e' h ∧
      2 ^ (spec.mantissaBits - 1) ≤ m' ∧ m' < 2 ^ spec.mantissaBits ∧
      (m' : ℚ) * 2 ^ e' = roundTo spec.mantissaBits q ∧
      lastDigit spec.mantissaBits q ≤ e' ∧ e' ≤ lastDigit spec.mantissaBits q + 1 := by
  have hbits : 0 < spec.mantissaBits := Nat.add_pos_left one_pos _
  have hmantissa : (ExtendedMantissa.ofMantissaAndAccuracy m acc).mantissa = m := by
    cases acc with
    | exact => rfl
    | inexact o => cases o <;> rfl
  have htarget : spec.targetExponent (totalExponent m e) = lastDigit spec.mantissaBits q := by
    have hdigit : lastDigit spec.mantissaBits q ≤ Int.log 2 q := by
      rw [lastDigit]
      omega
    rw [Format.targetExponent, totalExponent_of_floor hq
      (hem.floor.trans (congrArg Int.ofNat hmantissa)) (hfine.trans hdigit)]
    exact max_eq_left hnormal
  -- the first shift leaves the digits there are room for
  obtain ⟨n, hn⟩ := Int.eq_ofNat_of_zero_le (sub_nonneg.mpr hfine)
  have hn : lastDigit spec.mantissaBits q = e + n := by omega
  have hrounded := (hem.shiftRight n).roundedMantissa
  have hscale : q / 2 ^ e / 2 ^ n = q / 2 ^ lastDigit spec.mantissaBits q := by
    rw [div_div, ← zpow_natCast, ← zpow_add₀ two_ne_zero, hn]
  rw [hscale] at hrounded
  obtain ⟨hlow, hhigh⟩ := roundEven_digits_bounds hbits hq
  rw [← hrounded] at hlow hhigh
  obtain ⟨em, e', hsecond, hlow', hhigh', hvalue, hle, hle'⟩ :=
    renormalize (by exact_mod_cast hlow) (by exact_mod_cast hhigh) hnormal
  have hpos : 0 < em.mantissa := (Nat.two_pow_pos _).trans_le hlow'
  refine ⟨em.mantissa, e', hpos, ?_, hlow', hhigh', ?_, hle, hle'⟩
  · rw [roundWithAccuracy, shiftToTargetExponent_eq htarget hn]
    dsimp only
    rw [hsecond]
    exact dif_neg hpos.ne'
  · rw [hvalue, roundTo, ← hrounded, Int.cast_natCast]

end

/-! ## Division -/

theorem log_scaled {m : ℕ} (hm : 0 < m) (e : ℤ) : Int.log 2 ((m : ℚ) * 2 ^ e) = m.log2 + e := by
  refine log_eq_of_le_of_lt ?_ ?_
  · rw [zpow_add₀ two_ne_zero, zpow_natCast]
    refine mul_le_mul_of_nonneg_right ?_ (two_zpow_pos e).le
    exact_mod_cast Nat.log2_self_le hm.ne'
  · have hexp : (m.log2 : ℤ) + e + 1 = ((m.log2 + 1 : ℕ) : ℤ) + e := by
      push_cast
      ring
    rw [hexp, zpow_add₀ two_ne_zero, zpow_natCast]
    refine mul_lt_mul_of_pos_right ?_ (two_zpow_pos e)
    exact_mod_cast Nat.lt_log2_self

/-- A quotient has the difference of the logarithms for its own, or one less. -/
theorem log_sub_log_le {x y : ℚ} (hx : 0 < x) (hy : 0 < y) :
    Int.log 2 x - Int.log 2 y ≤ Int.log 2 (x / y) + 1 := by
  have hlt : (2 : ℚ) ^ (Int.log 2 x - Int.log 2 y - 1) < x / y := by
    rw [lt_div_iff₀ hy]
    calc (2 : ℚ) ^ (Int.log 2 x - Int.log 2 y - 1) * y <
          2 ^ (Int.log 2 x - Int.log 2 y - 1) * 2 ^ (Int.log 2 y + 1) :=
          mul_lt_mul_of_pos_left (lt_zpow_log y) (two_zpow_pos _)
      _ = 2 ^ Int.log 2 x := by
          rw [← zpow_add₀ two_ne_zero]
          congr 1
          ring
      _ ≤ x := zpow_log_le hx
  have hlog := hlt.trans (lt_zpow_log (x / y))
  rw [zpow_lt_zpow_iff_right₀ (one_lt_two (α := ℚ))] at hlog
  omega

section

variable {spec : Format}

/-- **The quotient of two positive numbers** is rounded as it should be. -/
theorem div_eq {m₁ m₂ : ℕ} {e₁ e₂ : ℤ} (h₁ : 0 < m₁) (h₂ : 0 < m₂)
    (hnormal : spec.minExponent ≤
      lastDigit spec.mantissaBits ((m₁ : ℚ) * 2 ^ e₁ / ((m₂ : ℚ) * 2 ^ e₂))) :
    ∃ m e h, UnpackedFloat.div spec (.finite .positive m₁ e₁ h₁) (.finite .positive m₂ e₂ h₂) =
        .finite .positive m e h ∧
      2 ^ (spec.mantissaBits - 1) ≤ m ∧ m < 2 ^ spec.mantissaBits ∧
      (m : ℚ) * 2 ^ e = roundTo spec.mantissaBits ((m₁ : ℚ) * 2 ^ e₁ / ((m₂ : ℚ) * 2 ^ e₂)) ∧
      lastDigit spec.mantissaBits ((m₁ : ℚ) * 2 ^ e₁ / ((m₂ : ℚ) * 2 ^ e₂)) ≤ e ∧
      e ≤ lastDigit spec.mantissaBits ((m₁ : ℚ) * 2 ^ e₁ / ((m₂ : ℚ) * 2 ^ e₂)) + 1 := by
  have hq₁ : (0 : ℚ) < m₁ := by exact_mod_cast h₁
  have hq₂ : (0 : ℚ) < m₂ := by exact_mod_cast h₂
  have hpos₁ : 0 < (m₁ : ℚ) * 2 ^ e₁ := mul_pos hq₁ (two_zpow_pos e₁)
  have hpos₂ : 0 < (m₂ : ℚ) * 2 ^ e₂ := mul_pos hq₂ (two_zpow_pos e₂)
  have hlog := log_sub_log_le hpos₁ hpos₂
  rw [log_scaled h₁, log_scaled h₂] at hlog
  generalize hquotient : (m₁ : ℚ) * 2 ^ e₁ / ((m₂ : ℚ) * 2 ^ e₂) = q at *
  -- the exponent at which the mantissas are divided
  generalize htarget : min (e₁ - e₂)
    (spec.targetExponent (totalExponent m₁ e₁ - totalExponent m₂ e₂)) = t
  have hfine : t ≤ lastDigit spec.mantissaBits q := by
    rw [← htarget, Format.targetExponent]
    refine (min_le_right _ _).trans (max_le ?_ hnormal)
    rw [lastDigit, totalExponent, totalExponent]
    omega
  obtain ⟨s, hs⟩ := Int.eq_ofNat_of_zero_le (sub_nonneg.mpr (htarget ▸ min_le_left (e₁ - e₂) _))
  have hcore : divCore spec m₁ e₁ m₂ e₂ =
      (m₁ * 2 ^ s / m₂, t, accuracyOfFraction (m₁ * 2 ^ s % m₂) m₂) := by
    rw [divCore, htarget]
    have hshift : (e₁ - e₂ - t).toNat = s := by omega
    rw [hshift, Nat.shiftLeft_eq]
  have hparts : ((m₁ * 2 ^ s / m₂ : ℕ) : ℚ) + ((m₁ * 2 ^ s % m₂ : ℕ) : ℚ) / m₂ = q / 2 ^ t := by
    have hnat := Nat.div_add_mod (m₁ * 2 ^ s) m₂
    have hcast : (m₂ : ℚ) * ((m₁ * 2 ^ s / m₂ : ℕ) : ℚ) + ((m₁ * 2 ^ s % m₂ : ℕ) : ℚ) =
        m₁ * 2 ^ s := by exact_mod_cast hnat
    have hexp : (2 : ℚ) ^ e₁ = 2 ^ s * 2 ^ e₂ * 2 ^ t := by
      rw [← zpow_natCast, ← zpow_add₀ two_ne_zero, ← zpow_add₀ two_ne_zero]
      congr 1
      omega
    rw [← hquotient, hexp, eq_div_iff (two_zpow_pos t).ne']
    field_simp
    linear_combination hcast
  have hem := extends_fraction (m₁ * 2 ^ s / m₂) (Nat.mod_lt (m₁ * 2 ^ s) h₂)
  rw [hparts] at hem
  obtain ⟨m, e, h, hround, hrest⟩ := @roundWithAccuracy_eq spec q _ t _ .positive
    (hquotient ▸ div_pos hpos₁ hpos₂) hem hfine hnormal
  refine ⟨m, e, h, ?_, hrest⟩
  rw [UnpackedFloat.div, hcore]
  exact hround

end

/-! ## Bits -/

@[simp] theorem unpackSign_packComponents {spec : Format} {sign : Sign}
    {exponent : BitVec spec.exponentBits} {mantissa : BitVec spec.mantissaBitsWithoutImplicit} :
    unpackSign (packComponents spec sign exponent mantissa) = sign.toBitVec := by
  ext i hi
  have hzero : i = 0 := by omega
  subst hzero
  simp [unpackSign, packComponents, BitVec.getLsbD_eq_getElem, BitVec.getLsbD_append,
    BitVec.getElem_append]

/-- Nothing is lost of a normal number in its bits. -/
theorem unpack_pack {m : ℕ} {e : ℤ} (h : 0 < m) (hlow : 2 ^ 23 ≤ m) (hhigh : m < 2 ^ 24)
    (hmin : -149 ≤ e) (hmax : e ≤ 104) :
    UnpackedFloat.unpack .binary32 (UnpackedFloat.pack .binary32 (.finite .positive m e h)) =
      .finite .positive m e h := by
  have hlog : m.log2 = 23 := log2_eq_of_le_of_lt hlow hhigh
  obtain ⟨b, hb⟩ := Int.eq_ofNat_of_zero_le (show 0 ≤ e + 150 by omega)
  have hbiased : (e + (Format.binary32.exponentBias : ℕ) +
      (Format.binary32.mantissaBitsWithoutImplicit : ℕ)).toNat = b := by
    show (e + ((2 ^ 7 - 1 : ℕ) : ℤ) + ((23 : ℕ) : ℤ)).toNat = b
    omega
  have hpack : UnpackedFloat.pack .binary32 (.finite .positive m e h) =
      packComponents .binary32 .positive (BitVec.ofNat 8 b) (BitVec.ofNat 23 m) := by
    rw [UnpackedFloat.pack]
    dsimp only
    rw [hbiased, if_neg (by show ¬ 2 ^ 8 ≤ b + 1; omega), if_pos (by rw [hlog]; rfl)]
  have hexponent : (BitVec.ofNat 8 b).toNat = b := by
    rw [BitVec.toNat_ofNat, Nat.mod_eq_of_lt]
    omega
  rw [hpack, UnpackedFloat.unpack]
  simp only [unpackMantissa_packComponents, unpackExponent_packComponents,
    unpackSign_packComponents]
  have hne : BitVec.ofNat 8 b ≠ -1#8 := by
    intro heq
    have hnat := congrArg BitVec.toNat heq
    rw [hexponent] at hnat
    have hall : (-1#8).toNat = 255 := by decide
    omega
  have hne' : BitVec.ofNat 8 b ≠ 0#8 := by
    intro heq
    have hnat := congrArg BitVec.toNat heq
    rw [hexponent, BitVec.toNat_zero] at hnat
    omega
  have hmantissa : (1#1 ++ BitVec.ofNat 23 m).toNat = m := by
    rw [BitVec.toNat_append, BitVec.toNat_ofNat, BitVec.toNat_ofNat, ← Nat.shiftLeft_add_eq_or_of_lt
      (Nat.mod_lt _ (Nat.two_pow_pos 23)), Nat.shiftLeft_eq]
    omega
  rw [if_neg hne, if_neg hne']
  congr 1
  rw [hexponent]
  show (b : ℤ) - (((2 ^ 7 - 1 : ℕ) : ℤ) + ((23 : ℕ) : ℤ)) = e
  omega

/-! ## `Float32` -/

/-- The number is positive and normal, and stands for a rational. -/
def Denotes (f : Float32) (x : ℚ) : Prop :=
  ∃ m e h, f.toModel.unpack = .finite .positive m e h ∧ 2 ^ 23 ≤ m ∧ m < 2 ^ 24 ∧
    (m : ℚ) * 2 ^ e = x

variable {f g : Float32} {x y : ℚ}

theorem Denotes.pos (h : Denotes f x) : 0 < x := by
  obtain ⟨m, e, hm, -, -, -, rfl⟩ := h
  exact mul_pos (by exact_mod_cast hm) (two_zpow_pos e)

/-- What is packed into a `Float32` denotes its value. -/
theorem denotes_pack {m : ℕ} {e : ℤ} (h : 0 < m) (hlow : 2 ^ 23 ≤ m) (hhigh : m < 2 ^ 24)
    (hmin : -149 ≤ e) (hmax : e ≤ 104) :
    Denotes (.ofModel (.pack (.finite .positive m e h))) ((m : ℚ) * 2 ^ e) :=
  ⟨m, e, h, unpack_pack h hlow hhigh hmin hmax, hlow, hhigh, rfl⟩

/-- Full mantissas are ordered by their exponents first. -/
theorem scaled_lt_of_lt {m₁ m₂ : ℕ} {e₁ e₂ : ℤ} (hhigh : m₁ < 2 ^ 24) (hlow : 2 ^ 23 ≤ m₂)
    (h : e₁ < e₂) : (m₁ : ℚ) * 2 ^ e₁ < m₂ * 2 ^ e₂ :=
  calc (m₁ : ℚ) * 2 ^ e₁ < 2 ^ 24 * 2 ^ e₁ :=
        mul_lt_mul_of_pos_right (by exact_mod_cast hhigh) (two_zpow_pos e₁)
    _ = 2 ^ 23 * 2 ^ (e₁ + 1) := by
        rw [zpow_add_one₀ two_ne_zero]
        ring
    _ ≤ 2 ^ 23 * 2 ^ e₂ :=
        mul_le_mul_of_nonneg_left (zpow_le_zpow_right₀ one_le_two (Int.add_one_le_iff.mpr h))
          (by positivity)
    _ ≤ m₂ * 2 ^ e₂ :=
        mul_le_mul_of_nonneg_right (by exact_mod_cast hlow) (two_zpow_pos e₂).le

/-- **They compare as what they denote.** -/
theorem Denotes.lt_iff (hf : Denotes f x) (hg : Denotes g y) : f < g ↔ x < y := by
  obtain ⟨m₁, e₁, h₁, hunpack₁, hlow₁, hhigh₁, rfl⟩ := hf
  obtain ⟨m₂, e₂, h₂, hunpack₂, hlow₂, hhigh₂, rfl⟩ := hg
  have hcompare : f < g ↔ (compare e₁ e₂).then (compare m₁ m₂) = .lt := by
    show decide (f.toModel < g.toModel) = true ↔ _
    rw [decide_eq_true_iff]
    show ((f.toModel.unpack.compare g.toModel.unpack) == some .lt) = true ↔ _
    rw [hunpack₁, hunpack₂, beq_iff_eq]
    exact Option.some_inj
  rw [hcompare, Ordering.then_eq_lt]
  rcases lt_trichotomy e₁ e₂ with hlt | rfl | hgt
  · exact iff_of_true (Or.inl (compare_lt_iff_lt.mpr hlt)) (scaled_lt_of_lt hhigh₁ hlow₂ hlt)
  · rw [mul_lt_mul_iff_left₀ (two_zpow_pos e₁), Nat.cast_lt, ← compare_lt_iff_lt]
    simp
  · refine iff_of_false ?_ (scaled_lt_of_lt hhigh₂ hlow₁ hgt).not_gt
    rintro (hlt | ⟨heq, -⟩)
    · exact absurd (compare_lt_iff_lt.mp hlt) hgt.not_gt
    · exact absurd (compare_eq_iff_eq.mp heq) hgt.ne'

/-- **The quotient denotes the rounded quotient.** -/
theorem Denotes.div (hf : Denotes f x) (hg : Denotes g y) (hmin : -100 ≤ Int.log 2 (x / y))
    (hmax : Int.log 2 (x / y) ≤ 100) : Denotes (f / g) (roundTo 24 (x / y)) := by
  obtain ⟨m₁, e₁, h₁, hunpack₁, -, -, rfl⟩ := hf
  obtain ⟨m₂, e₂, h₂, hunpack₂, -, -, rfl⟩ := hg
  obtain ⟨m, e, h, hdiv, hlow, hhigh, hvalue, hle, hle'⟩ := @div_eq .binary32 m₁ m₂ e₁ e₂ h₁ h₂ (by
    show (-149 : ℤ) ≤ lastDigit 24 _
    rw [lastDigit]
    omega)
  change lastDigit 24 _ ≤ e at hle
  change e ≤ lastDigit 24 _ + 1 at hle'
  rw [lastDigit] at hle hle'
  have hquotient : f / g = .ofModel (.pack (.finite .positive m e h)) := by
    show Float32.ofModel (.pack (UnpackedFloat.div .binary32 f.toModel.unpack g.toModel.unpack)) = _
    rw [hunpack₁, hunpack₂, hdiv]
  rw [hquotient, ← show (m : ℚ) * 2 ^ e = roundTo 24 _ from hvalue]
  exact denotes_pack h hlow hhigh (by omega) (by omega)

/-- A count of up to 24 bits is converted without an error. -/
theorem denotes_count {n : ℕ} (hn : 0 < n) (hsmall : n < 2 ^ 24) :
    Denotes n.toUInt64.toFloat32 n := by
  have hpos : (0 : ℚ) < n := by exact_mod_cast hn
  have hlog : Int.log 2 (n : ℚ) = n.log2 := by
    have h := log_scaled hn 0
    rwa [zpow_zero, mul_one, add_zero] at h
  have hdigits : n.log2 < 24 := (Nat.log2_lt hn.ne').mpr hsmall
  have htarget : Format.binary32.targetExponent (totalExponent n 0) = lastDigit 24 n := by
    rw [totalExponent, Format.targetExponent, lastDigit, hlog]
    show max ((n.log2 : ℤ) + 1 + 0 - (24 : ℕ)) (-149) = _
    omega
  -- the digits are shifted up until there are 24
  obtain ⟨s, hs⟩ := Int.eq_ofNat_of_zero_le (show 0 ≤ -lastDigit 24 n by
    rw [lastDigit, hlog]
    omega)
  have hdigit : lastDigit 24 n = -s := by omega
  have hscale : (n : ℚ) / 2 ^ lastDigit 24 n = (n * 2 ^ s : ℕ) := by
    rw [hdigit, zpow_neg, div_inv_eq_mul, zpow_natCast]
    push_cast
    rfl
  have hem := extends_exact (n * 2 ^ s)
  rw [← hscale] at hem
  obtain ⟨m, e, h, hround, hlow, hhigh, hvalue, hle, hle'⟩ :=
    @roundWithAccuracy_eq .binary32 n _ _ _ .positive hpos hem (le_refl _) (by
      show (-149 : ℤ) ≤ lastDigit 24 n
      rw [lastDigit, hlog]
      omega)
  have hexact : roundTo 24 n = n := roundTo_of_digits (n := n * 2 ^ s) (by
    rw [← div_eq_iff (two_zpow_pos _).ne', hscale]
    push_cast
    rfl)
  have hcount : n.toUInt64.toFloat32 = .ofModel (.pack (.finite .positive m e h)) := by
    have hnat : n.toUInt64.toNat = n :=
      Nat.mod_eq_of_lt (hsmall.trans (by decide))
    show Float32.ofModel (.pack (UnpackedFloat.ofNat .binary32 n.toUInt64.toNat)) = _
    have hshift : (0 - lastDigit 24 n).toNat = s := by omega
    have hsource : (0 : ℤ) - (s : ℤ) = lastDigit 24 n := by omega
    have hgt : compare (n : ℤ) 0 = .gt := compare_gt_iff_gt.mpr (by exact_mod_cast hn)
    rw [hnat, UnpackedFloat.ofNat, UnpackedFloat.ofInt, UnpackedFloat.normalize, hgt]
    dsimp only
    rw [Int.toNat_natCast, UnpackedFloat.round, htarget, decreaseExponent, hshift, Nat.shiftLeft_eq]
    dsimp only
    rw [hsource]
    exact congrArg (fun u => Float32.ofModel (.pack u)) hround
  change lastDigit 24 _ ≤ e at hle
  change e ≤ lastDigit 24 _ + 1 at hle'
  rw [lastDigit, hlog] at hle hle'
  rw [hcount, ← hexact, ← show (m : ℚ) * 2 ^ e = roundTo 24 n from hvalue]
  exact denotes_pack h hlow hhigh (by omega) (by omega)

/-! ## Quotients of counts -/

theorem log_bounds (hlow : (2 : ℚ) ^ (-100 : ℤ) ≤ x) (hhigh : x < 2 ^ (101 : ℤ)) :
    -100 ≤ Int.log 2 x ∧ Int.log 2 x ≤ 100 := by
  have hx : 0 < x := (two_zpow_pos _).trans_le hlow
  constructor
  · exact (Int.zpow_le_iff_le_log Nat.one_lt_two hx).mp (by exact_mod_cast hlow)
  · exact Int.lt_add_one_iff.mp
      ((Int.lt_zpow_iff_log_lt Nat.one_lt_two hx).mp (by exact_mod_cast hhigh))

theorem Denotes.div_counts {m n : ℕ} (hf : Denotes f m) (hg : Denotes g n) (hm : m < 2 ^ 24)
    (hn : n < 2 ^ 24) : Denotes (f / g) (roundTo 24 (m / n)) := by
  have hmpos : (1 : ℚ) ≤ m := by exact_mod_cast (Nat.cast_pos (α := ℚ)).mp hf.pos
  have hnpos : (1 : ℚ) ≤ n := by exact_mod_cast (Nat.cast_pos (α := ℚ)).mp hg.pos
  have hm' : (m : ℚ) < 2 ^ 24 := by exact_mod_cast hm
  have hn' : (n : ℚ) < 2 ^ 24 := by exact_mod_cast hn
  obtain ⟨hmin, hmax⟩ := @log_bounds (m / n : ℚ)
    (by
      rw [le_div_iff₀ (by linarith)]
      calc (2 : ℚ) ^ (-100 : ℤ) * n ≤ 2 ^ (-100 : ℤ) * 2 ^ 24 :=
            mul_le_mul_of_nonneg_left hn'.le (two_zpow_pos _).le
        _ ≤ 1 := by norm_num
        _ ≤ m := hmpos)
    (by
      rw [div_lt_iff₀ (by linarith)]
      calc (m : ℚ) < 2 ^ 24 := hm'
        _ ≤ 2 ^ (101 : ℤ) * 1 := by norm_num
        _ ≤ 2 ^ (101 : ℤ) * n := mul_le_mul_of_nonneg_left hnpos (two_zpow_pos _).le)
  exact hf.div hg hmin hmax

/-- The nearest number to a decimal fraction of one digit. -/
theorem denotes_tenths {a : ℕ} (ha : 0 < a) (hsmall : a < 2 ^ 23) :
    Denotes (Float32.ofScientific a true 1) (roundTo 24 (a / 10)) := by
  have hten : Denotes (Float32.ofBits 0x41200000) ((10 : ℕ) : ℚ) :=
    ⟨0xA00000, -20, by decide, rfl, by decide, by decide, by norm_num⟩
  have hdivide : Float32.ofScientific a true 1 =
      a.toUInt64.toFloat32 / Float32.ofBits 0x41200000 := dif_pos ⟨hsmall, by decide⟩
  rw [hdivide]
  exact (denotes_count ha (hsmall.trans (by decide))).div_counts hten
    (hsmall.trans (by decide)) (by decide)

/-- The nearest number to one of two digits. -/
theorem denotes_hundredths {a : ℕ} (ha : 0 < a) (hsmall : a < 2 ^ 23) :
    Denotes (Float32.ofScientific a true 2) (roundTo 24 (a / 100)) := by
  have hhundred : Denotes (Float32.ofBits 0x42C80000) ((100 : ℕ) : ℚ) :=
    ⟨0xC80000, -17, by decide, rfl, by decide, by decide, by norm_num⟩
  have hdivide : Float32.ofScientific a true 2 =
      a.toUInt64.toFloat32 / Float32.ofBits 0x42C80000 := dif_pos ⟨hsmall, by decide⟩
  rw [hdivide]
  exact (denotes_count ha (hsmall.trans (by decide))).div_counts hhundred
    (hsmall.trans (by decide)) (by decide)

section

variable {c d : Float32} {v n a b : ℕ}

/-- Fractions that differ do so by more than they can be rounded by. -/
theorem fractions_apart (hn : 0 < n) (hb : 0 < b) (hsmall : v * b + a * n < 2 ^ 24)
    (hlt : (v : ℚ) / n < a / b) :
    (v : ℚ) / n + v / n / 2 ^ 24 < a / b - a / b / 2 ^ 24 := by
  have hn' : (0 : ℚ) < n := by exact_mod_cast hn
  have hb' : (0 : ℚ) < b := by exact_mod_cast hb
  have hsmall' : (v : ℚ) * b + a * n < 2 ^ 24 := by exact_mod_cast hsmall
  rw [div_lt_div_iff₀ hn' hb'] at hlt
  have hone : (v : ℚ) * b + 1 ≤ a * n := by exact_mod_cast hlt
  have hgap : (a : ℚ) / b - v / n - (v / n + a / b) / 2 ^ 24 =
      (a * n - v * b - (v * b + a * n) / 2 ^ 24) / (n * b) := by
    field_simp
  have hpos : 0 < ((a : ℚ) * n - v * b - (v * b + a * n) / 2 ^ 24) / (n * b) := by
    refine div_pos ?_ (mul_pos hn' hb')
    have hless : ((v : ℚ) * b + a * n) / 2 ^ 24 < 1 := (div_lt_one (by norm_num)).mpr hsmall'
    linarith
  rw [← hgap] at hpos
  linarith [add_div ((v : ℚ) / n) ((a : ℚ) / b) (2 ^ 24)]

/-- **Rounded fractions compare as the fractions do**, where these are of counts that are not too
large. -/
theorem Denotes.fraction_lt_iff (hd : Denotes d (roundTo 24 (v / n)))
    (hc : Denotes c (roundTo 24 (a / b))) (hv : 0 < v) (hn : 0 < n) (ha : 0 < a) (hb : 0 < b)
    (hsmall : v * b + a * n < 2 ^ 24) : d < c ↔ v * b < a * n := by
  have hn' : (0 : ℚ) < n := by exact_mod_cast hn
  have hb' : (0 : ℚ) < b := by exact_mod_cast hb
  rw [hd.lt_iff hc, roundTo_lt_roundTo_iff (by decide)
    (div_pos (by exact_mod_cast hv) hn') (div_pos (by exact_mod_cast ha) hb')
    (fractions_apart hn hb hsmall), div_lt_div_iff₀ hn' hb']
  exact_mod_cast Iff.rfl

/-- A quotient of counts is their fraction, rounded. -/
theorem denotes_quotient (hv : 0 < v) (hn : 0 < n) (hvsmall : v < 2 ^ 24) (hnsmall : n < 2 ^ 24) :
    Denotes (v.toUInt64.toFloat32 / n.toUInt64.toFloat32) (roundTo 24 (v / n)) :=
  (denotes_count hv hvsmall).div_counts (denotes_count hn hnsmall) hvsmall hnsmall

end

/-- The quotient of no counts is zero. -/
theorem zero_div_count {n : ℕ} (hn : 0 < n) (hsmall : n < 2 ^ 24) :
    (Nat.toUInt64 0).toFloat32 / n.toUInt64.toFloat32 = 0 := by
  obtain ⟨m, e, h, hunpack, -⟩ := denotes_count hn hsmall
  show Float32.ofModel (.pack (UnpackedFloat.div .binary32
    (Nat.toUInt64 0).toFloat32.toModel.unpack n.toUInt64.toFloat32.toModel.unpack)) = _
  have hzero : (Nat.toUInt64 0).toFloat32.toModel.unpack = .zero .positive := rfl
  rw [hunpack, hzero]
  rfl

/-- Zero is less than what is positive. -/
theorem Denotes.zero_lt (h : Denotes f x) : 0 < f := by
  obtain ⟨m, e, hm, hunpack, -⟩ := h
  show decide ((0 : Float32).toModel < f.toModel) = true
  have hzero : (0 : Float32).toModel.unpack = .zero .positive := rfl
  rw [decide_eq_true_iff]
  show (((0 : Float32).toModel.unpack.compare f.toModel.unpack) == some .lt) = true
  rw [hunpack, hzero]
  rfl

theorem Denotes.not_lt_zero (h : Denotes f x) : ¬ f < 0 := by
  obtain ⟨m, e, hm, hunpack, -⟩ := h
  show ¬ decide (f.toModel < (0 : Float32).toModel) = true
  have hzero : (0 : Float32).toModel.unpack = .zero .positive := rfl
  rw [decide_eq_true_iff]
  show ¬ ((f.toModel.unpack.compare (0 : Float32).toModel.unpack) == some .lt) = true
  rw [hunpack, hzero]
  exact Bool.false_ne_true

end Nyet.Lib
