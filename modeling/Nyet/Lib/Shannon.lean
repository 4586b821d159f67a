import Mathlib

/-!
# Entropy from a table of logarithms

The entropy of the symbols of a list, and what an integer computation makes of it that has the
logarithms as integers, rounded down at some scale, and that divides with a remainder. It is off
by less than two units of the scale, or one in the other direction (`shannon_near`).
-/

namespace Nyet.Lib

section

variable {α : Type*} [DecidableEq α]

/-- The entropy of a list's symbols, in bits. -/
noncomputable def shannon (l : List α) : ℝ :=
  (l.dedup.map fun x => (l.count x : ℝ) / l.length * Real.logb 2 (l.length / l.count x)).sum

/-- The table has the logarithm of `n` at this scale, rounded down. -/
structure FloorLog (scale : ℝ) (table : ℕ → ℕ) (n : ℕ) : Prop where
  le : (table n : ℝ) ≤ scale * Real.logb 2 n
  lt : scale * Real.logb 2 n < table n + 1

variable {scale : ℝ} {table : ℕ → ℕ} {n : ℕ}

/-- It can be told from powers of integers, when the scale is one itself. -/
theorem floorLog_of_pow {k : ℕ} (hn : 0 < n) (hle : 2 ^ table n ≤ n ^ k)
    (hlt : n ^ k < 2 ^ (table n + 1)) : FloorLog k table n := by
  have hpos : (0 : ℝ) < n := by exact_mod_cast hn
  have hlog : (k : ℝ) * Real.logb 2 n = Real.logb 2 ((n : ℝ) ^ k) := (Real.logb_pow 2 _ k).symm
  have hpow (m : ℕ) : Real.logb 2 ((2 : ℝ) ^ m) = m := by
    rw [Real.logb_pow, Real.logb_self_eq_one one_lt_two, mul_one]
  constructor
  · have hreal : (2 : ℝ) ^ table n ≤ (n : ℝ) ^ k := by exact_mod_cast hle
    have hlogs := Real.logb_le_logb_of_le one_lt_two (by positivity) hreal
    rwa [hpow, ← hlog] at hlogs
  · have hreal : (n : ℝ) ^ k < (2 : ℝ) ^ (table n + 1) := by exact_mod_cast hlt
    have hlogs := Real.logb_lt_logb one_lt_two (by positivity) hreal
    rwa [hpow, ← hlog, Nat.cast_succ] at hlogs

/-- The weighted sum of rounded logarithms is off by the sum of the weights at most. -/
theorem sum_floorLog {β : Type*} {f : β → ℕ} (xs : List β) (h : ∀ x ∈ xs, FloorLog scale table (f x)) :
    ((xs.map fun x => f x * table (f x)).sum : ℝ) ≤
        (xs.map fun x => (f x : ℝ) * (scale * Real.logb 2 (f x))).sum ∧
      (xs.map fun x => (f x : ℝ) * (scale * Real.logb 2 (f x))).sum ≤
        ((xs.map fun x => f x * table (f x)).sum : ℝ) + (xs.map f).sum := by
  induction xs with
  | nil => simp
  | cons x xs ih =>
    obtain ⟨hle, hge⟩ := ih fun y hy => h y (List.mem_cons_of_mem _ hy)
    have hx := h x List.mem_cons_self
    have hf : (0 : ℝ) ≤ f x := Nat.cast_nonneg _
    have hlow := mul_le_mul_of_nonneg_left hx.le hf
    have hhigh := mul_le_mul_of_nonneg_left hx.lt.le hf
    simp only [List.map_cons, List.sum_cons]
    push_cast at hle hge ⊢
    constructor <;> linarith

/-- The entropy is the logarithm of the length, less the mean of the logarithms of the counts. -/
theorem shannon_eq {l : List α} (hl : l ≠ []) : scale * shannon l =
    scale * Real.logb 2 l.length -
      (l.dedup.map fun x => (l.count x : ℝ) * (scale * Real.logb 2 (l.count x))).sum / l.length := by
  have hlen : (0 : ℝ) < l.length := by exact_mod_cast List.length_pos_of_ne_nil hl
  have hcounts : ((l.dedup.map fun x => l.count x).sum : ℝ) = l.length := by
    exact_mod_cast List.sum_map_count_dedup_eq_length l
  -- symbol by symbol: the logarithm of a quotient is a difference
  have hparts : ∀ xs : List α, (∀ x ∈ xs, x ∈ l) →
      scale * (xs.map fun x =>
          (l.count x : ℝ) / l.length * Real.logb 2 (l.length / l.count x)).sum =
        (xs.map fun x => l.count x).sum / l.length * (scale * Real.logb 2 l.length) -
          (xs.map fun x => (l.count x : ℝ) * (scale * Real.logb 2 (l.count x))).sum / l.length := by
    intro xs hxs
    induction xs with
    | nil => simp
    | cons x xs ih =>
      have hcount : (0 : ℝ) < l.count x := by
        exact_mod_cast List.count_pos_iff.mpr (hxs x List.mem_cons_self)
      have hrest := ih fun y hy => hxs y (List.mem_cons_of_mem _ hy)
      simp only [List.map_cons, List.sum_cons, Nat.cast_add]
      rw [mul_add, hrest, Real.logb_div hlen.ne' hcount.ne']
      ring
  have hall := hparts l.dedup fun x hx => List.mem_dedup.mp hx
  rw [hcounts, div_self hlen.ne', one_mul] at hall
  exact hall

/-- **What the integers compute** is the entropy at their scale, to within two units. -/
theorem shannon_near {l : List α} (hl : l ≠ [])
    (htable : ∀ n, 0 < n → n ≤ l.length → FloorLog scale table n) :
    scale * shannon l < (table l.length : ℝ) -
        ((l.dedup.map fun x => l.count x * table (l.count x)).sum / l.length : ℕ) + 1 ∧
      (table l.length : ℝ) -
        ((l.dedup.map fun x => l.count x * table (l.count x)).sum / l.length : ℕ) <
          scale * shannon l + 2 := by
  have hpos := List.length_pos_of_ne_nil hl
  have hlen : (0 : ℝ) < l.length := by exact_mod_cast hpos
  obtain ⟨hle, hge⟩ := sum_floorLog (f := fun x => l.count x) l.dedup fun x hx =>
    htable _ (List.count_pos_iff.mpr (List.mem_dedup.mp hx)) List.count_le_length
  rw [List.sum_map_count_dedup_eq_length] at hge
  rw [shannon_eq hl]
  have hwhole := htable _ hpos (le_refl _)
  generalize (l.dedup.map fun x => l.count x * table (l.count x)).sum = total at *
  generalize (l.dedup.map fun x => (l.count x : ℝ) * (scale * Real.logb 2 (l.count x))).sum =
    exact at *
  -- the integer quotient is less than one below the quotient
  have hquotient : ((total / l.length : ℕ) : ℝ) ≤ total / l.length := Nat.cast_div_le
  have hremainder : (total : ℝ) / l.length < (total / l.length : ℕ) + 1 := by
    rw [div_lt_iff₀ hlen]
    have hnat := Nat.lt_mul_div_succ total hpos
    rw [Nat.mul_comm] at hnat
    exact_mod_cast hnat
  have hlow : (total : ℝ) / l.length ≤ exact / l.length := div_le_div_of_nonneg_right hle hlen.le
  have hhigh : exact / l.length ≤ (total : ℝ) / l.length + 1 := by
    rw [← div_self hlen.ne', ← add_div]
    exact div_le_div_of_nonneg_right hge hlen.le
  have hwholeLe := hwhole.le
  have hwholeLt := hwhole.lt
  constructor <;> linarith

end

end Nyet.Lib
