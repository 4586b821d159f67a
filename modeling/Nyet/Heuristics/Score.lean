import Nyet.Heuristics.Signals
import Nyet.Proxy.LogLine

/-!
# The score (`compute_heuristic_score`)

The weights are multiples of a twentieth that are added up in `float`. What the sum stands for
is an integer number of hundredths, its points. It reaches the threshold of 0.5 when the points
reach 50, with one exception (`Signals.crosses_iff`): all four label checks and one word, which
make 50 points and a sum that is one unit in the last place below the threshold.
-/

/-! ## What choices can lead to

An accumulator goes through a list of items and takes each of them or leaves it. There are as
many ways to do so as there are sublists, but often few values that they lead to. -/

namespace Nyet.Lib

variable {σ τ ι κ : Type*}

/-- Go through the items, and take those that are marked. -/
def choose (step : σ → ι → σ) (x : σ) (choices : List (Bool × ι)) : σ :=
  choices.foldl (fun x c => if c.1 then step x c.2 else x) x

/-- The values that some choice of the items leads to, from one of those given. -/
def outcomes [DecidableEq σ] (step : σ → ι → σ) : List ι → List σ → List σ
  | [], xs => xs
  | i :: is, xs => outcomes step is (xs ++ xs.map fun x => step x i).dedup

theorem choose_cons (step : σ → ι → σ) (x : σ) (c : Bool × ι) (choices : List (Bool × ι)) :
    choose step x (c :: choices) = choose step (if c.1 then step x c.2 else x) choices := rfl

/-- **Every choice is accounted for.** -/
theorem choose_mem_outcomes [DecidableEq σ] (step : σ → ι → σ) (choices : List (Bool × ι)) {x : σ}
    {xs : List σ} (hx : x ∈ xs) :
    choose step x choices ∈ outcomes step (choices.map Prod.snd) xs := by
  induction choices generalizing x xs with
  | nil => exact hx
  | cons c choices ih =>
    obtain ⟨taken, i⟩ := c
    refine ih (List.mem_dedup.mpr (List.mem_append.mpr ?_))
    cases taken with
    | false => exact Or.inl hx
    | true => exact Or.inr (List.mem_map_of_mem hx)

/-- A part of the accumulator that is computed from the same part. -/
theorem map_choose (step : σ → ι → σ) (part : τ → κ → τ) (h : σ → τ) (g : ι → κ)
    (hstep : ∀ x i, h (step x i) = part (h x) (g i)) (choices : List (Bool × ι)) (x : σ) :
    h (choose step x choices) =
      choose part (h x) (choices.map fun c => (c.1, g c.2)) := by
  induction choices generalizing x with
  | nil => rfl
  | cons c choices ih =>
    obtain ⟨taken, i⟩ := c
    rw [choose_cons, ih]
    cases taken with
    | false => rfl
    | true =>
      show choose part (h (step x i)) _ = choose part (part (h x) (g i)) _
      rw [hstep]

/-- Numbers that are added up. -/
theorem choose_add (choices : List (Bool × Nat)) (n : Nat) :
    choose (· + ·) n choices = n + (choices.map fun c => c.2 * c.1.toNat).sum := by
  induction choices generalizing n with
  | nil => rfl
  | cons c choices ih =>
    obtain ⟨taken, m⟩ := c
    rw [choose_cons, ih, List.map_cons, List.sum_cons, ← Nat.add_assoc]
    cases taken with
    | false => rw [if_neg Bool.false_ne_true, Bool.toNat_false, Nat.mul_zero, Nat.add_zero]
    | true => rw [if_pos rfl, Bool.toNat_true, Nat.mul_one]

end Nyet.Lib

namespace Nyet

/-- The variables of the loop over the labels. -/
@[ext] structure LabelSignals where
  entropy : Bool
  consonant : Bool
  vowel : Bool
  digit : Bool
  words : Nat

/-- One round of it; `none` is an access of `is_suspicious_label` outside of its arrays. -/
def LabelSignals.read (s : LabelSignals) (label : CStr) : Option LabelSignals := do
  let suspicious ← isSuspiciousLabel label
  some { entropy := if suspicious then true else s.entropy
         consonant := if isConsonantSuspicious label then true else s.consonant
         vowel := if isVowelSuspicious label then true else s.vowel
         digit := if isDigitSuspicious label then true else s.digit
         words := s.words + countLegitSubsequences label }

/-- All that goes into the score. -/
@[ext] structure Signals extends LabelSignals where
  tooManyLabels : Bool
  labelVariance : Bool
  symbolRatio : Bool
  hyphenFlatten : Bool
  excessiveHyphens : Bool

/-- The checks of the whole domain, after those of its labels. -/
def LabelSignals.withDomain (s : LabelSignals) (domain : CStr) (labels nonTld : List CStr) :
    Signals :=
  { s with
    tooManyLabels := isTooManyLabels labels.length
    labelVariance := isLabelLengthVarianceSuspicious nonTld
    symbolRatio := isSymbolRatioSuspicious domain
    hyphenFlatten := isHyphenFlattened (labels.headD []) labels.length
    excessiveHyphens := isExcessiveHyphens domain }

/-- What fires for a domain with these labels. -/
def firedSignals (domain : CStr) (labels : List CStr) : Option Signals := do
  let nonTldCount := if 1 < labels.length then labels.length - 1 else labels.length
  let nonTld := labels.take nonTldCount
  let s ← nonTld.foldlM LabelSignals.read ⟨false, false, false, false, 0⟩
  some (s.withDomain domain labels nonTld)

/-- `WEIGHT_ENTROPY` -/
def weightEntropy : Float32 := 0.20

/-- `WEIGHT_CONSONANT` -/
def weightConsonant : Float32 := 0.15

/-- `WEIGHT_VOWEL` -/
def weightVowel : Float32 := 0.15

/-- `WEIGHT_DIGIT` -/
def weightDigit : Float32 := 0.15

/-- `WEIGHT_WORD_STEP` -/
def weightWordStep : Float32 := 0.15

/-- `WORD_MATCH_CAP` -/
def wordMatchCap : Nat := 2

/-- `WEIGHT_TOO_MANY_LABELS` -/
def weightTooManyLabels : Float32 := 0.20

/-- `WEIGHT_LABEL_VARIANCE` -/
def weightLabelVariance : Float32 := 0.20

/-- `WEIGHT_SYMBOL_RATIO` -/
def weightSymbolRatio : Float32 := 0.20

/-- `WEIGHT_HYPHEN_FLATTEN` -/
def weightHyphenFlatten : Float32 := 0.20

/-- `WEIGHT_EXCESSIVE_HYPHENS` -/
def weightExcessiveHyphens : Float32 := 0.10

/-- The weights in the order in which they are added. -/
def Signals.weighted (s : Signals) : List (Bool × Float32) :=
  [(s.entropy, weightEntropy), (s.consonant, weightConsonant), (s.vowel, weightVowel),
    (s.digit, weightDigit), (s.tooManyLabels, weightTooManyLabels),
    (s.labelVariance, weightLabelVariance), (s.symbolRatio, weightSymbolRatio),
    (s.hyphenFlatten, weightHyphenFlatten), (s.excessiveHyphens, weightExcessiveHyphens)]

/-- `capped` -/
def capped (words : Nat) : Nat := if wordMatchCap < words then wordMatchCap else words

/-- What known words take away. -/
def subtractWords (words : Nat) (score : Float32) : Float32 :=
  if 0 < words then score - weightWordStep * (capped words).toUInt64.toFloat32 else score

/-- `if (score < 0.0f) score = 0.0f; if (score > 1.0f) score = 1.0f;` -/
def clampScore (score : Float32) : Float32 :=
  let score := if score < 0.0 then 0.0 else score
  if 1.0 < score then 1.0 else score

/-- `score` -/
def Signals.score (s : Signals) : Float32 :=
  let score := s.weighted.foldl (fun score w => if w.1 then score + w.2 else score) 0.0
  clampScore (subtractWords s.words score)

/-- The hundredths nearest to a number that is not negative, ties to even. -/
def hundredths (f : Float32) : Nat :=
  match f.toModel.unpack with
  | .finite _ mantissa exponent _ =>
    let numerator := 100 * mantissa * 2 ^ exponent.toNat
    let denominator := 2 ^ (-exponent).toNat
    let quotient := numerator / denominator
    let remainder := numerator % denominator
    if 2 * remainder < denominator then quotient
    else if denominator < 2 * remainder then quotient + 1
    else quotient + quotient % 2
  | _ => 0

/-- A number of hundredths with its point. -/
def twoPlaces (n : Nat) : CStr :=
  decimal (n / 100) ++ dot :: (decimal (n % 100 / 10) ++ decimal (n % 10))

/-- `%.2f` of a number that is finite and not negative. -/
def formatScore (f : Float32) : CStr := twoPlaces (hundredths f)

/-- `%d` of a flag. -/
def flagText (fired : Bool) : CStr := if fired then cstr "1" else cstr "0"

/-- `' '` -/
def space : UInt8 := 32

/-- The fields of the reason, with what `%.2f` prints of the score. -/
def Signals.breakdown (s : Signals) (labelCount : Nat) (final : CStr) : List (CStr × CStr) :=
  [(cstr "entropy", flagText s.entropy), (cstr "consonant", flagText s.consonant),
    (cstr "vowel", flagText s.vowel), (cstr "digit", flagText s.digit),
    (cstr "words", decimal s.words), (cstr "labels", decimal labelCount),
    (cstr "toomany", flagText s.tooManyLabels), (cstr "variance", flagText s.labelVariance),
    (cstr "symbols", flagText s.symbolRatio), (cstr "flatten", flagText s.hyphenFlatten),
    (cstr "hyphens", flagText s.excessiveHyphens), (cstr "final", final)]

/-- `"entropy=%d consonant=%d .. final=%.2f"` -/
def Signals.reason (s : Signals) (labelCount : Nat) (final : CStr) : CStr :=
  [space].intercalate ((s.breakdown labelCount final).map fun field => field.1 ++ cstr "=" ++ field.2)

/-- `compute_heuristic_score`: the score and what is in `reason_out`. -/
def computeHeuristicScore (domain : CStr) (reasonOutSize : Nat) : Option (Float32 × CStr) := do
  let labels := splitLabels domain
  if labels.length = 0 then some (0.0, [])
  else
    let s ← firedSignals domain labels
    some (s.score,
      (snprintf reasonOutSize (s.reason labels.length (formatScore s.score))).1)

/-! ## Points -/

/-- The exact weights that fired, in hundredths. -/
def Signals.base (s : Signals) : Nat :=
  20 * s.entropy.toNat + 15 * s.consonant.toNat + 15 * s.vowel.toNat + 15 * s.digit.toNat +
    20 * s.tooManyLabels.toNat + 20 * s.labelVariance.toNat + 20 * s.symbolRatio.toNat +
    20 * s.hyphenFlatten.toNat + 10 * s.excessiveHyphens.toNat

/-- What is left of them, up to 100. -/
def pointsOf (base words : Nat) : Nat := min (base - 15 * capped words) 100

/-- What the score stands for. -/
def Signals.points (s : Signals) : Nat := pointsOf s.base s.words

theorem Signals.points_le (s : Signals) : s.points ≤ 100 := min_le_right _ _

/-- How many of the label checks fired. -/
def Signals.labelChecks (s : Signals) : Nat :=
  s.entropy.toNat + s.consonant.toNat + s.vowel.toNat + s.digit.toNat

/-- How many of the nine signals fired. -/
def Signals.fired (s : Signals) : Nat :=
  s.labelChecks + s.tooManyLabels.toNat + s.labelVariance.toNat + s.symbolRatio.toNat +
    s.hyphenFlatten.toNat + s.excessiveHyphens.toNat

/-- The four label checks and nothing else, with one word. -/
def ShortByRounding (base labelChecks words : Nat) : Prop :=
  base = 65 ∧ labelChecks = 4 ∧ words = 1

instance instDecidableShortByRounding (base labelChecks words : Nat) :
    Decidable (ShortByRounding base labelChecks words) :=
  inferInstanceAs (Decidable (base = 65 ∧ labelChecks = 4 ∧ words = 1))

/-- A score and the points that it stands for. -/
structure Scores (f : Float32) (points : Nat) (short : Prop) : Prop where
  crosses : 0.5 ≤ f ↔ 50 ≤ points ∧ ¬ short
  bits : 0x3F000000 ≤ f.toBits ∧ f.toBits ≤ 0x7F800000 ↔ 0.5 ≤ f
  nonneg : 0 ≤ f
  le_one : f ≤ 1
  printed : hundredths f = points

instance instDecidableScores (f : Float32) (points : Nat) (short : Prop) [Decidable short] :
    Decidable (Scores f points short) :=
  decidable_of_iff
    ((0.5 ≤ f ↔ 50 ≤ points ∧ ¬ short) ∧
      (0x3F000000 ≤ f.toBits ∧ f.toBits ≤ 0x7F800000 ↔ 0.5 ≤ f) ∧ 0 ≤ f ∧ f ≤ 1 ∧
      hundredths f = points)
    ⟨fun h => ⟨h.1, h.2.1, h.2.2.1, h.2.2.2.1, h.2.2.2.2⟩,
      fun h => ⟨h.crosses, h.bits, h.nonneg, h.le_one, h.printed⟩⟩

/-- The score so far, its points and the label checks. -/
abbrev Tally := Float32 × Nat × Nat

def Tally.add (x y : Tally) : Tally := (x.1 + y.1, x.2.1 + y.2.1, x.2.2 + y.2.2)

def Signals.tallied (s : Signals) : List (Bool × Tally) :=
  [(s.entropy, weightEntropy, 20, 1), (s.consonant, weightConsonant, 15, 1),
    (s.vowel, weightVowel, 15, 1), (s.digit, weightDigit, 15, 1),
    (s.tooManyLabels, weightTooManyLabels, 20, 0), (s.labelVariance, weightLabelVariance, 20, 0),
    (s.symbolRatio, weightSymbolRatio, 20, 0), (s.hyphenFlatten, weightHyphenFlatten, 20, 0),
    (s.excessiveHyphens, weightExcessiveHyphens, 10, 0)]

/-- The sums that the weights can add up to. -/
def tallies : List Tally :=
  Lib.outcomes Tally.add
    [(weightEntropy, 20, 1), (weightConsonant, 15, 1), (weightVowel, 15, 1), (weightDigit, 15, 1),
      (weightTooManyLabels, 20, 0), (weightLabelVariance, 20, 0), (weightSymbolRatio, 20, 0),
      (weightHyphenFlatten, 20, 0), (weightExcessiveHyphens, 10, 0)] [(0.0, 0, 0)]

set_option maxRecDepth 10000 in
theorem scores_tallies : ∀ x ∈ tallies, ∀ words < 3,
    Scores (clampScore (subtractWords words x.1)) (pointsOf x.2.1 words)
      (ShortByRounding x.2.1 x.2.2 words) := by
  decide +kernel

theorem capped_lt (words : Nat) : capped words < 3 := by
  rw [capped, wordMatchCap]
  split_ifs <;> omega

theorem capped_capped (words : Nat) : capped (capped words) = capped words := by
  have h := capped_lt words
  rw [capped, wordMatchCap, if_neg (by omega)]

theorem capped_pos (words : Nat) : 0 < capped words ↔ 0 < words := by
  rw [capped, wordMatchCap]
  split_ifs <;> omega

theorem capped_eq_one (words : Nat) : capped words = 1 ↔ words = 1 := by
  rw [capped, wordMatchCap]
  split_ifs <;> omega

theorem subtractWords_capped (words : Nat) (score : Float32) :
    subtractWords (capped words) score = subtractWords words score := by
  rw [subtractWords, subtractWords, capped_capped]
  exact if_congr (capped_pos words) rfl rfl

theorem pointsOf_capped (base words : Nat) : pointsOf base (capped words) = pointsOf base words := by
  rw [pointsOf, pointsOf, capped_capped]

theorem shortByRounding_capped (base labelChecks words : Nat) :
    ShortByRounding base labelChecks (capped words) ↔ ShortByRounding base labelChecks words := by
  rw [ShortByRounding, ShortByRounding, capped_eq_one]

/-- The tally of the signals of a domain. -/
theorem Signals.tally (s : Signals) : Lib.choose Tally.add (0.0, 0, 0) s.tallied =
    (s.weighted.foldl (fun score w => if w.1 then score + w.2 else score) 0.0, s.base,
      s.labelChecks) := by
  have hscore := Lib.map_choose Tally.add (· + ·) (fun x => x.1) (fun x => x.1) (fun _ _ => rfl)
    s.tallied (0.0, 0, 0)
  have hbase := Lib.map_choose Tally.add (· + ·) (fun x => x.2.1) (fun x => x.2.1) (fun _ _ => rfl)
    s.tallied (0.0, 0, 0)
  have hchecks := Lib.map_choose Tally.add (· + ·) (fun x => x.2.2) (fun x => x.2.2) (fun _ _ => rfl)
    s.tallied (0.0, 0, 0)
  rw [Lib.choose_add] at hbase hchecks
  refine Prod.ext hscore (Prod.ext (hbase.trans ?_) (hchecks.trans ?_))
  · simp only [Signals.tallied, Signals.base, List.map_cons, List.map_nil, List.sum_cons,
      List.sum_nil]
    omega
  · simp only [Signals.tallied, Signals.labelChecks, List.map_cons, List.map_nil, List.sum_cons,
      List.sum_nil]
    omega

/-- **What the score says**, whatever fired. -/
theorem Signals.scores (s : Signals) :
    Scores s.score s.points (ShortByRounding s.base s.labelChecks s.words) := by
  have hmem := Lib.choose_mem_outcomes Tally.add s.tallied (List.mem_singleton_self (0.0, 0, 0))
  rw [s.tally] at hmem
  have h := scores_tallies _ hmem (capped s.words) (capped_lt s.words)
  rw [subtractWords_capped, pointsOf_capped, propext (shortByRounding_capped _ _ _)] at h
  exact h

/-- A weight is 20 at most. -/
theorem Signals.base_le (s : Signals) : s.base ≤ 20 * s.fired := by
  rw [Signals.base, Signals.fired, Signals.labelChecks]
  omega

/-- **Two signals are not enough.** -/
theorem Signals.three_fired (s : Signals) (h : 0.5 ≤ s.score) : 3 ≤ s.fired := by
  have hpoints := (s.scores.crosses.mp h).1
  have hbase := s.base_le
  rw [Signals.points, pointsOf] at hpoints
  omega

end Nyet
