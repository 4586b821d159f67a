import Nyet.Blocklist.Tsv
import Nyet.Heuristics.Entropy
import Nyet.Heuristics.LegitWords
import Nyet.Lib.Binary32
import Nyet.Lib.Streak

/-!
# The signals

What `compute_heuristic_score` looks for in a label, and in the shape of the whole domain. The
ratios are quotients in `float` that are compared with rounded constants. For counts as small as
these that makes no difference: each check fires exactly when the fractions themselves compare
(`isVowelSuspicious_iff`, `isDigitSuspicious_iff`, `isSymbolRatioSuspicious_iff`).
-/

namespace Nyet

/-- `'-'` -/
def hyphen : UInt8 := 45

/-- The copy that every label check makes: up to 255 characters, or to a dot. -/
def firstLabel (domain : CStr) : CStr := (domain.takeWhile (· ≠ dot)).take 255

/-- `c == 'a' || c == 'e' || c == 'i' || c == 'o' || c == 'u'` -/
def isVowelChar (c : UInt8) : Bool := c = 97 || c = 101 || c = 105 || c = 111 || c = 117

/-- `is_consonant_char` -/
def isConsonantChar (c : UInt8) : Bool :=
  let c := lowerByte c
  (97 ≤ c && c ≤ 122) && !isVowelChar c

/-- `is_consonant_suspicious` -/
def isConsonantSuspicious (domain : CStr) : Bool :=
  4 < (Lib.streak isConsonantChar (firstLabel domain)).longest

/-- `(float)count / len` -/
def floatRatio (count len : Nat) : Float32 := count.toUInt64.toFloat32 / len.toUInt64.toFloat32

/-- `vowels` -/
def countVowels (label : CStr) : Nat := label.countP fun c => isVowelChar (lowerByte c)

/-- `is_vowel_suspicious` -/
def isVowelSuspicious (domain : CStr) : Bool :=
  let label := firstLabel domain
  let len := label.length
  if len = 0 then false
  else
    let ratio := floatRatio (countVowels label) len
    if 10 < len ∧ ratio < 0.15 then true
    else if 5 ≤ len ∧ 0.60 < ratio then true
    else false

/-- `digits` -/
def countDigits (label : CStr) : Nat := label.countP isDigit

/-- `is_digit_suspicious` -/
def isDigitSuspicious (domain : CStr) : Bool :=
  let label := firstLabel domain
  let len := label.length
  if len < 8 then false
  else 0.4 < floatRatio (countDigits label) len

/-- `MAX_NORMAL_LABELS` -/
def maxNormalLabels : Nat := 6

/-- `is_too_many_labels` -/
def isTooManyLabels (labelCount : Nat) : Bool := maxNormalLabels < labelCount

/-- `LABEL_LENGTH_SPREAD_THRESHOLD` -/
def labelLengthSpreadThreshold : Nat := 20

/-- `min_len` and `max_len` -/
structure LengthRange where
  minLen : Nat
  maxLen : Nat

def LengthRange.read (s : LengthRange) (label : CStr) : LengthRange :=
  let len := label.length
  ⟨if len < s.minLen then len else s.minLen, if s.maxLen < len then len else s.maxLen⟩

/-- `is_label_length_variance_suspicious`, on the first `non_tld_count` labels. -/
def isLabelLengthVarianceSuspicious (labels : List CStr) : Bool :=
  if labels.length < 2 then false
  else
    let s := labels.foldl LengthRange.read ⟨256, 0⟩
    (labelLengthSpreadThreshold : Int) < (s.maxLen : Int) - s.minLen

/-- Letters of either case and digits. -/
def isAsciiAlnum (c : UInt8) : Bool :=
  (97 ≤ c && c ≤ 122) || (65 ≤ c && c ≤ 90) || (48 ≤ c && c ≤ 57)

/-- `symbols` -/
def countSymbols (domain : CStr) : Nat := domain.countP fun c => !isAsciiAlnum c

/-- `SYMBOL_RATIO_MIN_LEN` -/
def symbolRatioMinLen : Nat := 12

/-- `is_symbol_ratio_suspicious` -/
def isSymbolRatioSuspicious (domain : CStr) : Bool :=
  let total := domain.length
  if total < symbolRatioMinLen then false
  else 0.30 < floatRatio (countSymbols domain) total

/-- `HYPHEN_FLATTEN_MIN_HYPHENS` -/
def hyphenFlattenMinHyphens : Nat := 3

/-- `is_hyphen_flattened`, with `labels[0]`. -/
def isHyphenFlattened (first : CStr) (labelCount : Nat) : Bool :=
  if 2 < labelCount then false else hyphenFlattenMinHyphens ≤ first.count hyphen

/-- `EXCESSIVE_HYPHENS_THRESHOLD` -/
def excessiveHyphensThreshold : Nat := 5

/-- `is_excessive_hyphens` -/
def isExcessiveHyphens (domain : CStr) : Bool := excessiveHyphensThreshold ≤ domain.count hyphen

/-! ## Labels -/

/-- The copy is at most 255 characters, so no count below reaches the bound of the float arithmetic.
-/
theorem length_firstLabel (domain : CStr) : (firstLabel domain).length ≤ 255 := by
  rw [firstLabel, List.length_take]
  exact min_le_left _ _

/-- A label of a parsed domain is copied whole. -/
theorem firstLabel_eq {label : CStr} (hshort : label.length ≤ 255) (hdots : dot ∉ label) :
    firstLabel label = label := by
  have hwhole : label.takeWhile (· ≠ dot) = label :=
    List.takeWhile_eq_self_iff.mpr fun c hc => decide_eq_true (ne_of_mem_of_not_mem hc hdots)
  rw [firstLabel, hwhole, List.take_of_length_le hshort]

/-- Five consonants in a row. -/
theorem isConsonantSuspicious_iff {domain : CStr} : isConsonantSuspicious domain = true ↔
    ∃ run, Lib.IsStreak isConsonantChar 5 run ∧ run <:+: firstLabel domain := by
  rw [isConsonantSuspicious, decide_eq_true_iff, ← Lib.le_longest_iff]
  rfl

/-! ## Ratios -/

section

variable {c : Float32} {count len a b : Nat}

/-- A ratio of at least one character is a fraction, rounded. -/
theorem denotes_floatRatio (hcount : 0 < count) (hlen : 0 < len) (ha : 0 < a) (hb : 0 < b)
    (hsmall : count * b + a * len < 2 ^ 24) :
    Lib.Denotes (floatRatio count len) (Lib.roundTo 24 (count / len)) := by
  have hcounts : count ≤ count * b := Nat.le_mul_of_pos_right count hb
  have hshort : len ≤ a * len := Nat.le_mul_of_pos_left len ha
  exact Lib.denotes_quotient hcount hlen (by omega) (by omega)

/-- **Below a threshold**: the rounded ratio is below the rounded constant exactly if the fraction
is below the fraction. Two different fractions of small numbers lie too far apart to be rounded to
one float. -/
theorem floatRatio_lt_iff (hc : Lib.Denotes c (Lib.roundTo 24 (a / b))) (hlen : 0 < len)
    (ha : 0 < a) (hb : 0 < b) (hsmall : count * b + a * len < 2 ^ 24) :
    floatRatio count len < c ↔ count * b < a * len := by
  rcases Nat.eq_zero_or_pos count with rfl | hcount
  · -- no characters at all: the ratio is zero, and the threshold is not
    have hshort : len ≤ a * len := Nat.le_mul_of_pos_left len ha
    rw [floatRatio, Lib.zero_div_count hlen (by omega), Nat.zero_mul]
    exact iff_of_true hc.zero_lt (Nat.mul_pos ha hlen)
  · have hratio := denotes_floatRatio hcount hlen ha hb hsmall
    exact hratio.fraction_lt_iff hc hcount hlen ha hb hsmall

/-- **Above a threshold**, with the sides exchanged. -/
theorem lt_floatRatio_iff (hc : Lib.Denotes c (Lib.roundTo 24 (a / b))) (hlen : 0 < len)
    (ha : 0 < a) (hb : 0 < b) (hsmall : count * b + a * len < 2 ^ 24) :
    c < floatRatio count len ↔ a * len < count * b := by
  rcases Nat.eq_zero_or_pos count with rfl | hcount
  · -- no characters at all: a ratio of zero is above nothing
    have hshort : len ≤ a * len := Nat.le_mul_of_pos_left len ha
    rw [floatRatio, Lib.zero_div_count hlen (by omega), Nat.zero_mul]
    exact iff_of_false hc.not_lt_zero (Nat.not_lt_zero _)
  · have hratio := denotes_floatRatio hcount hlen ha hb hsmall
    exact hc.fraction_lt_iff hratio ha hb hcount hlen (by rwa [Nat.add_comm])

end

/-- Under 15% of a label of more than ten characters, or over 60% of one of five or more. -/
theorem isVowelSuspicious_iff {domain : CStr} : isVowelSuspicious domain = true ↔
    10 < (firstLabel domain).length ∧
        20 * countVowels (firstLabel domain) < 3 * (firstLabel domain).length ∨
      5 ≤ (firstLabel domain).length ∧
        3 * (firstLabel domain).length < 5 * countVowels (firstLabel domain) := by
  have hlen := length_firstLabel domain
  have hcount : countVowels (firstLabel domain) ≤ (firstLabel domain).length := List.countP_le_length
  rw [isVowelSuspicious]
  generalize (firstLabel domain).length = len at *
  generalize countVowels (firstLabel domain) = count at *
  dsimp only
  rcases Nat.eq_zero_or_pos len with rfl | hpos
  · rw [if_pos rfl]
    exact iff_of_false Bool.false_ne_true (by omega)
  -- the two comparisons of the source, each with its own constant
  have hlow : floatRatio count len < 0.15 ↔ count * 100 < 15 * len :=
    floatRatio_lt_iff (Lib.denotes_hundredths (by decide) (by decide)) hpos (by decide) (by decide)
      (by omega)
  have hhigh : 0.60 < floatRatio count len ↔ 60 * len < count * 100 :=
    lt_floatRatio_iff (Lib.denotes_hundredths (by decide) (by decide)) hpos (by decide) (by decide)
      (by omega)
  rw [if_neg hpos.ne']
  split_ifs with hfew hmany
  · rw [hlow] at hfew
    exact iff_of_true rfl (by omega)
  · rw [hhigh] at hmany
    exact iff_of_true rfl (by omega)
  · rw [hlow] at hfew
    rw [hhigh] at hmany
    exact iff_of_false id (by omega)

/-- Over 40% of a label of at least eight characters. -/
theorem isDigitSuspicious_iff {domain : CStr} : isDigitSuspicious domain = true ↔
    8 ≤ (firstLabel domain).length ∧
      2 * (firstLabel domain).length < 5 * countDigits (firstLabel domain) := by
  have hlen := length_firstLabel domain
  have hcount : countDigits (firstLabel domain) ≤ (firstLabel domain).length := List.countP_le_length
  rw [isDigitSuspicious]
  generalize (firstLabel domain).length = len at *
  generalize countDigits (firstLabel domain) = count at *
  split_ifs with hshort
  · exact iff_of_false id (by omega)
  · have hhigh : 0.4 < floatRatio count len ↔ 4 * len < count * 10 :=
      lt_floatRatio_iff (Lib.denotes_tenths (by decide) (by decide)) (by omega) (by decide)
        (by decide) (by omega)
    rw [decide_eq_true_iff, hhigh]
    omega

/-- Over 30% of a domain of at least twelve characters, its dots counted. -/
theorem isSymbolRatioSuspicious_iff {domain : CStr} (hlen : domain.length ≤ 255) :
    isSymbolRatioSuspicious domain = true ↔
      12 ≤ domain.length ∧ 3 * domain.length < 10 * countSymbols domain := by
  have hcount : countSymbols domain ≤ domain.length := List.countP_le_length
  rw [isSymbolRatioSuspicious, symbolRatioMinLen]
  generalize domain.length = len at *
  generalize countSymbols domain = count at *
  split_ifs with hshort
  · exact iff_of_false id (by omega)
  · have hhigh : 0.30 < floatRatio count len ↔ 30 * len < count * 100 :=
      lt_floatRatio_iff (Lib.denotes_hundredths (by decide) (by decide)) (by omega) (by decide)
        (by decide) (by omega)
    rw [decide_eq_true_iff, hhigh]
    omega

/-! ## Lengths -/

/-- The comparison with `min_len` keeps the minimum. -/
theorem LengthRange.read_minLen (s : LengthRange) (label : CStr) :
    (s.read label).minLen = min label.length s.minLen := by
  rw [LengthRange.read]
  dsimp only
  split_ifs <;> omega

/-- The comparison with `max_len` keeps the maximum. -/
theorem LengthRange.read_maxLen (s : LengthRange) (label : CStr) :
    (s.read label).maxLen = max label.length s.maxLen := by
  rw [LengthRange.read]
  dsimp only
  split_ifs <;> omega

/-- The shortest and the longest label, with what the loop starts from. -/
theorem foldl_lengthRange (labels : List CStr) (s : LengthRange) :
    (∀ n, (labels.foldl LengthRange.read s).minLen ≤ n ↔
        s.minLen ≤ n ∨ ∃ label ∈ labels, label.length ≤ n) ∧
      ∀ n, n ≤ (labels.foldl LengthRange.read s).maxLen ↔
        n ≤ s.maxLen ∨ ∃ label ∈ labels, n ≤ label.length := by
  induction labels generalizing s with
  | nil => simp
  | cons label labels ih =>
    -- the first label is part of what the rest starts from
    obtain ⟨hmin, hmax⟩ := ih (s.read label)
    refine ⟨fun n => ?_, fun n => ?_⟩
    · rw [List.foldl_cons, hmin n, LengthRange.read_minLen, min_le_iff, List.exists_mem_cons_iff]
      tauto
    · rw [List.foldl_cons, hmax n, LengthRange.read_maxLen, le_max_iff, List.exists_mem_cons_iff]
      tauto

/-- One label is longer than another by more than the threshold. -/
theorem isLabelLengthVarianceSuspicious_iff {labels : List CStr}
    (hshort : ∀ label ∈ labels, label.length ≤ 255) :
    isLabelLengthVarianceSuspicious labels = true ↔
      ∃ long ∈ labels, ∃ short ∈ labels, short.length + 20 < long.length := by
  obtain ⟨hmin, hmax⟩ := foldl_lengthRange labels ⟨256, 0⟩
  rw [isLabelLengthVarianceSuspicious, labelLengthSpreadThreshold]
  generalize labels.foldl LengthRange.read ⟨256, 0⟩ = s at *
  split_ifs with hfew
  · -- a single label cannot be longer than itself
    refine iff_of_false id ?_
    rintro ⟨long, hlong, short, hshort, hspread⟩
    obtain ⟨label, rfl⟩ : ∃ label, labels = [label] := by
      refine List.length_eq_one_iff.mp ?_
      have hsome := List.length_pos_of_mem hlong
      omega
    rw [List.mem_singleton.mp hlong, List.mem_singleton.mp hshort] at hspread
    omega
  · rw [decide_eq_true_iff]
    constructor
    · intro hspread
      obtain hzero | ⟨long, hlong, hlonger⟩ := (hmax s.maxLen).mp (le_refl _)
      · rw [Nat.le_zero.mp hzero] at hspread
        omega
      -- 256, which the minimum starts from, is above every label
      obtain hnone | ⟨short, hshort', hshorter⟩ := (hmin s.minLen).mp (le_refl _)
      · have hbound : 256 ≤ s.minLen := hnone
        have hlong' := hshort long hlong
        omega
      exact ⟨long, hlong, short, hshort', by omega⟩
    · rintro ⟨long, hlong, short, hshort', hspread⟩
      have hlonger := (hmax long.length).mpr (Or.inr ⟨long, hlong, le_refl _⟩)
      have hshorter := (hmin short.length).mpr (Or.inr ⟨short, hshort', le_refl _⟩)
      omega

end Nyet
