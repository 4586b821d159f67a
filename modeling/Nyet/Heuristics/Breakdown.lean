import Nyet.Heuristics.Score

/-!
# The breakdown of a score

For a domain that `parse_query` has written, the engine stays within its arrays, each of its
signals fires exactly on what it is for (`compute_heuristic_score_exact`), and the reason is the
whole breakdown: it is not cut off, it shows the points, and the signals can be read back from it
(`reason_complete`, `reason_injective`).
-/

namespace Nyet

/-! ## The loop over the labels -/

/-- No access outside of the arrays, whatever the length. -/
theorem isSuspiciousLabel_total {label : CStr} (hlabel : ∀ c ∈ label, isNameByte c = true) :
    ∃ verdict, isSuspiciousLabel label = some verdict := by
  obtain ⟨s, hscan, hcounts⟩ := scanLabel_counts hlabel
  have hlen := hcounts.len
  rw [isSuspiciousLabel, hscan, Option.bind_eq_bind, Option.bind_some]
  split_ifs with hshort hlong
  · exact ⟨false, rfl⟩
  · exact ⟨true, rfl⟩
  · obtain ⟨log, mean, hoperands, -⟩ := hcounts.operands (by omega) (by omega)
    rw [hoperands]
    exact ⟨_, rfl⟩

/-- What the loop has found in the labels. -/
structure LabelSignals.Found (labels : List CStr) (start s : LabelSignals) : Prop where
  entropy : s.entropy = true ↔
    start.entropy = true ∨ ∃ label ∈ labels, isSuspiciousLabel label = some true
  consonant : s.consonant = true ↔
    start.consonant = true ∨ ∃ label ∈ labels, isConsonantSuspicious label = true
  vowel : s.vowel = true ↔ start.vowel = true ∨ ∃ label ∈ labels, isVowelSuspicious label = true
  digit : s.digit = true ↔ start.digit = true ∨ ∃ label ∈ labels, isDigitSuspicious label = true
  words : s.words = start.words + (labels.map countLegitSubsequences).sum

/-- One round sets what the label trips and clears nothing. -/
theorem ite_true_iff {fires before : Bool} {P Q : Prop} (hfires : fires = true ↔ P)
    (hrest : Q ↔ (if fires then true else before) = true) : Q ↔ before = true ∨ P := by
  rw [hrest]
  cases fires with
  | true => exact iff_of_true rfl (Or.inr (hfires.mp rfl))
  | false =>
    rw [if_neg Bool.false_ne_true]
    exact ⟨Or.inl, fun h => h.resolve_right fun hp => Bool.false_ne_true (hfires.mpr hp)⟩

theorem foldlM_labelSignals {labels : List CStr}
    (htotal : ∀ label ∈ labels, ∃ verdict, isSuspiciousLabel label = some verdict)
    (start : LabelSignals) :
    ∃ s, labels.foldlM LabelSignals.read start = some s ∧ LabelSignals.Found labels start s := by
  induction labels generalizing start with
  | nil =>
    exact ⟨start, rfl, by simp, by simp, by simp, by simp, rfl⟩
  | cons label labels ih =>
    obtain ⟨verdict, hverdict⟩ := htotal label List.mem_cons_self
    -- one round of the loop, with the entropy verdict that it gets
    have hread : start.read label = some
        { entropy := if verdict then true else start.entropy
          consonant := if isConsonantSuspicious label then true else start.consonant
          vowel := if isVowelSuspicious label then true else start.vowel
          digit := if isDigitSuspicious label then true else start.digit
          words := start.words + countLegitSubsequences label } := by
      rw [LabelSignals.read, hverdict]
      rfl
    obtain ⟨s, hfold, hfound⟩ := ih (fun l hl => htotal l (List.mem_cons_of_mem _ hl)) _
    -- a flag once set stays set, so what is found is in the first label or among the rest
    refine ⟨s, ?_, ?_, ?_, ?_, ?_, ?_⟩
    · rw [List.foldlM_cons, hread]
      exact hfold
    · have hfires : verdict = true ↔ isSuspiciousLabel label = some true := by
        rw [hverdict, Option.some_inj]
      rw [hfound.entropy, List.exists_mem_cons_iff, ← or_assoc, ← ite_true_iff hfires Iff.rfl]
    · rw [hfound.consonant, List.exists_mem_cons_iff, ← or_assoc, ← ite_true_iff Iff.rfl Iff.rfl]
    · rw [hfound.vowel, List.exists_mem_cons_iff, ← or_assoc, ← ite_true_iff Iff.rfl Iff.rfl]
    · rw [hfound.digit, List.exists_mem_cons_iff, ← or_assoc, ← ite_true_iff Iff.rfl Iff.rfl]
    · rw [hfound.words, List.map_cons, List.sum_cons]
      exact Nat.add_assoc ..

/-! ## What fires -/

theorem length_le_of_mem_splitOn {a : UInt8} {s piece : CStr} (h : piece ∈ s.splitOn a) :
    piece.length ≤ s.length := by
  have hparts : ∀ parts : List CStr, piece ∈ parts →
      piece.length ≤ ([a].intercalate parts).length := by
    intro parts hmem
    induction parts with
    | nil => cases hmem
    | cons part parts ih =>
      cases parts with
      | nil => rw [List.mem_singleton.mp hmem, List.intercalate_singleton]
      | cons part' parts =>
        rw [List.intercalate_cons_cons, List.length_append, List.length_append]
        rcases List.mem_cons.mp hmem with rfl | hmem
        · omega
        · have hrest := ih hmem
          omega
  have hjoin := hparts _ h
  rwa [List.intercalate_splitOn] at hjoin

/-- A label in the buffer: short, without dots, and in lower case. -/
theorem mem_splitLabels {domain label : CStr} (h : label ∈ splitLabels domain) :
    label.length ≤ 255 ∧ dot ∉ label ∧ label.map lowerByte = label := by
  have hpiece := List.mem_of_mem_take h
  refine ⟨?_, not_mem_of_mem_splitOn hpiece, ?_⟩
  · refine (length_le_of_mem_splitOn hpiece).trans ?_
    rw [List.length_map, List.length_take]
    exact min_le_left _ _
  · have hidem : ∀ c, lowerByte (lowerByte c) = lowerByte c := by
      intro c
      simp only [lowerByte]
      grind
    refine List.map_congr_left (fun c hc => ?_) |>.trans (List.map_id label)
    obtain ⟨b, -, rfl⟩ := List.mem_map.mp (mem_of_mem_splitOn hpiece hc)
    exact hidem b

theorem firstLabel_of_mem {domain label : CStr} (h : label ∈ splitLabels domain) :
    firstLabel label = label :=
  firstLabel_eq (mem_splitLabels h).1 (mem_splitLabels h).2.1

/-- The words the trie finds. -/
def foundWords : List CStr :=
  [cstr "api", cstr "auth", cstr "cloud", cstr "content", cstr "google", cstr "sam", cstr "sraal",
    cstr "user"]

theorem countLegitSubsequences_eq {domain label : CStr} (h : label ∈ splitLabels domain) :
    countLegitSubsequences label = Lib.occurrences foundWords label := by
  obtain ⟨hshort, hdots, hlower⟩ := mem_splitLabels h
  rw [countLegitSubsequences_scan,
    Lib.Trie.scan_eq_occurrences fwWords_spelled (length_lowerLabel label), wordsFrom_fwTrie,
    lowerLabel_eq hshort hdots, hlower]
  rfl

/-- What each signal stands for. -/
structure Signals.Exact (domain : CStr) (s : Signals) : Prop where
  entropy : s.entropy = true ↔ ∃ label ∈ scoredLabels domain, isSuspiciousLabel label = some true
  consonant : s.consonant = true ↔
    ∃ label ∈ scoredLabels domain, ∃ run, Lib.IsStreak isConsonantChar 5 run ∧ run <:+: label
  vowel : s.vowel = true ↔ ∃ label ∈ scoredLabels domain,
    10 < label.length ∧ 20 * countVowels label < 3 * label.length ∨
      5 ≤ label.length ∧ 3 * label.length < 5 * countVowels label
  digit : s.digit = true ↔ ∃ label ∈ scoredLabels domain,
    8 ≤ label.length ∧ 2 * label.length < 5 * countDigits label
  words : s.words = ((scoredLabels domain).map (Lib.occurrences foundWords)).sum
  tooManyLabels : s.tooManyLabels = true ↔ 6 < (splitLabels domain).length
  labelVariance : s.labelVariance = true ↔ ∃ long ∈ scoredLabels domain,
    ∃ short ∈ scoredLabels domain, short.length + 20 < long.length
  symbolRatio : s.symbolRatio = true ↔
    12 ≤ domain.length ∧ 3 * domain.length < 10 * countSymbols domain
  hyphenFlatten : s.hyphenFlatten = true ↔
    (splitLabels domain).length ≤ 2 ∧ 3 ≤ ((splitLabels domain).headD []).count hyphen
  excessiveHyphens : s.excessiveHyphens = true ↔ 5 ≤ domain.count hyphen

/-- They are determined by the domain. -/
theorem Signals.Exact.unique {domain : CStr} {s s' : Signals} (h : s.Exact domain)
    (h' : s'.Exact domain) : s = s' :=
  Signals.ext (Bool.eq_iff_iff.mpr (h.entropy.trans h'.entropy.symm))
    (Bool.eq_iff_iff.mpr (h.consonant.trans h'.consonant.symm))
    (Bool.eq_iff_iff.mpr (h.vowel.trans h'.vowel.symm))
    (Bool.eq_iff_iff.mpr (h.digit.trans h'.digit.symm)) (h.words.trans h'.words.symm)
    (Bool.eq_iff_iff.mpr (h.tooManyLabels.trans h'.tooManyLabels.symm))
    (Bool.eq_iff_iff.mpr (h.labelVariance.trans h'.labelVariance.symm))
    (Bool.eq_iff_iff.mpr (h.symbolRatio.trans h'.symbolRatio.symm))
    (Bool.eq_iff_iff.mpr (h.hyphenFlatten.trans h'.hyphenFlatten.symm))
    (Bool.eq_iff_iff.mpr (h.excessiveHyphens.trans h'.excessiveHyphens.symm))

/-- **What fires**, for a domain of short labels without accesses outside of the arrays. -/
theorem firedSignals_exact {domain : CStr} (hlen : domain.length ≤ 255)
    (htotal : ∀ label ∈ scoredLabels domain, ∃ verdict, isSuspiciousLabel label = some verdict) :
    ∃ s, firedSignals domain (splitLabels domain) = some s ∧ s.Exact domain := by
  have hscored : ∀ label ∈ scoredLabels domain, label ∈ splitLabels domain :=
    fun label hlabel => List.mem_of_mem_take hlabel
  have hfirst : ∀ label ∈ scoredLabels domain, firstLabel label = label :=
    fun label hlabel => firstLabel_of_mem (hscored label hlabel)
  obtain ⟨s, hfold, hfound⟩ := foldlM_labelSignals htotal ⟨false, false, false, false, 0⟩
  refine ⟨s.withDomain domain (splitLabels domain) (scoredLabels domain), ?_, ?_⟩
  · rw [firedSignals]
    show (scoredLabels domain).foldlM _ _ >>= _ = _
    rw [hfold]
    rfl
  -- one signal after another; those of a label were collected by the fold
  constructor
  · exact hfound.entropy.trans (or_iff_right Bool.false_ne_true)
  · refine (hfound.consonant.trans (or_iff_right Bool.false_ne_true)).trans
      (exists_congr fun label => and_congr_right fun hlabel => ?_)
    rw [isConsonantSuspicious_iff, hfirst label hlabel]
  · refine (hfound.vowel.trans (or_iff_right Bool.false_ne_true)).trans
      (exists_congr fun label => and_congr_right fun hlabel => ?_)
    rw [isVowelSuspicious_iff, hfirst label hlabel]
  · refine (hfound.digit.trans (or_iff_right Bool.false_ne_true)).trans
      (exists_congr fun label => and_congr_right fun hlabel => ?_)
    rw [isDigitSuspicious_iff, hfirst label hlabel]
  · refine (hfound.words.trans (Nat.zero_add _)).trans (congrArg List.sum ?_)
    exact List.map_congr_left fun label hlabel => countLegitSubsequences_eq (hscored label hlabel)
  · exact decide_eq_true_iff
  · exact isLabelLengthVarianceSuspicious_iff fun label hlabel =>
      (mem_splitLabels (hscored label hlabel)).1
  · exact isSymbolRatioSuspicious_iff hlen
  · show isHyphenFlattened _ _ = true ↔ _
    rw [isHyphenFlattened, hyphenFlattenMinHyphens]
    split_ifs with hmany
    · exact iff_of_false id (by omega)
    · rw [decide_eq_true_iff]
      exact ⟨fun h => ⟨by omega, h⟩, fun h => h.2⟩
  · exact decide_eq_true_iff

/-- The score of a domain has labels to look at. -/
theorem splitLabels_length_pos (domain : CStr) : 0 < (splitLabels domain).length := by
  have hne := List.splitOn_ne_nil dot ((domain.take 255).map lowerByte)
  rw [splitLabels, List.length_take]
  exact lt_min (by decide) (List.length_pos_of_ne_nil hne)

theorem computeHeuristicScore_eq {domain : CStr} {s : Signals}
    (hfired : firedSignals domain (splitLabels domain) = some s) (reasonOutSize : Nat) :
    computeHeuristicScore domain reasonOutSize = some (s.score,
      (snprintf reasonOutSize (s.reason (splitLabels domain).length (twoPlaces s.points))).1) := by
  rw [computeHeuristicScore, if_neg (splitLabels_length_pos domain).ne', hfired, ← s.scores.printed]
  rfl

/-- **The signals are exact** for every parsed query: the engine stays within its arrays, and
the `float` quotients decide as the fractions themselves do. -/
theorem compute_heuristic_score_exact {packet domain : CStr} {qtype : UInt16}
    (hparsed : parseQuery packet maxDomainLen = some (domain, qtype)) (reasonOutSize : Nat) :
    ∃ (s : Signals) (reason : CStr), s.Exact domain ∧
      computeHeuristicScore domain reasonOutSize = some (s.score, reason) := by
  have hname := parseQuery_wireName hparsed
  obtain ⟨s, hfired, hexact⟩ := firedSignals_exact hname.short fun label hlabel =>
    isSuspiciousLabel_total (scoredLabels_bytes hname hlabel)
  exact ⟨s, _, hexact, computeHeuristicScore_eq hfired reasonOutSize⟩

theorem parseQuery_cdn :
    parseQuery (queryPacket 1 [cstr "x7f3k9q2w8z1", cstr "cdn", cstr "example", cstr "com"] 1)
      maxDomainLen = some (cstr "x7f3k9q2w8z1.cdn.example.com", 1) := by
  decide +kernel

/-- One query. -/
theorem compute_heuristic_score_exact_cdn :
    ∃ (s : Signals) (reason : CStr), s.Exact (cstr "x7f3k9q2w8z1.cdn.example.com") ∧
      computeHeuristicScore (cstr "x7f3k9q2w8z1.cdn.example.com") 220 = some (s.score, reason) :=
  compute_heuristic_score_exact parseQuery_cdn 220

/-- **The threshold**: the score reaches 0.5 when the points reach 50, unless it is short by
rounding, and it takes three signals to get there. -/
theorem compute_heuristic_score_threshold {domain reason : CStr} {score : Float32}
    {reasonOutSize : Nat} (h : computeHeuristicScore domain reasonOutSize = some (score, reason)) :
    0 ≤ score ∧ score ≤ 1 ∧ ∃ s, firedSignals domain (splitLabels domain) = some s ∧
      (0.5 ≤ score ↔ 50 ≤ s.points ∧ ¬ ShortByRounding s.base s.labelChecks s.words) ∧
      (0.5 ≤ score → 3 ≤ s.fired) := by
  cases hfired : firedSignals domain (splitLabels domain) with
  | none =>
    rw [computeHeuristicScore, if_neg (splitLabels_length_pos domain).ne', hfired] at h
    cases h
  | some s =>
    rw [computeHeuristicScore_eq hfired, Option.some_inj, Prod.mk.injEq] at h
    rw [← h.1]
    exact ⟨s.scores.nonneg, s.scores.le_one, s, rfl, s.scores.crosses, s.three_fired⟩

/-- Four checks and a word: 50 points that are not seen as such. -/
theorem compute_heuristic_score_threshold_short :
    0 ≤ Float32.ofBits 0x3EFFFFFF ∧ Float32.ofBits 0x3EFFFFFF ≤ 1 ∧
      ∃ s, firedSignals (cstr "bcdfgapi0123456789.com")
          (splitLabels (cstr "bcdfgapi0123456789.com")) = some s ∧
        (0.5 ≤ Float32.ofBits 0x3EFFFFFF ↔
          50 ≤ s.points ∧ ¬ ShortByRounding s.base s.labelChecks s.words) ∧
        (0.5 ≤ Float32.ofBits 0x3EFFFFFF → 3 ≤ s.fired) :=
  @compute_heuristic_score_threshold (cstr "bcdfgapi0123456789.com")
    (cstr "entropy=1 consonant=1 vowel=1 digit=1 words=1 labels=2 toomany=0 variance=0 symbols=0 flatten=0 hyphens=0 final=0.50")
    (Float32.ofBits 0x3EFFFFFF) 220 (by decide +kernel)

/-! ## The reason -/

/-- The buffer of `run_heuristics`. -/
def reasonSize : Nat := 220

theorem length_flagText (fired : Bool) : (flagText fired).length = 1 := by
  cases fired <;> rfl

theorem isPrint_flagText (fired : Bool) : ∀ c ∈ flagText fired, isPrint c = true := by
  cases fired <;> simp [flagText, cstr, isPrint]

theorem flagText_injective : Function.Injective flagText := by
  intro x y h
  cases x <;> cases y <;> first | rfl | cases h

theorem decimal_injective : Function.Injective decimal := by
  intro m n h
  rw [← digitsValue_decimal m, h, digitsValue_decimal]

theorem space_not_mem_flagText (fired : Bool) : space ∉ flagText fired := by
  cases fired <;> decide

theorem space_not_mem_decimal (n : Nat) : space ∉ decimal n := fun h =>
  absurd (isDigit_decimal n space h) (by decide)

theorem length_decimal_digit {n : Nat} (h : n < 10) : (decimal n).length = 1 := by
  rw [decimal, List.length_map, Nat.toDigits_of_lt_base h, List.length_singleton]

theorem length_twoPlaces {n : Nat} (h : n ≤ 100) : (twoPlaces n).length = 4 := by
  rw [twoPlaces, List.length_append, List.length_cons, List.length_append,
    length_decimal_digit (by omega), length_decimal_digit (by omega),
    length_decimal_digit (by omega)]

theorem twoPlaces_inj {m n : Nat} (hm : m ≤ 100) (hn : n ≤ 100) (h : twoPlaces m = twoPlaces n) :
    m = n := by
  obtain ⟨hones, hrest⟩ := List.append_inj h
    (by rw [length_decimal_digit (by omega), length_decimal_digit (by omega)])
  obtain ⟨htenths, hhundredths⟩ := List.append_inj (List.cons.inj hrest).2
    (by rw [length_decimal_digit (by omega), length_decimal_digit (by omega)])
  have hones := decimal_injective hones
  have htenths := decimal_injective htenths
  have hhundredths := decimal_injective hhundredths
  omega

theorem isPrint_twoPlaces {n : Nat} {c : UInt8} (h : c ∈ twoPlaces n) : isPrint c = true := by
  rw [twoPlaces, List.mem_append, List.mem_cons, List.mem_append] at h
  rcases h with h | rfl | h | h
  · exact isPrint_decimal h
  · decide
  · exact isPrint_decimal h
  · exact isPrint_decimal h

theorem space_not_mem_twoPlaces (n : Nat) : space ∉ twoPlaces n := by
  rw [twoPlaces, List.mem_append, List.mem_cons, List.mem_append]
  rintro (h | h | h | h)
  · exact space_not_mem_decimal _ h
  · exact absurd h (by decide)
  · exact space_not_mem_decimal _ h
  · exact space_not_mem_decimal _ h

section

variable {s : Signals} {labelCount : Nat} {final : CStr}

/-- The values of the breakdown hold no spaces. -/
theorem breakdown_values (P : CStr → Prop) (hflag : ∀ fired, P (flagText fired))
    (hdecimal : ∀ n, P (decimal n)) (hfinal : P final) :
    ∀ field ∈ s.breakdown labelCount final, P field.2 := by
  intro field hfield
  simp only [Signals.breakdown, List.mem_cons, List.not_mem_nil, or_false] at hfield
  rcases hfield with rfl | rfl | rfl | rfl | rfl | rfl | rfl | rfl | rfl | rfl | rfl | rfl
  · exact hflag _
  · exact hflag _
  · exact hflag _
  · exact hflag _
  · exact hdecimal _
  · exact hdecimal _
  · exact hflag _
  · exact hflag _
  · exact hflag _
  · exact hflag _
  · exact hflag _
  · exact hfinal

/-- The names are the same for all domains. -/
theorem breakdown_names : (s.breakdown labelCount final).map Prod.fst =
    [cstr "entropy", cstr "consonant", cstr "vowel", cstr "digit", cstr "words", cstr "labels",
      cstr "toomany", cstr "variance", cstr "symbols", cstr "flatten", cstr "hyphens",
      cstr "final"] := rfl

set_option maxRecDepth 20000 in
theorem breakdown_name {field : CStr × CStr} (h : field ∈ s.breakdown labelCount final) :
    space ∉ field.1 ∧ ∀ c ∈ field.1, isPrint c = true := by
  have hname : field.1 ∈ (s.breakdown labelCount final).map Prod.fst := List.mem_map_of_mem h
  rw [breakdown_names] at hname
  have hall : [cstr "entropy", cstr "consonant", cstr "vowel", cstr "digit", cstr "words",
      cstr "labels", cstr "toomany", cstr "variance", cstr "symbols", cstr "flatten",
      cstr "hyphens", cstr "final"].all (fun name => name.all fun c => c != space && isPrint c) =
        true := by
    decide
  have hbytes := List.all_eq_true.mp (List.all_eq_true.mp hall _ hname)
  refine ⟨fun hspace => ?_, fun c hc => (Bool.and_eq_true_iff.mp (hbytes c hc)).2⟩
  have hne := (Bool.and_eq_true_iff.mp (hbytes space hspace)).1
  exact absurd hne (by decide)

/-- The pieces between the spaces are the fields. -/
theorem splitOn_reason (hfinal : space ∉ final) : (s.reason labelCount final).splitOn space =
    (s.breakdown labelCount final).map fun field => field.1 ++ cstr "=" ++ field.2 := by
  refine List.splitOn_intercalate space (fun piece hpiece => ?_) (List.cons_ne_nil _ _)
  obtain ⟨field, hfield, rfl⟩ := List.mem_map.mp hpiece
  rw [List.mem_append, List.mem_append]
  rintro ((hname | hequals) | hvalue)
  · exact (breakdown_name hfield).1 hname
  · exact absurd hequals (by decide)
  · exact breakdown_values (space ∉ ·) space_not_mem_flagText space_not_mem_decimal hfinal field
      hfield hvalue

/-- **The reason can be read back.** -/
theorem reason_injective {s' : Signals} {labelCount' : Nat} {final' : CStr}
    (hfinal : space ∉ final) (hfinal' : space ∉ final')
    (h : s.reason labelCount final = s'.reason labelCount' final') :
    s = s' ∧ labelCount = labelCount' ∧ final = final' := by
  have hpieces := congrArg (List.splitOn space) h
  rw [splitOn_reason hfinal, splitOn_reason hfinal'] at hpieces
  simp only [Signals.breakdown, List.map_cons, List.map_nil, List.cons.injEq,
    List.append_cancel_left_eq, and_true] at hpieces
  obtain ⟨hentropy, hconsonant, hvowel, hdigit, hwords, hlabels, htoomany, hvariance, hsymbols,
    hflatten, hhyphens, hfinals⟩ := hpieces
  refine ⟨?_, decimal_injective hlabels, hfinals⟩
  exact Signals.ext (flagText_injective hentropy) (flagText_injective hconsonant)
    (flagText_injective hvowel) (flagText_injective hdigit) (decimal_injective hwords)
    (flagText_injective htoomany) (flagText_injective hvariance) (flagText_injective hsymbols)
    (flagText_injective hflatten) (flagText_injective hhyphens)

end

/-- How much of the buffer it takes. -/
theorem length_reason (s : Signals) (labelCount : Nat) (final : CStr) :
    (s.reason labelCount final).length =
      110 + (decimal s.words).length + (decimal labelCount).length + final.length := by
  simp only [Signals.reason, Signals.breakdown, List.map_cons, List.map_nil,
    List.intercalate_cons_cons, List.intercalate_singleton, List.length_append, length_flagText]
  simp only [cstr, List.length_map, String.reduceToList, List.length_cons, List.length_nil]
  omega

theorem isPrint_reason {s : Signals} {labelCount : Nat} {final : CStr}
    (hspaces : space ∉ final) (hfinal : ∀ c ∈ final, isPrint c = true) :
    ∀ c ∈ s.reason labelCount final, isPrint c = true := by
  intro c hc
  by_cases hspace : c = space
  · rw [hspace]
    decide
  obtain ⟨piece, hpiece, hmem⟩ := @mem_splitOnP_of_mem _ (· == space) _
    (beq_false_of_ne hspace) _ hc
  change piece ∈ (s.reason labelCount final).splitOn space at hpiece
  rw [splitOn_reason hspaces] at hpiece
  obtain ⟨field, hfield, rfl⟩ := List.mem_map.mp hpiece
  rcases List.mem_append.mp hmem with hmem | hvalue
  · rcases List.mem_append.mp hmem with hfieldName | hequals
    · exact (breakdown_name hfield).2 c hfieldName
    · rw [List.mem_singleton.mp hequals]
      decide
  · exact breakdown_values (∀ c ∈ ·, isPrint c = true) isPrint_flagText
      (fun n c => isPrint_decimal) hfinal field hfield c hvalue

/-- The words of all labels. -/
theorem words_lt {domain : CStr} {s : Signals} (h : s.Exact domain) : s.words < 2 ^ 32 := by
  have hlabel : ∀ label ∈ scoredLabels domain, Lib.occurrences foundWords label ≤ 2040 := by
    intro label hlabel
    have hshort := (mem_splitLabels (List.mem_of_mem_take hlabel)).1
    refine List.countP_le_length.trans ?_
    have hpairs := List.length_product (List.range label.length) foundWords
    rw [List.length_range] at hpairs
    exact hpairs.trans_le (Nat.mul_le_mul_right 8 hshort)
  have hcount : (scoredLabels domain).length ≤ 32 := by
    refine (List.length_take_le' _ _).trans ?_
    exact List.length_take_le _ _
  have hsum := List.sum_le_card_nsmul ((scoredLabels domain).map (Lib.occurrences foundWords)) 2040
    (fun n hn => by
      obtain ⟨label, hmem, rfl⟩ := List.mem_map.mp hn
      exact hlabel label hmem)
  rw [← h.words, List.length_map, smul_eq_mul] at hsum
  omega

/-- The score of a parsed query, and its reason, which fits the buffer. -/
theorem computeHeuristicScore_parsed {domain : CStr} (hname : WireName maxDomainLen domain) :
    ∃ s : Signals, s.Exact domain ∧ computeHeuristicScore domain reasonSize =
      some (s.score, s.reason (splitLabels domain).length (twoPlaces s.points)) := by
  obtain ⟨s, hfired, hexact⟩ := firedSignals_exact hname.short fun label hlabel =>
    isSuspiciousLabel_total (scoredLabels_bytes hname hlabel)
  have hwords : (decimal s.words).length ≤ 10 := by
    have hword := decimal_length s.words.toUInt32
    rwa [UInt32.toNat_ofNat_of_lt' (words_lt hexact)] at hword
  have hlabels : (decimal (splitLabels domain).length).length ≤ 10 := by
    have hlabel := decimal_length (splitLabels domain).length.toUInt32
    have hfew : (splitLabels domain).length ≤ 32 := List.length_take_le _ _
    rwa [UInt32.toNat_ofNat_of_lt' (hfew.trans_lt (by decide))] at hlabel
  have hfits : (s.reason (splitLabels domain).length (twoPlaces s.points)).length ≤ 134 := by
    have hfinal := length_twoPlaces s.points_le
    rw [length_reason, hfinal]
    omega
  refine ⟨s, hexact, ?_⟩
  rw [computeHeuristicScore_eq hfired, snprintf, List.take_of_length_le]
  exact hfits.trans (by decide)

/-- **The reason is complete** for every parsed query: it fits the buffer of `run_heuristics`,
it is printable, and no other breakdown and no other points give the same text. -/
theorem reason_complete {packet domain : CStr} {qtype : UInt16}
    (hparsed : parseQuery packet maxDomainLen = some (domain, qtype)) :
    ∃ (s : Signals) (reason : CStr), s.Exact domain ∧
      computeHeuristicScore domain reasonSize = some (s.score, reason) ∧
      (∀ c ∈ reason, isPrint c = true) ∧
      ∀ (s' : Signals) (labelCount points : Nat), points ≤ 100 →
        (s'.reason labelCount (twoPlaces points) = reason ↔
          s' = s ∧ labelCount = (splitLabels domain).length ∧ points = s.points) := by
  obtain ⟨s, hexact, hscore⟩ := computeHeuristicScore_parsed (parseQuery_wireName hparsed)
  refine ⟨s, _, hexact, hscore,
    isPrint_reason (space_not_mem_twoPlaces _) fun c hc => isPrint_twoPlaces hc, ?_⟩
  intro s' labelCount points hsmall
  constructor
  · intro h
    obtain ⟨hs, hcount, hfinal⟩ := reason_injective (space_not_mem_twoPlaces _)
      (space_not_mem_twoPlaces _) h
    exact ⟨hs, hcount, twoPlaces_inj hsmall s.points_le hfinal⟩
  · rintro ⟨rfl, rfl, rfl⟩
    rfl

/-- One query. -/
theorem reason_complete_cdn :
    ∃ (s : Signals) (reason : CStr), s.Exact (cstr "x7f3k9q2w8z1.cdn.example.com") ∧
      computeHeuristicScore (cstr "x7f3k9q2w8z1.cdn.example.com") reasonSize =
        some (s.score, reason) ∧
      (∀ c ∈ reason, isPrint c = true) ∧
      ∀ (s' : Signals) (labelCount points : Nat), points ≤ 100 →
        (s'.reason labelCount (twoPlaces points) = reason ↔ s' = s ∧
          labelCount = (splitLabels (cstr "x7f3k9q2w8z1.cdn.example.com")).length ∧
          points = s.points) :=
  reason_complete parseQuery_cdn

end Nyet
