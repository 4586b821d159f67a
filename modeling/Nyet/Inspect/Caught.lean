import Nyet.Inspect.Assess

/-!
# What an inspection catches, and that it does every time

`SUSPICIOUS_STEMS` is a set of strings, and Python goes through it in another order in every run.
`assess_domain_exact` says what is caught without that order: a name with a toxic suffix or a
vendor's label, or one whose canonical form has a stem in it or a window that is one edit from a
stem at most. So the score of a name is the same in every run, whatever the reason says.
-/

namespace Nyet

open Lib

/-- What every round of a loop keeps, the loop keeps. -/
theorem foldlM_keeps {ι β : Type} {P : β → Prop} {f : β → ι → Option β} {l : List ι}
    (h : ∀ i ∈ l, ∀ b b', P b → f b i = some b' → P b') {b b' : β} (hb : P b)
    (hl : l.foldlM f b = some b') : P b' := by
  induction l generalizing b with
  | nil =>
    cases hl
    exact hb
  | cons i l ih =>
    rw [List.foldlM_cons] at hl
    obtain ⟨c, hc, hrest⟩ := Option.bind_eq_some_iff.mp hl
    exact ih (fun j hj => h j (List.mem_cons_of_mem i hj)) (h i List.mem_cons_self b c hb hc) hrest

/-! ## What the windows find -/

/-- A window that is compared with a stem, and how many edits they are apart. -/
structure Resembles (stems : List (List Char)) (canon stem window : List Char) (n : Nat) :
    Prop where
  listed : stem ∈ stems
  inside : window <:+: canon
  size : window.length ∈ [stem.length - 1, stem.length, stem.length + 1]
  short : 3 ≤ window.length
  near : 3 / 10 < trigramSimilarity window stem
  distance : IsEditDistance window stem n

section

variable {stems : List (List Char)} {canon stem window : List Char} {n : Nat}

theorem Resembles.perm {stems' : List (List Char)} (h : Resembles stems canon stem window n)
    (hperm : stems.Perm stems') : Resembles stems' canon stem window n :=
  { h with listed := hperm.mem_iff.mp h.listed }

theorem Resembles.damerauLevenshtein (h : Resembles stems canon stem window n) :
    Nyet.damerauLevenshtein window stem = some (n : Int) := by
  obtain ⟨m, hm, hdistance⟩ := damerauLevenshtein_distance window stem
  rw [hm, hdistance.unique h.distance]

/-- Nothing yet, or a window with the score of its distance. -/
def FuzzyMatch.Found (stems : List (List Char)) (canon : List Char) (best : FuzzyMatch) : Prop :=
  best = ⟨0, none, none⟩ ∨ ∃ stem window n, Resembles stems canon stem window n ∧
    best = ⟨windowScore n stem.length, some window, some stem⟩

/-- A window is a part of the name, of the size that was asked for. -/
theorem of_mem_windowsOf {windowSize : Nat} (hsize : windowSize ≤ canon.length)
    (h : window ∈ windowsOf canon windowSize) : window <:+: canon ∧ window.length = windowSize := by
  obtain ⟨i, hi, rfl⟩ := List.mem_map.mp h
  have hi := List.mem_range.mp hi
  refine ⟨(List.take_prefix _ _).isInfix.trans (List.drop_suffix i canon).isInfix, ?_⟩
  rw [List.length_take, List.length_drop]
  omega

theorem fuzzyWindow_found (hstem : stem ∈ stems) (hwindow : window <:+: canon)
    (hsize : window.length ∈ [stem.length - 1, stem.length, stem.length + 1])
    (hshort : 3 ≤ window.length) {best next : FuzzyMatch} (hbest : best.Found stems canon)
    (h : fuzzyWindow stem best window = some next) : next.Found stems canon := by
  rw [fuzzyWindow] at h
  split at h
  · next hnear =>
    obtain ⟨n, hn, hdistance⟩ := damerauLevenshtein_distance window stem
    rw [hn] at h
    change some (if best.score < windowScore n stem.length then _ else best) = some next at h
    split at h
    · cases h
      exact Or.inr ⟨stem, window, n, ⟨hstem, hwindow, hsize, hshort, hnear, hdistance⟩, rfl⟩
    · cases h
      exact hbest
  · cases h
    exact hbest

theorem fuzzySize_found (hstem : stem ∈ stems) {windowSize : Nat}
    (hsize : windowSize ∈ [stem.length - 1, stem.length, stem.length + 1]) {best next : FuzzyMatch}
    (hbest : best.Found stems canon) (h : fuzzySize canon stem best windowSize = some next) :
    next.Found stems canon := by
  rw [fuzzySize] at h
  split at h
  · cases h
    exact hbest
  · next hfits =>
    refine foldlM_keeps (fun window hwindow b b' hb hb' => ?_) hbest h
    obtain ⟨hpart, hlength⟩ := of_mem_windowsOf (by omega) hwindow
    exact fuzzyWindow_found hstem hpart (hlength ▸ hsize) (by omega) hb hb'

/-- **The windows, exactly**: the score is that of a window that is there, and no window that is
there scores more. -/
theorem fuzzySubstringScore_exact (stems : List (List Char)) (canon : List Char) :
    ∃ best, fuzzySubstringScore stems canon = some best ∧ best.Found stems canon ∧
      ∀ stem window n, Resembles stems canon stem window n →
        windowScore n stem.length ≤ best.score := by
  obtain ⟨best, hbest⟩ := fuzzySubstringScore_some stems canon
  refine ⟨best, hbest, ?_, fun stem window n h => ?_⟩
  · refine foldlM_keeps (fun stem hstem b b' hb hb' => ?_) (Or.inl rfl) hbest
    exact foldlM_keeps (fun size hsize c c' hc hc' => fuzzySize_found hstem hsize hc hc') hb hb'
  · obtain ⟨best', hbest', hge⟩ :=
      fuzzySubstringScore_ge h.listed h.inside h.size h.short h.near h.damerauLevenshtein
    rw [hbest] at hbest'
    cases hbest'
    exact hge

/-- What one order finds, no other order scores below. -/
theorem FuzzyMatch.Found.score_le {best best' : FuzzyMatch} (h : best.Found stems canon)
    (hge : ∀ stem window n, Resembles stems canon stem window n →
      windowScore n stem.length ≤ best'.score) : best.score ≤ best'.score := by
  rcases h with rfl | ⟨stem, window, n, h, rfl⟩
  · exact Nat.zero_le _
  · exact hge stem window n h

/-- The score of the windows is the same in every order. -/
theorem fuzzySubstringScore_perm {stems' : List (List Char)} (hperm : stems.Perm stems')
    {best best' : FuzzyMatch} (hbest : fuzzySubstringScore stems canon = some best)
    (hbest' : fuzzySubstringScore stems' canon = some best') : best.score = best'.score := by
  obtain ⟨found, hfound, hin, hge⟩ := fuzzySubstringScore_exact stems canon
  obtain ⟨found', hfound', hin', hge'⟩ := fuzzySubstringScore_exact stems' canon
  rw [hbest] at hfound
  rw [hbest'] at hfound'
  cases hfound
  cases hfound'
  exact Nat.le_antisymm (hin.score_le fun stem window n h => hge' stem window n (h.perm hperm))
    (hin'.score_le fun stem window n h => hge stem window n (h.perm hperm.symm))

/-- One edit at most is worth a suspicion, two are not. -/
theorem scoreThreshold_le_windowScore : scoreThreshold ≤ windowScore n stem.length ↔ n ≤ 1 := by
  rw [windowScore, scoreThreshold]
  split
  · omega
  split
  · omega
  split <;> omega

/-! ## What the automaton finds -/

/-- A stem stands in the name, in small letters or not. -/
def HasStem (stems : List (List Char)) (canon : List Char) : Prop :=
  ∃ stem ∈ stems, ∃ rest, rest <:+ canon ∧ matchesAt stem rest = true

theorem stemSearch_isSome_iff : (stemSearch stems canon).isSome ↔ HasStem stems canon := by
  rw [stemSearch, List.findSome?_isSome_iff]
  constructor
  · rintro ⟨rest, hrest, hfound⟩
    rw [Option.isSome_map, List.find?_isSome] at hfound
    obtain ⟨stem, hstem, hmatches⟩ := hfound
    exact ⟨stem, hstem, rest, (List.mem_tails _ _).mp hrest, hmatches⟩
  · rintro ⟨stem, hstem, rest, hrest, hmatches⟩
    refine ⟨rest, (List.mem_tails _ _).mpr hrest, ?_⟩
    rw [Option.isSome_map, List.find?_isSome]
    exact ⟨stem, hstem, hmatches⟩

theorem exactScore_eq (stems : List (List Char)) (canon : List Char) :
    (exactScore stems canon).1 = if (stemSearch stems canon).isSome then 90 else 0 := by
  rw [exactScore]
  cases stemSearch stems canon <;> rfl

theorem exactScore_perm {stems' : List (List Char)} (hperm : stems.Perm stems') :
    (exactScore stems canon).1 = (exactScore stems' canon).1 := by
  have hsame : (stemSearch stems canon).isSome = (stemSearch stems' canon).isSome := by
    rw [Bool.eq_iff_iff, stemSearch_isSome_iff, stemSearch_isSome_iff]
    refine exists_congr fun stem => ?_
    rw [hperm.mem_iff]
  rw [exactScore_eq, exactScore_eq, hsame]

end

/-! ## What is caught -/

/-- What there is in a domain to be caught by. -/
inductive Caught (lower : List Char → List Char) (domain : List Char) : Prop
  | suffix (suffix : List Char) (hlisted : suffix ∈ toxicSuffixes) (hends : suffix <:+ domain)
  | vendor (label : List Char) (hlabel : label ∈ (lower domain).splitOn '.')
      (hlisted : label ∈ knownVendors)
  | stem (hstem : HasStem suspiciousStems (canonicalize lower domain))
  | near (stem window : List Char) (n : Nat) (hn : n ≤ 1)
      (hnear : Resembles suspiciousStems (canonicalize lower domain) stem window n)

/-- The name is on one of the two lists. -/
def Listed (lower : List Char → List Char) (domain : List Char) : Prop :=
  (∃ suffix ∈ toxicSuffixes, suffix <:+ domain) ∨
    ∃ label ∈ (lower domain).splitOn '.', label ∈ knownVendors

section

variable {lower : List Char → List Char} {domain : List Char}

theorem Listed.caught (h : Listed lower domain) : Caught lower domain := by
  rcases h with ⟨suffix, hlisted, hends⟩ | ⟨label, hlabel, hlisted⟩
  · exact .suffix suffix hlisted hends
  · exact .vendor label hlabel hlisted

/-- There is nothing in the empty name. -/
theorem Caught.listed_of_nil (h : Caught lower domain) (hcanon : canonicalize lower domain = []) :
    Listed lower domain := by
  cases h with
  | suffix suffix hlisted hends => exact Or.inl ⟨suffix, hlisted, hends⟩
  | vendor label hlabel hlisted => exact Or.inr ⟨label, hlabel, hlisted⟩
  | stem hstem =>
    obtain ⟨stem, hlisted, rest, hrest, hmatches⟩ := hstem
    rw [hcanon, List.suffix_nil] at hrest
    have hnonempty : ∀ stem ∈ suspiciousStems, matchesAt stem [] = false := by decide
    rw [hrest, hnonempty stem hlisted] at hmatches
    cases hmatches
  | near stem window n hn hnear =>
    have hinside := hnear.inside
    rw [hcanon] at hinside
    have hshort := hnear.short
    rw [List.infix_nil.mp hinside] at hshort
    exact absurd hshort (by decide)

/-- What is on a list gets the full score. -/
theorem assessDomain_listed (h : Listed lower domain) (stems : List (List Char)) :
    ∃ reason, assessDomain lower stems domain = some (100, reason) := by
  rw [assessDomain]
  split
  · exact ⟨_, rfl⟩
  split
  · exact ⟨_, rfl⟩
  next hsuffix _ hvendor =>
  rcases h with ⟨suffix, hlisted, hends⟩ | ⟨label, hlabel, hlisted⟩
  · have hnot := List.find?_eq_none.mp hsuffix suffix hlisted
    exact absurd (List.isSuffixOf_iff_suffix.mpr hends) hnot
  · have hnot := List.find?_eq_none.mp hvendor label hlabel
    exact absurd (decide_eq_true hlisted) hnot

/-- **The assessment, past the lists.** -/
theorem assessDomain_canonical (h : ¬ Listed lower domain) (stems : List (List Char)) :
    assessDomain lower stems domain =
      if canonicalize lower domain = [] then some (0, "Clean".toList)
      else (fuzzySubstringScore stems (canonicalize lower domain)).map fun fuzzy =>
        assessment (withFuzzy fuzzy (exactScore stems (canonicalize lower domain))) := by
  rw [assessDomain]
  split
  · next suffix hfound =>
    have hends := List.find?_some hfound
    exact absurd (Or.inl ⟨suffix, List.mem_of_find?_eq_some hfound,
      List.isSuffixOf_iff_suffix.mp hends⟩) h
  split
  · next label hfound =>
    have hlisted := List.find?_some hfound
    exact absurd (Or.inr ⟨label, List.mem_of_find?_eq_some hfound, of_decide_eq_true hlisted⟩) h
  dsimp only
  split
  · rfl
  · cases fuzzySubstringScore stems (canonicalize lower domain) <;> rfl

/-- **The greater of the two scores** is that of a suspicion where a stem or a near window is. -/
theorem scoreThreshold_le_iff (h : ¬ Listed lower domain) {best : FuzzyMatch}
    (hfound : best.Found suspiciousStems (canonicalize lower domain))
    (hge : ∀ stem window n, Resembles suspiciousStems (canonicalize lower domain) stem window n →
      windowScore n stem.length ≤ best.score) :
    scoreThreshold ≤ max (exactScore suspiciousStems (canonicalize lower domain)).1 best.score ↔
      Caught lower domain := by
  rw [le_max_iff, exactScore_eq]
  constructor
  · -- a score at the threshold has its reason
    rintro (hexact | hfuzzy)
    · refine .stem (stemSearch_isSome_iff.mp ?_)
      by_contra hnone
      rw [if_neg hnone] at hexact
      exact absurd hexact (by decide)
    · rcases hfound with rfl | ⟨stem, window, n, hnear, rfl⟩
      · exact absurd hfuzzy (by decide)
      · exact .near stem window n (scoreThreshold_le_windowScore.mp hfuzzy) hnear
  · intro hcaught
    cases hcaught with
    | suffix suffix hlisted hends => exact absurd (Or.inl ⟨suffix, hlisted, hends⟩) h
    | vendor label hlabel hlisted => exact absurd (Or.inr ⟨label, hlabel, hlisted⟩) h
    | stem hstem =>
      left
      rw [if_pos (stemSearch_isSome_iff.mpr hstem)]
      decide
    | near stem window n hn hnear =>
      exact Or.inr ((scoreThreshold_le_windowScore.mpr hn).trans (hge stem window n hnear))

end

/-- **What is caught, exactly**: in whatever order Python goes through the stems, a domain gets the
same score, and it is that of a suspicion just where there is something to be caught by. Below that
nothing is said about it. -/
theorem assess_domain_exact (lower : List Char → List Char) (domain : List Char) :
    ∃ score, (scoreThreshold ≤ score ↔ Caught lower domain) ∧
      ∀ stems, stems.Perm suspiciousStems →
        ∃ reason, assessDomain lower stems domain = some (score, reason) ∧
          (score < scoreThreshold → reason = "Clean".toList) := by
  by_cases hlisted : Listed lower domain
  · refine ⟨100, iff_of_true (by decide) hlisted.caught, fun stems _ => ?_⟩
    obtain ⟨reason, hreason⟩ := assessDomain_listed hlisted stems
    exact ⟨reason, hreason, fun h => absurd h (by decide)⟩
  by_cases hcanon : canonicalize lower domain = []
  · refine ⟨0, iff_of_false (by decide) fun h => hlisted (h.listed_of_nil hcanon),
      fun stems _ => ?_⟩
    rw [assessDomain_canonical hlisted, if_pos hcanon]
    exact ⟨_, rfl, fun _ => rfl⟩
  obtain ⟨best, hbest, hfound, hge⟩ :=
    fuzzySubstringScore_exact suspiciousStems (canonicalize lower domain)
  refine ⟨max (exactScore suspiciousStems (canonicalize lower domain)).1 best.score,
    scoreThreshold_le_iff hlisted hfound hge, fun stems hperm => ?_⟩
  obtain ⟨best', hbest', -, -⟩ := fuzzySubstringScore_exact stems (canonicalize lower domain)
  -- another order finds another window, but none that scores more
  have hsame := fuzzySubstringScore_perm hperm hbest' hbest
  rw [assessDomain_canonical hlisted, if_neg hcanon, hbest', Option.map_some]
  obtain ⟨score, hscore⟩ : ∃ score,
      (withFuzzy best' (exactScore stems (canonicalize lower domain))).1 = score := ⟨_, rfl⟩
  rw [← hsame, ← exactScore_perm hperm, ← withFuzzy_score, hscore, assessment, hscore]
  split
  · next hle => exact ⟨_, rfl, fun h => absurd hle (Nat.not_le_of_lt h)⟩
  · exact ⟨_, rfl, fun _ => rfl⟩

/-- A letter is missing from a stem, and the stems come the other way round. -/
theorem assess_domain_exact_near : ∃ score reason, scoreThreshold ≤ score ∧
    assessDomain id suspiciousStems.reverse "omnimetrc.com".toList = some (score, reason) := by
  have hcanon : canonicalize id "omnimetrc.com".toList = "omnimetrc".toList := by decide +kernel
  have hdistance : IsEditDistance "metrc".toList "metric".toList 1 := by
    obtain ⟨n, hn, hdistance⟩ := damerauLevenshtein_distance "metrc".toList "metric".toList
    have hone : damerauLevenshtein "metrc".toList "metric".toList = some 1 := by decide
    rw [hone] at hn
    rwa [← Int.ofNat.inj (Option.some.inj hn)] at hdistance
  have hnear : Resembles suspiciousStems (canonicalize id "omnimetrc.com".toList) "metric".toList
      "metrc".toList 1 := by
    rw [hcanon]
    exact ⟨by decide, ⟨"omni".toList, [], by decide⟩, by decide, by decide, by decide +kernel,
      hdistance⟩
  obtain ⟨score, hcaught, hstems⟩ := assess_domain_exact id "omnimetrc.com".toList
  obtain ⟨reason, hreason, -⟩ := hstems suspiciousStems.reverse (List.reverse_perm _)
  exact ⟨score, reason, hcaught.mpr (.near _ _ 1 (Nat.le_refl _) hnear), hreason⟩

end Nyet
