import Nyet.Inspect.Canonical
import Nyet.Inspect.DamerauLevenshtein

/-!
# Whether a domain is assessed as suspicious

`fuzzy_substring_score` and `assess_domain` of deep_inspect.py. A similarity is a rational here:
the trigrams are those of a stem and of a window of a letter more at most, and quotients of numbers
so small compare with 0.3 as floats as they do with 3/10.

A stem in the name is caught (`literal_stem_caught`): by the automaton where it is in the canonical
name itself, and where the canonical name has it with one letter less, by the window of that length.
-/

namespace Nyet

/-- `KNOWN_VENDORS` -/
def knownVendors : List (List Char) :=
  ["ezojs", "ezodn", "btloader", "confiant-integrations", "openweb",
   "sharethis", "doubleverify", "flashtalking", "zephr", "dianomi",
   "kameleoon", "liadm", "pubmatic", "rubiconproject", "criteo",
   "taboola", "scorecardresearch", "demdex", "rokt", "liveperson",
   "ensighten", "iterable", "videoamp", "similarweb", "serpapi",
   "dwin1", "cognitohq", "primis", "sharethrough", "sail-horizon",
   "4dex", "contextweb", "onetag-sys", "socdm", "creativecdn",
   "adsrvr", "adform", "gumgum", "seedtag", "openx", "outbrain",
   "pgammedia", "qntv", "r2b2",
   "spserv", "birdeatsbug", "siftscience", "smct", "anthropic",
   "sardine", "zeronaught", "appfoliowebsites", "braze",
   "branch", "adjust", "appsflyer", "kochava", "mparticle"].map String.toList

/-- `TOXIC_SUFFIXES` -/
def toxicSuffixes : List (List Char) :=
  ["-pa.googleapis.com", "-pa.clients6.google.com",
   ".icloud.com", ".iadsdk.apple.com",
   ".log-global.aliyuncs.com", ".alicdn.com"].map String.toList

/-- `SCORE_THRESHOLD` -/
def scoreThreshold : Nat := 75

/-! ## The fuzzy score -/

/-- `get_trigrams(s)` -/
def getTrigrams (s : List Char) : Finset (List Char) :=
  if s.length < 3 then {s}
  else ((List.range (s.length - 2)).map fun i => (s.drop i).take 3).toFinset

/-- `trigram_similarity(s1, s2)` -/
def trigramSimilarity (s1 s2 : List Char) : ℚ :=
  let tri1 := getTrigrams s1
  let tri2 := getTrigrams s2
  if tri1 = ∅ ∨ tri2 = ∅ then 0
  else
    let intersection := (tri1 ∩ tri2).card
    let union := (tri1 ∪ tri2).card
    if 0 < union then intersection / union else 0

/-- `highest_score`, `best_match` and `best_stem`. -/
structure FuzzyMatch where
  score : Nat
  matched : Option (List Char)
  stem : Option (List Char)
  deriving DecidableEq, Repr

/-- The confidence in a window that is so far from a stem of so many letters. -/
def windowScore (editDist : Int) (stemLen : Nat) : Nat :=
  if editDist = 0 then 100
  else if editDist = 1 then 85
  else if editDist = 2 ∧ 5 < stemLen then 65
  else 0

/-- What is done with a window. -/
def fuzzyWindow (stem : List Char) (best : FuzzyMatch) (window : List Char) : Option FuzzyMatch :=
  if 3 / 10 < trigramSimilarity window stem then do
    let editDist ← damerauLevenshtein window stem
    let score := windowScore editDist stem.length
    some (if best.score < score then ⟨score, some window, some stem⟩ else best)
  else
    some best

/-- The windows of a size that fits. -/
def windowsOf (canon : List Char) (windowSize : Nat) : List (List Char) :=
  (List.range (canon.length - windowSize + 1)).map fun i => (canon.drop i).take windowSize

/-- The windows of one size. -/
def fuzzySize (canon stem : List Char) (best : FuzzyMatch) (windowSize : Nat) :
    Option FuzzyMatch :=
  if windowSize < 3 ∨ canon.length < windowSize then some best
  else (windowsOf canon windowSize).foldlM (fuzzyWindow stem) best

/-- The windows for a stem. -/
def fuzzyStem (canon : List Char) (best : FuzzyMatch) (stem : List Char) : Option FuzzyMatch :=
  [stem.length - 1, stem.length, stem.length + 1].foldlM (fuzzySize canon stem) best

/-- `fuzzy_substring_score(canonical_str)`, for the order Python goes through the stems in. -/
def fuzzySubstringScore (stems : List (List Char)) (canon : List Char) : Option FuzzyMatch :=
  stems.foldlM (fuzzyStem canon) ⟨0, none, none⟩

/-! ## The assessment -/

/-- A value as an f-string prints it. -/
def printed : Option (List Char) → List Char
  | some s => s
  | none => "None".toList

/-- The score and the reasons of the automaton. -/
def exactScore (stems : List (List Char)) (canon : List Char) : Nat × List (List Char) :=
  match stemSearch stems canon with
  | some found => (90, ["Contains exact stem '".toList ++ found ++ "'".toList])
  | none => (0, [])

/-- What the windows make of it. -/
def withFuzzy (fuzzy : FuzzyMatch) (assessed : Nat × List (List Char)) : Nat × List (List Char) :=
  if 0 < fuzzy.score ∧ assessed.1 < fuzzy.score then
    (fuzzy.score, assessed.2 ++ ["Fuzzy match '".toList ++ printed fuzzy.matched ++
      "' resembles '".toList ++ printed fuzzy.stem ++ "' (Score: ".toList ++
      (toString fuzzy.score).toList ++ ")".toList])
  else assessed

/-- What is returned at the end. -/
def assessment (assessed : Nat × List (List Char)) : Nat × List Char :=
  if scoreThreshold ≤ assessed.1 then (assessed.1, " | ".toList.intercalate assessed.2)
  else (assessed.1, "Clean".toList)

/-- `assess_domain(domain)`: the score and the reason. -/
def assessDomain (lower : List Char → List Char) (stems : List (List Char)) (domain : List Char) :
    Option (Nat × List Char) :=
  match toxicSuffixes.find? fun suffix => suffix.isSuffixOf domain with
  | some suffix => some (100, "Known toxic suffix (".toList ++ suffix ++ ")".toList)
  | none =>
    match ((lower domain).splitOn '.').find? fun label => label ∈ knownVendors with
    | some label => some (100, "Known tracker vendor (".toList ++ label ++ ")".toList)
    | none =>
      let canon := canonicalize lower domain
      if canon = [] then some (0, "Clean".toList)
      else do
        let fuzzy ← fuzzySubstringScore stems canon
        some (assessment (withFuzzy fuzzy (exactScore stems canon)))

/-! ## What a window is worth -/

/-- A part of the search has not failed, has not taken the score back, and has made it so much at
least. -/
def Raises (n : Nat) (best : FuzzyMatch) (outcome : Option FuzzyMatch) : Prop :=
  ∃ next, outcome = some next ∧ best.score ≤ next.score ∧ n ≤ next.score

theorem Raises.best (best : FuzzyMatch) : Raises 0 best (some best) :=
  ⟨best, rfl, Nat.le_refl _, Nat.zero_le _⟩

theorem raises_foldlM {ι : Type} {f : FuzzyMatch → ι → Option FuzzyMatch} {l : List ι}
    (h : ∀ i ∈ l, ∀ best, Raises 0 best (f best i)) (best : FuzzyMatch) :
    Raises 0 best (l.foldlM f best) := by
  induction l generalizing best with
  | nil => exact Raises.best best
  | cons i l ih =>
    obtain ⟨next, hnext, hle, -⟩ := h i List.mem_cons_self best
    obtain ⟨last, hlast, hle', -⟩ := ih (fun j hj => h j (List.mem_cons_of_mem _ hj)) next
    refine ⟨last, ?_, hle.trans hle', Nat.zero_le _⟩
    rw [List.foldlM_cons, hnext]
    exact hlast

/-- A loop makes the score what one of its rounds does. -/
theorem raises_foldlM_of_mem {ι : Type} {f : FuzzyMatch → ι → Option FuzzyMatch} {l : List ι}
    {n : Nat} (h : ∀ i ∈ l, ∀ best, Raises 0 best (f best i)) {i : ι} (hi : i ∈ l)
    (hn : ∀ best, Raises n best (f best i)) (best : FuzzyMatch) :
    Raises n best (l.foldlM f best) := by
  obtain ⟨front, back, rfl⟩ := List.append_of_mem hi
  obtain ⟨before, hbefore, hle, -⟩ :=
    raises_foldlM (fun j hj => h j (List.mem_append_left _ hj)) best
  obtain ⟨here, hhere, hle', hge⟩ := hn before
  obtain ⟨after, hafter, hle'', -⟩ :=
    raises_foldlM (fun j hj => h j (List.mem_append_right _ (List.mem_cons_of_mem _ hj))) here
  refine ⟨after, ?_, hle.trans (hle'.trans hle''), hge.trans hle''⟩
  rw [List.foldlM_append, hbefore]
  show (i :: back).foldlM f before = some after
  rw [List.foldlM_cons, hhere]
  exact hafter

theorem fuzzyWindow_raises {stem window : List Char} {n : Nat}
    (h : n = 0 ∨ 3 / 10 < trigramSimilarity window stem ∧
      ∃ d, damerauLevenshtein window stem = some d ∧ n ≤ windowScore d stem.length)
    (best : FuzzyMatch) : Raises n best (fuzzyWindow stem best window) := by
  obtain ⟨d, hd, -⟩ := damerauLevenshtein_distance window stem
  rw [fuzzyWindow]
  split
  · have hn : n ≤ windowScore d stem.length := by
      rcases h with rfl | ⟨-, d', hd', hn⟩
      · exact Nat.zero_le _
      · rw [hd] at hd'
        cases hd'
        exact hn
    rw [hd]
    show Raises n best (some (if best.score < windowScore d stem.length then _ else best))
    split
    · next hbetter => exact ⟨_, rfl, Nat.le_of_lt hbetter, hn⟩
    · next hbest => exact ⟨best, rfl, Nat.le_refl _, hn.trans (Nat.le_of_not_lt hbest)⟩
  · next hfar =>
    rcases h with rfl | ⟨hnear, -⟩
    · exact Raises.best best
    · exact absurd hnear hfar

theorem fuzzySize_raises (canon stem : List Char) (best : FuzzyMatch) (windowSize : Nat) :
    Raises 0 best (fuzzySize canon stem best windowSize) := by
  rw [fuzzySize]
  split
  · exact Raises.best best
  · exact raises_foldlM (fun window _ => fuzzyWindow_raises (Or.inl rfl)) best

theorem fuzzyStem_raises (canon : List Char) (best : FuzzyMatch) (stem : List Char) :
    Raises 0 best (fuzzyStem canon best stem) :=
  raises_foldlM (fun size _ best => fuzzySize_raises canon stem best size) best

/-- What is in the name is a window. -/
theorem mem_windowsOf {canon window : List Char} (h : window <:+: canon) :
    window ∈ windowsOf canon window.length := by
  obtain ⟨before, after, rfl⟩ := h
  refine List.mem_map.mpr ⟨before.length, List.mem_range.mpr ?_, ?_⟩
  · simp only [List.length_append]
    omega
  · rw [List.append_assoc, List.drop_left, List.take_left]

/-- **A window near a stem gives the score of its distance**, whatever else is in the name. -/
theorem fuzzySubstringScore_ge {stems : List (List Char)} {canon stem window : List Char}
    (hstem : stem ∈ stems) (hwindow : window <:+: canon)
    (hsize : window.length ∈ [stem.length - 1, stem.length, stem.length + 1])
    (hshort : 3 ≤ window.length) (hnear : 3 / 10 < trigramSimilarity window stem) {d : Int}
    (hd : damerauLevenshtein window stem = some d) :
    ∃ best, fuzzySubstringScore stems canon = some best ∧
      windowScore d stem.length ≤ best.score := by
  have hwindows : ∀ best, Raises (windowScore d stem.length) best
      (fuzzySize canon stem best window.length) := by
    intro best
    have hlen : ¬(window.length < 3 ∨ canon.length < window.length) := by
      have hle := hwindow.length_le
      omega
    rw [fuzzySize, if_neg hlen]
    exact raises_foldlM_of_mem (f := fuzzyWindow stem)
      (fun other _ => fuzzyWindow_raises (Or.inl rfl)) (mem_windowsOf hwindow)
      (fuzzyWindow_raises (Or.inr ⟨hnear, d, hd, Nat.le_refl _⟩)) best
  have hsizes : ∀ best, Raises (windowScore d stem.length) best (fuzzyStem canon best stem) :=
    raises_foldlM_of_mem (fun size _ best => fuzzySize_raises canon stem best size) hsize hwindows
  obtain ⟨best, hbest, -, hge⟩ := raises_foldlM_of_mem
    (fun other _ best => fuzzyStem_raises canon best other) hstem hsizes ⟨0, none, none⟩
  exact ⟨best, hbest, hge⟩

/-- The search always comes to an end. -/
theorem fuzzySubstringScore_some (stems : List (List Char)) (canon : List Char) :
    ∃ best, fuzzySubstringScore stems canon = some best := by
  obtain ⟨best, hbest, -⟩ := raises_foldlM
    (fun stem (_ : stem ∈ stems) best => fuzzyStem_raises canon best stem) ⟨0, none, none⟩
  exact ⟨best, hbest⟩

/-- **The stems with a doubled letter** are near to what is left of them: more than three of ten
trigrams are in both, and one letter is to be put in. -/
theorem doubled_window {stem : List Char}
    (h : stem = "logger".toList ∨ stem = "collect".toList) :
    3 ≤ (collapse stem).length ∧ (collapse stem).length = stem.length - 1 ∧
      3 / 10 < trigramSimilarity (collapse stem) stem ∧
      damerauLevenshtein (collapse stem) stem = some 1 := by
  rcases h with rfl | rfl
  · decide +kernel
  · decide +kernel

/-! ## What is caught -/

@[simp] theorem assessment_score (assessed : Nat × List (List Char)) :
    (assessment assessed).1 = assessed.1 := by
  unfold assessment
  split
  · rfl
  · rfl

/-- The score is the greater of the two. -/
theorem withFuzzy_score (fuzzy : FuzzyMatch) (assessed : Nat × List (List Char)) :
    (withFuzzy fuzzy assessed).1 = max assessed.1 fuzzy.score := by
  unfold withFuzzy
  split
  · next hbetter => exact (max_eq_right_of_lt hbetter.2).symm
  · exact (max_eq_left (by omega)).symm

/-- **An assessment that gets as far as the stems** is one of suspicion where the automaton finds
one or the windows score enough. -/
theorem assessDomain_caught {lower : List Char → List Char} {stems : List (List Char)}
    {domain : List Char} (hcanon : canonicalize lower domain ≠ [])
    (hfound : (∃ found, stemSearch stems (canonicalize lower domain) = some found) ∨
      ∃ best, fuzzySubstringScore stems (canonicalize lower domain) = some best ∧
        scoreThreshold ≤ best.score) :
    ∃ score reason, assessDomain lower stems domain = some (score, reason) ∧
      scoreThreshold ≤ score := by
  obtain ⟨best, hbest⟩ := fuzzySubstringScore_some stems (canonicalize lower domain)
  have hscore : scoreThreshold ≤
      (assessment (withFuzzy best (exactScore stems (canonicalize lower domain)))).1 := by
    rw [assessment_score, withFuzzy_score]
    rcases hfound with ⟨found, hfound⟩ | ⟨best', hbest', hscore⟩
    · refine le_trans ?_ (le_max_left _ _)
      rw [exactScore, hfound]
      show 75 ≤ 90
      decide
    · rw [hbest] at hbest'
      cases hbest'
      exact hscore.trans (le_max_right _ _)
  rw [assessDomain]
  -- listed domains are scored before the stems are looked for
  split
  · exact ⟨_, _, rfl, by decide⟩
  split
  · exact ⟨_, _, rfl, by decide⟩
  rw [if_neg hcanon, hbest]
  exact ⟨_, _, rfl, hscore⟩

/-- **A literal stem is caught**, in every name and in whatever order Python goes through the
stems: where a label of the name without its TLD has a stem in it, the score is that of a
suspicion. -/
theorem literal_stem_caught (lower : List Char → List Char) {stems : List (List Char)}
    (hstems : stems.Perm suspiciousStems) {domain stem label : List Char}
    (hstem : stem ∈ suspiciousStems) (hlabel : label ∈ (subTld (lower domain)).splitOn '.')
    (h : stem <:+: label) :
    ∃ score reason, assessDomain lower stems domain = some (score, reason) ∧
      scoreThreshold ≤ score := by
  have hmem : stem ∈ stems := hstems.mem_iff.mpr hstem
  have hname : stem <:+: subTld (lower domain) := h.trans (infix_of_mem_splitOn hlabel)
  have hcanon := collapse_infix_canonicalize hstem hname
  refine assessDomain_caught (canonicalize_ne_nil hstem hname) ?_
  rcases canonical_stems stem hstem with hself | hdoubled
  · rw [hself] at hcanon
    exact Or.inl (stemSearch_isSome hmem hcanon)
  · obtain ⟨hshort, hlen, hnear, hdist⟩ := doubled_window hdoubled
    have hsize : (collapse stem).length ∈ [stem.length - 1, stem.length, stem.length + 1] :=
      hlen ▸ List.mem_cons_self
    obtain ⟨best, hbest, hscore⟩ := fuzzySubstringScore_ge hmem hcanon hsize hshort hnear hdist
    exact Or.inr ⟨best, hbest, le_trans (show 75 ≤ 85 by decide) hscore⟩

/-- A name whose "logger" is "loger" when its separators and doubled letters are gone. -/
theorem literal_stem_caught_logger :
    ∃ score reason, assessDomain (List.map Char.toLower) suspiciousStems
        "My-Logger1.Shop.example.io".toList = some (score, reason) ∧ scoreThreshold ≤ score :=
  @literal_stem_caught (List.map Char.toLower) _ (List.Perm.refl _) _ "logger".toList
    "my-logger1".toList (by decide) (by decide) ⟨"my-".toList, "1".toList, by decide⟩

end Nyet
