import Nyet.Heuristics.Breakdown
import Nyet.Proxy.RepeatQueries
import Nyet.Proxy.ReviewRace

/-!
# From the score to the reviewer

`run_heuristics` scores a domain and `flag_for_review` appends a line to `review.tsv` if the
score crosses the threshold; the review tool reads the lines, counts the domains in their second
columns, and asks about those that it neither has a decision for nor protects. So what it asks
about are the domains that have 50 points, each once (`review_queue_exact`).
-/

namespace Nyet

/-! ## Flagging -/

/-- `compute_heuristic_score` as `run_heuristics` calls it. The domain of a parsed query always
has a score. -/
def heuristicScorer : Scorer := fun domain =>
  match computeHeuristicScore domain reasonSize with
  | some (score, reason) => (score.toBits, reason)
  | none => (0, [])

/-- A call of `run_heuristics`, with the time and whether `review.tsv` opens. -/
structure Scoring where
  domain : CStr
  now : Int
  openOk : Bool
  deriving DecidableEq, Repr

/-- The line of `flag_for_review`. -/
def Scoring.line (c : Scoring) (reason : CStr) : CStr :=
  rowText [cstr "REVIEW", sanitizeLogField c.domain maxDomainLen, cstr "heuristic",
    decimalInt c.now, decimalInt c.now, cstr "1", reason]

/-- What `run_heuristics` does to `review.tsv`. -/
def runHeuristicsFile (score : Scorer) (review : Option CStr) (c : Scoring) : Option CStr :=
  let (mlScore, reason) := score c.domain
  if crossesThreshold mlScore && c.openOk then some (review.getD [] ++ c.line reason) else review

/-- A call that writes a line. -/
def Scoring.flags (score : Scorer) (c : Scoring) : Bool :=
  crossesThreshold (score c.domain).1 && c.openOk

/-- A call writes what one of `flag_for_review` writes, so the file is one of those that
`flagForReviewFile` leaves. -/
theorem runHeuristicsFile_flagging {score : Scorer} {c : Scoring}
    (hline : newline ∉ (score c.domain).2) (review : Option CStr) :
    runHeuristicsFile score review c = flagForReviewFile review
      ⟨c.domain, (score c.domain).2, c.now, crossesThreshold (score c.domain).1, c.openOk, hline⟩ :=
  rfl

/-- **The file after some calls**: the lines of those that flag. -/
theorem foldl_runHeuristicsFile (score : Scorer) (scorings : List Scoring) (review : Option CStr) :
    (scorings.foldl (runHeuristicsFile score) review).getD [] = review.getD [] ++
      ((scorings.filter (Scoring.flags score)).map fun c => c.line (score c.domain).2).flatten := by
  induction scorings generalizing review with
  | nil => exact (List.append_nil _).symm
  | cons c scorings ih =>
    have hone : runHeuristicsFile score review c =
        if c.flags score then some (review.getD [] ++ c.line (score c.domain).2) else review := rfl
    rw [List.foldl_cons, ih, hone, List.filter_cons]
    split_ifs with hflags
    · rw [Option.getD_some, List.append_assoc, List.map_cons, List.flatten_cons]
    · rfl

/-! ## Reading the lines -/

/-- What Python's text functions do to ASCII. -/
structure Python.OnAscii (py : Python) : Prop where
  decode : ∀ bytes : CStr, (∀ c ∈ bytes, c < 128) →
    py.decode bytes = bytes.map fun c => Char.ofNat c.toNat
  lower : ∀ text : List Char, (∀ c ∈ text, c.toNat < 128) → py.lower text = text.map Char.toLower

theorem Python.onAscii_ascii : Python.ascii.OnAscii := ⟨fun _ _ => rfl, fun _ _ => rfl⟩

/-- ASCII bytes as text. -/
def asText (bytes : CStr) : List Char := bytes.map fun c => Char.ofNat c.toNat

theorem dropWhile_append_cons {p : Char → Bool} {c : Char} (hc : p c = false) (front back : List Char) :
    (front ++ c :: back).dropWhile p = front.dropWhile p ++ c :: back := by
  induction front with
  | nil => exact List.dropWhile_cons_of_neg (by rw [hc]; exact Bool.false_ne_true)
  | cons d front ih =>
    rw [List.cons_append, List.dropWhile_cons, List.dropWhile_cons, ih]
    split_ifs
    · rfl
    · rfl

/-- Stripping stops at the first and at the last character that is no space. -/
theorem pyStrip_append {first last : Char} (middle rest : List Char)
    (hfirst : pyIsSpace first = false) (hlast : pyIsSpace last = false) :
    ∃ rest', pyStrip (first :: (middle ++ last :: rest)) = first :: (middle ++ last :: rest') := by
  refine ⟨(rest.reverse.dropWhile pyIsSpace).reverse, ?_⟩
  have hfront : (first :: (middle ++ last :: rest)).dropWhile pyIsSpace =
      first :: (middle ++ last :: rest) := dropWhile_append_cons hfirst [] _
  have hreverse : (first :: (middle ++ last :: rest)).reverse =
      rest.reverse ++ last :: (first :: middle).reverse := by
    simp only [List.reverse_cons, List.reverse_append, List.append_assoc, List.cons_append,
      List.nil_append]
  rw [pyStrip, hfront, hreverse, dropWhile_append_cons hlast, List.reverse_append,
    List.reverse_cons, List.reverse_reverse, List.append_assoc]
  rfl

/-- A text without spaces is as it was. -/
theorem pyStrip_of_no_space {text : List Char} (h : ∀ c ∈ text, pyIsSpace c = false) :
    pyStrip text = text := by
  have hkeep : ∀ l : List Char, (∀ c ∈ l, pyIsSpace c = false) → l.dropWhile pyIsSpace = l := by
    intro l hl
    cases l with
    | nil => rfl
    | cons c l => exact dropWhile_append_cons (hl c List.mem_cons_self) [] l
  rw [pyStrip, hkeep text h, hkeep _ fun c hc => h c (List.mem_reverse.mp hc), List.reverse_reverse]

section

variable {py : Python}

/-- What Python's functions see in a byte of a name. -/
theorem char_of_nameByte : ∀ c : UInt8, isNameByte c = true ∨ c = dot →
    pyIsSpace (Char.ofNat c.toNat) = false ∧ Char.ofNat c.toNat ≠ '\t' ∧
      (Char.ofNat c.toNat).toNat < 128 ∧ (Char.ofNat c.toNat).toLower = Char.ofNat c.toNat :=
  forall_byte (by decide +kernel)

/-- **The second column of a line** is the domain it is about. -/
theorem domainKey_reviewLine (hpy : py.OnAscii) {domain : CStr} (hname : WireName maxDomainLen domain)
    (tail : CStr) :
    domainKey py (asText (cstr "REVIEW" ++ tab :: (domain ++ tab :: (cstr "heuristic" ++ tail)))) =
      some (asText domain) := by
  have hchar : ∀ d ∈ asText domain, pyIsSpace d = false ∧ d ≠ '\t' ∧ d.toNat < 128 ∧
      d.toLower = d := by
    intro d hd
    obtain ⟨c, hc, rfl⟩ := List.mem_map.mp hd
    exact char_of_nameByte c (hname.bytes c hc)
  -- the line begins and ends with a letter, so stripping it leaves its columns alone
  have htext : asText (cstr "REVIEW" ++ tab :: (domain ++ tab :: (cstr "heuristic" ++ tail))) =
      'R' :: ("EVIEW\t".toList ++ asText domain ++ "\theuristi".toList ++ 'c' :: asText tail) := by
    rw [asText, List.map_append, List.map_cons, List.map_append, List.map_cons, List.map_append,
      List.append_assoc, List.append_assoc]
    rfl
  obtain ⟨rest, hstrip⟩ := @pyStrip_append 'R' 'c'
    ("EVIEW\t".toList ++ asText domain ++ "\theuristi".toList) (asText tail) (by decide) (by decide)
  have hcolumns : 'R' :: ("EVIEW\t".toList ++ asText domain ++ "\theuristi".toList ++ 'c' :: rest) =
      "REVIEW".toList ++ '\t' :: (asText domain ++ '\t' :: ("heuristi".toList ++ 'c' :: rest)) := by
    rw [List.append_assoc, List.append_assoc]
    rfl
  have hdomain : '\t' ∉ asText domain := fun h => (hchar _ h).2.1 rfl
  rw [domainKey, htext, hstrip, hcolumns, List.splitOn_append_cons_self,
    List.splitOn_eq_singleton (by decide), List.splitOn_append_cons_self,
    List.splitOn_eq_singleton hdomain]
  show some (py.lower (pyStrip (asText domain))) = _
  rw [pyStrip_of_no_space fun c hc => (hchar c hc).1, hpy.lower _ fun c hc => (hchar c hc).2.2.1]
  exact congrArg some ((List.map_congr_left fun c hc => (hchar c hc).2.2.2).trans (List.map_id _))

/-- A line of a file: what can be printed and tabs, and a newline at the end. -/
def PlainLine (line : CStr) : Prop :=
  ∃ text, line = text ++ [newline] ∧ ∀ c ∈ text, isPrint c = true ∨ c = tab

theorem char_of_plainByte : ∀ c : UInt8, (isPrint c = true ∨ c = tab) ∨ c = newline →
    c < 128 ∧ Char.ofNat c.toNat ≠ '\r' ∧ (Char.ofNat c.toNat = '\n' → c = newline) :=
  forall_byte (by decide +kernel)

/-- **A file of plain lines** is read line by line. -/
theorem fileLines_flatten (hpy : py.OnAscii) {lines : List CStr}
    (hlines : ∀ line ∈ lines, PlainLine line) :
    fileLines py lines.flatten = lines.map asText := by
  have hbyte : ∀ c ∈ lines.flatten, (isPrint c = true ∨ c = tab) ∨ c = newline := by
    intro c hc
    obtain ⟨line, hline, hmem⟩ := List.mem_flatten.mp hc
    obtain ⟨text, rfl, htext⟩ := hlines line hline
    rcases List.mem_append.mp hmem with hmem | hmem
    · exact Or.inl (htext c hmem)
    · exact Or.inr (List.mem_singleton.mp hmem)
  -- no carriage returns, so universal newlines change nothing
  have hreturns : universalNewlines (asText lines.flatten) = asText lines.flatten := by
    refine (List.map_congr_left fun d hd => ?_).trans (List.map_id _)
    obtain ⟨c, hc, rfl⟩ := List.mem_map.mp hd
    exact if_neg (char_of_plainByte c (hbyte c hc)).2.1
  rw [fileLines, hpy.decode _ fun c hc => (char_of_plainByte c (hbyte c hc)).1]
  show pyLines (universalNewlines (asText lines.flatten)) = _
  rw [hreturns]
  clear hbyte hreturns
  induction lines with
  | nil => rfl
  | cons line lines ih =>
    obtain ⟨text, rfl, htext⟩ := hlines line List.mem_cons_self
    have hnewline : '\n' ∉ asText text := by
      intro hmem
      obtain ⟨c, hc, heq⟩ := List.mem_map.mp hmem
      have hend := (char_of_plainByte c (Or.inl (htext c hc))).2.2 heq
      rcases htext c hc with hprint | htab
      · rw [hend] at hprint
        exact absurd hprint (by decide)
      · rw [hend] at htab
        exact absurd htab (by decide)
    have hsplit : asText (text ++ [newline]) = asText text ++ ['\n'] := List.map_append
    have hwhole : asText ((text ++ [newline]) :: lines).flatten =
        (asText text ++ ['\n']) ++ asText lines.flatten := by
      rw [List.flatten_cons, ← hsplit]
      exact List.map_append
    rw [hwhole, pyLines_append _ (Or.inr (List.getLast?_concat)), pyLines_single hnewline,
      ih fun l hl => hlines l (List.mem_cons_of_mem _ hl), List.map_cons, hsplit]
    rfl

end

/-! ## The queue -/

/-- The domains with their counts. -/
theorem domainCounts_eq (py : Python) (lines : List (List Char)) :
    domainCounts py lines = Lib.Dict.table (Lib.Dict.firsts (lines.filterMap (domainKey py)))
      fun d => (lines.filterMap (domainKey py)).countP (· = d) :=
  Lib.Dict.foldl_count _

/-- A call with a parsed domain writes a line that can be read back. -/
theorem Scoring.line_eq {c : Scoring} (hname : WireName maxDomainLen c.domain) (reason : CStr) :
    ∃ tail, c.line reason =
        cstr "REVIEW" ++ tab :: (c.domain ++ tab :: (cstr "heuristic" ++ tail)) ∧
      ((∀ b ∈ reason, isPrint b = true) → PlainLine (c.line reason)) := by
  refine ⟨tab :: (decimalInt c.now ++ tab :: (decimalInt c.now ++ tab ::
    (cstr "1" ++ tab :: (reason ++ [newline])))), ?_, fun hreason => ?_⟩
  · rw [Scoring.line, hname.sanitize]
    simp only [rowText, tabbed_cons_cons, tabbed_singleton, List.append_assoc, List.cons_append]
  · refine ⟨_, rfl, fun b hb => ?_⟩
    rcases mem_tabbed hb with rfl | ⟨field, hfield, hmem⟩
    · exact Or.inr rfl
    have hfixed : ∀ column ∈ [cstr "REVIEW", cstr "heuristic", cstr "1"], ∀ b ∈ column,
        isPrint b = true := by decide +kernel
    refine Or.inl ?_
    simp only [List.mem_cons, List.not_mem_nil, or_false] at hfield
    rcases hfield with rfl | rfl | rfl | rfl | rfl | rfl | rfl
    · exact hfixed _ (by simp) b hmem
    · exact isPrint_sanitizeLogField b hmem
    · exact hfixed _ (by simp) b hmem
    · exact isPrint_decimalInt hmem
    · exact isPrint_decimalInt hmem
    · exact hfixed _ (by simp) b hmem
    · exact hreason b hmem

/-- What is asked about. -/
theorem mem_openQueue {py : Python} {processed lines : List (List Char)} {d : List Char} :
    d ∈ openQueue py processed lines ↔
      d ∈ (domainCounts py lines).keys ∧ d ∉ processed ∧ isProtectedDomain py d = false := by
  rw [openQueue, protectedHits, List.mem_filter, List.mem_filter, decide_eq_true_iff,
    decide_eq_true_iff, List.mem_filter, List.mem_filter, decide_eq_true_iff, and_assoc]
  refine and_congr_right fun hkey => and_congr_right fun hnew => ?_
  rw [not_and, Bool.not_eq_true]
  exact ⟨fun h => h ⟨hkey, hnew⟩, fun h _ => h⟩

/-- Scored domains whose reasons can be printed. -/
def Scoring.Parsed (score : Scorer) (c : Scoring) : Prop :=
  WireName maxDomainLen c.domain ∧ ∀ b ∈ (score c.domain).2, isPrint b = true

/-- The keys of the lines that some calls write. -/
theorem keys_of_scorings {py : Python} (hpy : py.OnAscii) {score : Scorer} {scorings : List Scoring}
    (hparsed : ∀ c ∈ scorings, c.Parsed score) :
    (fileLines py ((scorings.foldl (runHeuristicsFile score) none).getD [])).filterMap
        (domainKey py) =
      (scorings.filter (Scoring.flags score)).map fun c => asText c.domain := by
  rw [foldl_runHeuristicsFile, Option.getD_none, List.nil_append, fileLines_flatten hpy,
    List.map_map, List.filterMap_map, ← List.filterMap_eq_map]
  · refine List.filterMap_congr fun c hc => ?_
    have hname := (hparsed c (List.mem_of_mem_filter hc)).1
    obtain ⟨tail, hline, -⟩ := Scoring.line_eq hname (score c.domain).2
    show domainKey py (asText (c.line (score c.domain).2)) = _
    rw [hline, domainKey_reviewLine hpy hname]
    rfl
  · intro line hline
    obtain ⟨c, hc, rfl⟩ := List.mem_map.mp hline
    obtain ⟨hname, hreason⟩ := hparsed c (List.mem_of_mem_filter hc)
    obtain ⟨-, -, hplain⟩ := Scoring.line_eq hname (score c.domain).2
    exact hplain hreason

/-- What `run_heuristics` gets for a parsed query. -/
theorem heuristicScorer_parsed {domain : CStr} (hname : WireName maxDomainLen domain) :
    (∀ b ∈ (heuristicScorer domain).2, isPrint b = true) ∧
      (crossesThreshold (heuristicScorer domain).1 = true ↔ ∃ s : Signals, s.Exact domain ∧
        50 ≤ s.points ∧ ¬ ShortByRounding s.base s.labelChecks s.words) := by
  obtain ⟨s, hexact, hscore⟩ := computeHeuristicScore_parsed hname
  rw [heuristicScorer, hscore]
  refine ⟨isPrint_reason (space_not_mem_twoPlaces _) fun c hc => isPrint_twoPlaces hc, ?_⟩
  have hbits : crossesThreshold s.score.toBits = true ↔ 0.5 ≤ s.score := by
    rw [crossesThreshold, Bool.and_eq_true, decide_eq_true_iff, decide_eq_true_iff]
    exact s.scores.bits
  rw [hbits, s.scores.crosses]
  constructor
  · rintro ⟨hpoints, hshort⟩
    exact ⟨s, hexact, hpoints, hshort⟩
  · rintro ⟨s', hexact', hpoints, hshort⟩
    rw [hexact'.unique hexact] at hpoints hshort
    exact ⟨hpoints, hshort⟩

/-- **The reviewer is asked about what the score flagged**, and about nothing else: each parsed
domain of 50 points that was scored while the file could be opened, unless there is a decision
for it or it is protected, once, with the number of times it was flagged. -/
theorem review_queue_exact {py : Python} (hpy : py.OnAscii) {scorings : List Scoring}
    (hparsed : ∀ c ∈ scorings, ∃ packet qtype,
      parseQuery packet maxDomainLen = some (c.domain, qtype)) (processed : List (List Char)) :
    let lines := fileLines py ((scorings.foldl (runHeuristicsFile heuristicScorer) none).getD [])
    (openQueue py processed lines).Nodup ∧ ∀ d : List Char,
      (d ∈ openQueue py processed lines ↔
        d ∉ processed ∧ isProtectedDomain py d = false ∧
          ∃ c ∈ scorings, asText c.domain = d ∧ c.openOk = true ∧ ∃ s : Signals,
            s.Exact c.domain ∧ 50 ≤ s.points ∧ ¬ ShortByRounding s.base s.labelChecks s.words) ∧
      ((domainCounts py lines).get? d).getD 0 =
        (scorings.filter (Scoring.flags heuristicScorer)).countP (asText ·.domain = d) := by
  have hname : ∀ c ∈ scorings, WireName maxDomainLen c.domain := by
    intro c hc
    obtain ⟨packet, qtype, hquery⟩ := hparsed c hc
    exact parseQuery_wireName hquery
  have hkeys := keys_of_scorings hpy fun c hc =>
    ⟨hname c hc, (heuristicScorer_parsed (hname c hc)).1⟩
  intro lines
  change lines.filterMap (domainKey py) = _ at hkeys
  have hcounts := domainCounts_eq py lines
  rw [hkeys] at hcounts
  -- the keys that are counted are the flagged domains, each once
  have hcounted : (domainCounts py lines).keys = Lib.Dict.firsts
      ((scorings.filter (Scoring.flags heuristicScorer)).map fun c => asText c.domain) := by
    rw [hcounts, Lib.Dict.keys_table]
  have hflags : ∀ c ∈ scorings, c.flags heuristicScorer = true ↔ c.openOk = true ∧
      ∃ s : Signals, s.Exact c.domain ∧ 50 ≤ s.points ∧
        ¬ ShortByRounding s.base s.labelChecks s.words := by
    intro c hc
    rw [Scoring.flags, Bool.and_eq_true, (heuristicScorer_parsed (hname c hc)).2, and_comm]
  refine ⟨?_, fun d => ⟨?_, ?_⟩⟩
  · refine List.Nodup.filter _ (List.Nodup.filter _ ?_)
    rw [hcounted]
    exact Lib.Dict.nodup_firsts _
  · rw [mem_openQueue, hcounted, Lib.Dict.mem_firsts, List.mem_map]
    constructor
    · rintro ⟨⟨c, hc, hd⟩, hnew, hprotected⟩
      obtain ⟨hmem, hflag⟩ := List.mem_filter.mp hc
      exact ⟨hnew, hprotected, c, hmem, hd, (hflags c hmem).mp hflag⟩
    · rintro ⟨hnew, hprotected, c, hmem, hd, hflag⟩
      exact ⟨⟨c, List.mem_filter.mpr ⟨hmem, (hflags c hmem).mpr hflag⟩, hd⟩, hnew, hprotected⟩
  · rw [hcounts, Lib.Dict.get?_table, List.countP_map]
    split_ifs with hmem
    · rfl
    · refine (List.countP_eq_zero.mpr fun c hc heq => hmem ?_).symm
      exact Lib.Dict.mem_firsts.mpr (List.mem_map.mpr ⟨c, hc, of_decide_eq_true heq⟩)

/-- A run of three calls; two are for one domain. -/
theorem review_queue_exact_three :
    let scorings : List Scoring :=
      [⟨cstr "bcdfg0123456789.com", 5, true⟩, ⟨cstr "example.com", 6, true⟩,
        ⟨cstr "bcdfg0123456789.com", 7, true⟩]
    let lines := fileLines .ascii
      ((scorings.foldl (runHeuristicsFile heuristicScorer) none).getD [])
    (openQueue .ascii [] lines).Nodup ∧ ∀ d : List Char,
      (d ∈ openQueue .ascii [] lines ↔
        d ∉ ([] : List (List Char)) ∧ isProtectedDomain .ascii d = false ∧
          ∃ c ∈ scorings, asText c.domain = d ∧ c.openOk = true ∧ ∃ s : Signals,
            s.Exact c.domain ∧ 50 ≤ s.points ∧ ¬ ShortByRounding s.base s.labelChecks s.words) ∧
      ((domainCounts .ascii lines).get? d).getD 0 =
        (scorings.filter (Scoring.flags heuristicScorer)).countP (asText ·.domain = d) :=
  review_queue_exact Python.onAscii_ascii (fun c hc => by
    simp only [List.mem_cons, List.not_mem_nil, or_false] at hc
    rcases hc with rfl | rfl | rfl
    · exact ⟨queryPacket 1 [cstr "bcdfg0123456789", cstr "com"] 1, 1, by decide +kernel⟩
    · exact ⟨queryPacket 1 [cstr "example", cstr "com"] 1, 1, by decide +kernel⟩
    · exact ⟨queryPacket 1 [cstr "bcdfg0123456789", cstr "com"] 1, 1, by decide +kernel⟩) []

end Nyet
