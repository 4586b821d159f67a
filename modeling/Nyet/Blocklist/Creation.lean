import Nyet.Blocklist.BlockLines
import Nyet.Blocklist.Coverage
import Nyet.Blocklist.Validator

/-!
# A blocklist from a raw list (`create_blocklist_tsv.py`)

`main` writes a `B` row for each line of a raw list that is neither empty nor a comment. NFKD and
the notes of `classify_domain` are parameters. Whatever they are, a row is in effect if
`radix_insert` accepts its domain and its line fits the loader's buffer, and the tree BLOCKS what
is at or below such a domain and nothing else (`created_list_blocks`). `verify_tsv` reports the
domains that are no host names and the notes that are blank, and nothing else
(`created_list_checked`).
-/

namespace Nyet

/-! ## The script -/

/-- `replacements` -/
def replacements : List (Char × Char) :=
  [(0x2010, 45), (0x2011, 45), (0x2012, 45), (0x2013, 45), (0x2014, 45), (0x2015, 45),
    (0x2212, 45), (0x00A0, 32), (0x2018, 39), (0x2019, 39), (0x201C, 34), (0x201D, 34)].map
      fun r => (Char.ofNat r.1, Char.ofNat r.2)

section Script

variable (py : Python) (nfkd classify : List Char → List Char)

/-- `strict_ascii_clean` -/
def strictAsciiClean (text : List Char) : List Char :=
  let replaced :=
    replacements.foldl (fun text r => text.map fun c => if c = r.1 then r.2 else c) text
  -- `encode("ascii", errors="ignore")`
  let ascii := (nfkd replaced).filter fun c => c.toNat < 128
  ascii.filter fun c => 32 ≤ c.toNat && c.toNat ≤ 126

/-- The domain of a line; `none` if the line is skipped. -/
def listedDomain (line : List Char) : Option (List Char) :=
  let raw := pyStrip line
  if raw = [] ∨ raw.head? = some '#' then none
  else
    let domain := strictAsciiClean nfkd raw
    if domain = [] then none else some domain

/-- The domains of a raw list, in its order. -/
def listedDomains (input : CStr) : List (List Char) :=
  (fileLines py input).filterMap (listedDomain nfkd)

/-- The note of a domain. -/
def noteFor (domain : List Char) : List Char :=
  strictAsciiClean nfkd ((classify domain).map fun c => if c = '\t' ∨ c = '\n' then ' ' else c)

/-- What is appended to `out_lines`. -/
def outLine (currentTime : Int) (domain : List Char) : List Char :=
  let time := (toString currentTime).toList
  "B\t".toList ++ domain ++ "\tS\t".toList ++ time ++ "\t".toList ++ time ++ "\t1\t60\t".toList ++
    noteFor nfkd classify domain

/-- The text of `output.tsv`. -/
def createdText (input : CStr) (currentTime : Int) : List Char :=
  let outLines := (listedDomains py nfkd input).map (outLine nfkd classify currentTime)
  ['\n'].intercalate outLines ++ if outLines = [] then [] else ['\n']

/-- `main`: what `output.tsv` holds; `none` if `encoding='ascii'` makes it raise. -/
def createBlocklistTsv (input : CStr) (currentTime : Int) : Option CStr :=
  let text := createdText py nfkd classify input currentTime
  if text.all fun c => c.toNat < 128 then some (utf8 text) else none

/-! ## Its lines -/

/-- The columns of a line. -/
def createdLine (currentTime : Int) (domain : List Char) : BlockLine :=
  ⟨domain, 'S', currentTime, 60, noteFor nfkd classify domain⟩

def createdLines (input : CStr) (currentTime : Int) : List BlockLine :=
  (listedDomains py nfkd input).map (createdLine nfkd classify currentTime)

variable {py nfkd classify} {input : CStr} {currentTime : Int}

theorem printable_strictAsciiClean {text : List Char} {c : Char}
    (h : c ∈ strictAsciiClean nfkd text) : Printable c := by
  have hkept := (List.mem_filter.mp h).2
  rw [Bool.and_eq_true_iff, decide_eq_true_eq, decide_eq_true_eq] at hkept
  exact ⟨hkept.1, Nat.lt_succ_of_le hkept.2⟩

theorem mem_listedDomains {domain : List Char} (h : domain ∈ listedDomains py nfkd input) :
    domain ≠ [] ∧ ∀ c ∈ domain, Printable c := by
  obtain ⟨line, -, hline⟩ := List.mem_filterMap.mp h
  rw [listedDomain] at hline
  dsimp only at hline
  split at hline
  · cases hline
  · split at hline
    · cases hline
    · next hne =>
      cases hline
      exact ⟨hne, fun c => printable_strictAsciiClean⟩

theorem createdLines_legible {l : BlockLine}
    (h : l ∈ createdLines py nfkd classify input currentTime) : l.Legible := by
  obtain ⟨domain, hdomain, rfl⟩ := List.mem_map.mp h
  obtain ⟨hne, hprintable⟩ := mem_listedDomains hdomain
  refine ⟨fun c hc => ?_, hne⟩
  rcases List.mem_append.mp hc with hc | hc
  · exact hprintable c hc
  · rcases List.mem_cons.mp hc with rfl | hc
    · exact (show 32 ≤ 'S'.toNat ∧ 'S'.toNat < 127 by decide)
    · exact printable_strictAsciiClean hc

theorem outLine_end (domain : List Char) :
    outLine nfkd classify currentTime domain ++ ['\n'] =
      (createdLine nfkd classify currentTime domain).text := by
  have hflag : "\tS\t".toList = "\t".toList ++ ['S'] ++ "\t".toList := by decide
  have hcolumns : "\t1\t60\t".toList =
      "\t1\t".toList ++ (Nat.toDigits 10 60 ++ "\t".toList) := by decide
  have hend : "\n".toList = ['\n'] := by decide
  unfold outLine createdLine BlockLine.text
  rw [hflag, hcolumns, hend]
  simp only [List.append_assoc]

/-- Lines that are joined and ended are lines with their ends. -/
theorem intercalate_ended (lines : List (List Char)) :
    (['\n'].intercalate lines ++ if lines = [] then [] else ['\n']) =
      (lines.map (· ++ ['\n'])).flatten := by
  induction lines with
  | nil => rfl
  | cons line lines ih =>
    rw [if_neg (List.cons_ne_nil _ _), List.map_cons, List.flatten_cons, ← ih]
    cases lines with
    | nil => rw [List.intercalate_singleton, if_pos rfl]; simp
    | cons other lines =>
      rw [List.intercalate_cons_cons, if_neg (List.cons_ne_nil _ _)]
      simp only [List.append_assoc]

theorem createdText_eq : createdText py nfkd classify input currentTime =
    ((createdLines py nfkd classify input currentTime).map BlockLine.text).flatten := by
  rw [createdText]
  rw [intercalate_ended, createdLines, List.map_map, List.map_map]
  exact congrArg List.flatten (List.map_congr_left fun domain _ => outLine_end domain)

/-- The script never raises. -/
theorem createBlocklistTsv_eq : createBlocklistTsv py nfkd classify input currentTime =
    some (utf8 (createdText py nfkd classify input currentTime)) := by
  refine if_pos (List.all_eq_true.mpr fun c hc => decide_eq_true ?_)
  rw [createdText_eq] at hc
  obtain ⟨text, htext, hmem⟩ := List.mem_flatten.mp hc
  obtain ⟨l, hl, rfl⟩ := List.mem_map.mp htext
  exact (createdLines_legible hl).ascii c hmem

end Script

/-! ## What the loader makes of them -/

/-- A line whose row is in effect: it fits `line`, and `radix_insert` accepts its domain. -/
def BlockLine.InEffect (l : BlockLine) : Prop :=
  Insertable (utf8 l.domain) ∧ l.text.length ≤ lineBufSize - 1

/-- The rows of lines that can be read. -/
theorem rowsOf_lines (now : UInt32) {lines : List BlockLine} (h : ∀ l ∈ lines, l.Legible) :
    let rows := rowsOf now (some (utf8 (lines.map BlockLine.text).flatten))
    (∀ row ∈ rows, row.entry.status = .blocked) ∧
      ∀ ls, (∃ row ∈ rows, row.Loaded ∧ normalise row.domain <+: ls) ↔
        ∃ l ∈ lines, l.InEffect ∧ pathOf l.domain <+: ls := by
  -- every line is ended, so none runs into the next and each is read by itself
  have hended : (lines.map BlockLine.text).Pairwise fun line _ => line.getLast? = some '\n' := by
    refine List.pairwise_of_forall_mem_list fun line hline _ _ => ?_
    obtain ⟨l, -, rfl⟩ := List.mem_map.mp hline
    exact l.getLast?_text
  have hrows := textRows_flatten now hended
  rw [textRows] at hrows
  dsimp only
  rw [hrows]
  refine ⟨fun row hrow => ?_, fun ls => ⟨?_, ?_⟩⟩
  · obtain ⟨text, htext, hmem⟩ := List.mem_flatMap.mp hrow
    obtain ⟨l, hl, rfl⟩ := List.mem_map.mp htext
    obtain ⟨e, hst, hrow⟩ := (h l hl).textRows now
    rw [hrow] at hmem
    split at hmem
    · rw [List.mem_singleton.mp hmem]
      exact hst
    · cases hmem
  · rintro ⟨row, hrow, hloaded, hpre⟩
    obtain ⟨text, htext, hmem⟩ := List.mem_flatMap.mp hrow
    obtain ⟨l, hl, rfl⟩ := List.mem_map.mp htext
    obtain ⟨e, -, hrow⟩ := (h l hl).textRows now
    rw [hrow] at hmem
    split at hmem
    · next hfits =>
      rw [List.mem_singleton.mp hmem] at hloaded hpre
      exact ⟨l, hl, ⟨hloaded, hfits⟩, hpre⟩
    · cases hmem
  · rintro ⟨l, hl, ⟨hloaded, hfits⟩, hpre⟩
    obtain ⟨e, -, hrow⟩ := (h l hl).textRows now
    rw [if_pos hfits] at hrow
    refine ⟨⟨utf8 l.domain, e⟩, List.mem_flatMap.mpr ⟨l.text, List.mem_map_of_mem hl, ?_⟩, hloaded,
      hpre⟩
    rw [hrow]
    exact List.mem_singleton_self _

/-- **A created list blocks what it lists**: whatever the raw list, the time, NFKD and the notes,
the file is written, the tree loaded from it BLOCKS exactly the names at or below a domain whose
row is in effect, and it ALLOWS nothing. -/
theorem created_list_blocks (py : Python) (nfkd classify : List Char → List Char) (input : CStr)
    (currentTime : Int) :
    ∃ file, createBlocklistTsv py nfkd classify input currentTime = some file ∧
      ∀ (now asked : UInt32) (q : CStr),
        ((radixLookup (initialTree now (some file) none) asked q).1.outcome = some .blocked ↔
          q.length < labelBufSize ∧
            ∃ l ∈ createdLines py nfkd classify input currentTime,
              l.InEffect ∧ pathOf l.domain <+: normalise q) ∧
        (radixLookup (initialTree now (some file) none) asked q).1.outcome ≠ some .allowed := by
  refine ⟨_, createBlocklistTsv_eq, fun now asked q => ?_⟩
  obtain ⟨hblocked, hlines⟩ := rowsOf_lines now fun l hl =>
    @createdLines_legible py nfkd classify input currentTime l hl
  rw [← createdText_eq] at hblocked hlines
  have htree := initialTree_refines now
    (some (utf8 (createdText py nfkd classify input currentTime))) none
  rw [show rowsOf now none = [] from rfl, List.append_nil] at htree
  rw [ne_eq, lookup_allowed_iff htree, lookup_blocked_iff htree, covered_blocked_iff hblocked,
    hlines]
  have hallowed := not_covered_allowed hblocked (normalise q)
  exact ⟨and_congr_right fun _ => and_iff_left hallowed, fun h => hallowed h.2⟩

/-! ## What the validator finds -/

/-- What `verify_tsv` says about a line that can be read. -/
def BlockLine.findings (l : BlockLine) (lineNum : Nat) : List Finding :=
  report (!matchesDomainRe l.domain || 253 < l.domain.length)
    ⟨.domainFormat, lineNum, String.ofList l.domain⟩ ++
  report (pyStrip l.note = []) ⟨.emptyReason, lineNum, "empty"⟩

theorem BlockLine.isValid_findings (l : BlockLine) (lineNum : Nat) :
    isValid (l.findings lineNum) = true ↔ matchesDomainRe l.domain = true ∧
      l.domain.length ≤ 253 ∧ pyStrip l.note ≠ [] := by
  have hreport : ∀ (bad : Bool) (finding : Finding), finding.category.isWarning = false →
      (isValid (report bad finding) = true ↔ bad = false) := by
    intro bad finding hwarning
    cases bad
    · simp [isValid, report]
    · simp [isValid, report, hwarning]
  rw [findings, isValid, List.all_append, Bool.and_eq_true_iff]
  refine (and_congr (hreport _ _ rfl) (hreport _ _ rfl)).trans ?_
  simp [and_assoc]

theorem rstripLineEnd_end {row : List Char} (h : ∀ c ∈ row, isLineEnd c = false) :
    rstripLineEnd (row ++ ['\n']) = row := by
  induction row with
  | nil => decide
  | cons c row ih =>
    rw [List.cons_append, rstripLineEnd_cons (h c List.mem_cons_self),
      ih fun d hd => h d (List.mem_cons_of_mem _ hd)]

theorem isLineEnd_of_printable {c : Char} (h : Printable c ∨ c = '\t') : isLineEnd c = false := by
  rcases h with h | rfl
  · have hne : ∀ d : Char, d.toNat < 32 → c ≠ d := by
      rintro d hd rfl
      exact absurd h.1 (Nat.not_le_of_lt hd)
    rw [isLineEnd, decide_eq_false (hne _ (by decide)), decide_eq_false (hne _ (by decide))]
    rfl
  · decide

theorem pyIsDigit_toDigits (otherDigit : Char → Bool) (n : Nat) :
    pyIsDigit otherDigit (Nat.toDigits 10 n) = true := by
  rw [pyIsDigit, Bool.and_eq_true_iff, List.all_eq_true]
  refine ⟨by simp, fun c hc => ?_⟩
  rw [Nat.isDigit_of_mem_toDigits (by decide) (by decide) hc, Bool.true_or]

theorem toList_positive {t : Int} (h : 0 < t) : (toString t).toList = Nat.toDigits 10 t.toNat := by
  rw [Int.toString_eq_repr, Int.repr_eq_if, if_pos (Int.le_of_lt h), Nat.toList_repr]

section Checked

variable {l : BlockLine}

/-- The columns, with a tab between two. -/
def BlockLine.fields (l : BlockLine) : List (List Char) :=
  [['B'], l.domain, [l.flag], (toString l.time).toList, (toString l.time).toList, ['1'],
    Nat.toDigits 10 l.ttl, l.note]

theorem BlockLine.text_eq (l : BlockLine) : l.text = ['\t'].intercalate l.fields ++ ['\n'] := by
  have hfirst : "B\t".toList = ['B', '\t'] := by decide
  have htab : "\t".toList = ['\t'] := by decide
  have hhits : "\t1\t".toList = ['\t', '1', '\t'] := by decide
  have hlast : "\n".toList = ['\n'] := by decide
  unfold text fields
  rw [hfirst, htab, hhits, hlast]
  simp only [List.intercalate_cons_cons, List.intercalate_singleton, List.append_assoc,
    List.cons_append, List.nil_append]

theorem BlockLine.Legible.fields (h : l.Legible) :
    ∀ field ∈ l.fields, ∀ c ∈ field, Printable c := by
  have htime : ∀ c ∈ (toString l.time).toList, Printable c := fun c => printable_time
  have httl : ∀ c ∈ Nat.toDigits 10 l.ttl, Printable c := fun c => printable_toDigits
  have hfixed : Printable 'B' ∧ Printable '1' := ⟨⟨by decide, by decide⟩, by decide, by decide⟩
  have hflag := h.flag l.flag (List.mem_singleton_self _)
  rw [BlockLine.fields]
  simp only [List.forall_mem_cons, List.not_mem_nil, false_imp_iff, implies_true, and_true]
  exact ⟨hfixed.1, h.domain, hflag, htime, htime, hfixed.2, httl, h.note⟩

theorem BlockLine.Legible.split (h : l.Legible) :
    (['\t'].intercalate l.fields).splitOn '\t' = l.fields := by
  refine List.splitOn_intercalate '\t' (fun field hfield hmem => ?_) (List.cons_ne_nil _ _)
  have hprintable := h.fields field hfield '\t' hmem
  exact absurd hprintable.1 (by decide)

theorem BlockLine.Legible.columnsOf (h : l.Legible) :
    columnsOf (['\t'].intercalate l.fields) =
      some ⟨['B'], l.domain, [l.flag], (toString l.time).toList, (toString l.time).toList, ['1'],
        some (Nat.toDigits 10 l.ttl), l.note⟩ := by
  rw [Nyet.columnsOf]
  rw [h.split]
  rfl

theorem BlockLine.Legible.chars (h : l.Legible) :
    ∀ c ∈ ['\t'].intercalate l.fields, Printable c ∨ c = '\t' := by
  intro c hc
  by_cases htab : c = '\t'
  · exact Or.inr htab
  · obtain ⟨field, hfield, hmem⟩ := mem_splitOnP_of_mem (p := (· == '\t')) (by simpa using htab) hc
    rw [← List.splitOn_eq_splitOnP, h.split] at hfield
    exact Or.inl (h.fields field hfield c hmem)

/-- **A line that can be read** has nothing wrong with it but its domain and its note. -/
theorem BlockLine.Legible.checkLine (h : l.Legible) (htime : 0 < l.time)
    {otherDigit : Char → Bool} {int : List Char → Option Nat}
    (hint : int (Nat.toDigits 10 l.time.toNat) = some l.time.toNat) (lineNum : Nat) :
    checkLine otherDigit int lineNum l.text = some (l.findings lineNum) := by
  have hprintable : ∀ c, Printable c ∨ c = '\t' → isPrintableOrTab c = true := by
    intro c hc
    rw [isPrintableOrTab]
    simp only [Bool.or_eq_true, Bool.and_eq_true, decide_eq_true_eq]
    exact hc.imp_left fun hc => ⟨hc.1, Nat.le_of_lt_succ hc.2⟩
  have hpositive := toList_positive htime
  have hvalue : l.time.toNat ≠ 0 := by omega
  -- both stamps are the same positive number, so no check of them reports
  have htimes : checkTimes otherDigit int lineNum (toString l.time).toList
      (toString l.time).toList = some [] := by
    rw [checkTimes, hpositive, pyIsDigit_toDigits, hint]
    simp [hvalue, report]
  have hall : (['\t'].intercalate l.fields).all isPrintableOrTab = true :=
    List.all_eq_true.mpr fun c hc => hprintable c (h.chars c hc)
  have hne : ['\t'].intercalate l.fields ≠ [] := by
    intro hnil
    have hsplit := h.split
    rw [hnil] at hsplit
    cases hsplit
  have hone : pyIsDigit otherDigit ['1'] = true := pyIsDigit_toDigits otherDigit 1
  rw [Nyet.checkLine]
  dsimp only
  rw [l.text_eq, rstripLineEnd_end fun c hc => isLineEnd_of_printable (h.chars c hc), if_neg hne,
    hall, h.columnsOf]
  dsimp only
  rw [htimes, Option.map_some, hone]
  simp [report, BlockLine.findings, pyIsDigit_toDigits]

end Checked

/-- Python takes lines that can be read one by one. -/
theorem pyLines_lines {lines : List BlockLine} (h : ∀ l ∈ lines, l.Legible) :
    pyLines (universalNewlines (lines.map BlockLine.text).flatten) = lines.map BlockLine.text := by
  have hended : (lines.map BlockLine.text).Pairwise fun line _ => line.getLast? = some '\n' := by
    refine List.pairwise_of_forall_mem_list fun line hline _ _ => ?_
    obtain ⟨l, -, rfl⟩ := List.mem_map.mp hline
    exact l.getLast?_text
  have hinner : ∀ l ∈ lines, ∀ c ∈ ['\t'].intercalate l.fields, c ≠ '\r' ∧ c ≠ '\n' := by
    intro l hl c hc
    have hend := isLineEnd_of_printable ((h l hl).chars c hc)
    rw [isLineEnd, Bool.or_eq_false_iff, decide_eq_false_iff_not, decide_eq_false_iff_not] at hend
    exact hend.symm
  have hsame : universalNewlines (lines.map BlockLine.text).flatten =
      (lines.map BlockLine.text).flatten := by
    refine (List.map_congr_left fun c hc => if_neg ?_).trans (List.map_id _)
    obtain ⟨text, htext, hmem⟩ := List.mem_flatten.mp hc
    obtain ⟨l, hl, rfl⟩ := List.mem_map.mp htext
    rw [l.text_eq, List.mem_append, List.mem_singleton] at hmem
    rcases hmem with hmem | rfl
    · exact (hinner l hl c hmem).1
    · decide
  rw [hsame, make_flatten rfl (fun line back hline => pyLines_append back (Or.inr hline)) hended,
    List.flatMap_map, List.map_eq_flatMap]
  refine List.flatMap_congr fun l hl => ?_
  rw [l.text_eq]
  exact pyLines_single fun hmem => (hinner l hl _ hmem).2 rfl

theorem verifyLoop_lines {otherDigit : Char → Bool} {int : List Char → Option Nat} {t : Int}
    (ht : 0 < t) (hint : int (Nat.toDigits 10 t.toNat) = some t.toNat) {lines : List BlockLine}
    (h : ∀ l ∈ lines, l.Legible ∧ l.time = t) (lineNum : Nat) :
    verifyLoop otherDigit int lineNum (lines.map BlockLine.text) =
      some ((lines.zipIdx lineNum).flatMap fun l => l.1.findings l.2) := by
  induction lines generalizing lineNum with
  | nil => rfl
  | cons l lines ih =>
    obtain ⟨hlegible, rfl⟩ := h l List.mem_cons_self
    have hrest := ih (fun l' hl' => h l' (List.mem_cons_of_mem _ hl')) (lineNum + 1)
    rw [List.map_cons, verifyLoop, hlegible.checkLine ht hint, hrest]
    rfl

/-- A domain that passes is accepted. -/
theorem insertable_host {domain : List Char} (h : matchesDomainRe domain = true)
    (hshort : domain.length ≤ 253) : Insertable (utf8 domain) := by
  constructor
  · rw [utf8_ascii (matchesDomainRe_ascii h), List.length_map, labelBufSize]
    omega
  · rw [normalise_host h hshort]
    simp [List.splitOn_ne_nil]

/-- **A created list and the validator**: `verify_tsv` finds the domains that are no host names and
the notes that are blank, and nothing else. If the list passes, every domain whose line fits is
in effect. -/
theorem created_list_checked (py : Python) (nfkd classify : List Char → List Char) (input : CStr)
    {currentTime : Int} (htime : 0 < currentTime)
    (hint : py.int (Nat.toDigits 10 currentTime.toNat) = some currentTime.toNat) :
    let lines := createdLines py nfkd classify input currentTime
    let findings := (lines.zipIdx 1).flatMap fun l => l.1.findings l.2
    verifyTsv py.otherDigit py.int (createdText py nfkd classify input currentTime) =
        some findings ∧
      (isValid findings = true ↔ ∀ l ∈ lines, matchesDomainRe l.domain = true ∧
        l.domain.length ≤ 253 ∧ pyStrip l.note ≠ []) ∧
      (isValid findings = true →
        ∀ l ∈ lines, (l.InEffect ↔ l.text.length ≤ lineBufSize - 1)) := by
  intro lines findings
  have hlegible : ∀ l ∈ lines, l.Legible := fun l hl => createdLines_legible hl
  have htimes : ∀ l ∈ lines, l.time = currentTime := by
    intro l hl
    obtain ⟨domain, -, rfl⟩ := List.mem_map.mp hl
    rfl
  -- all other checks pass by themselves, line by line
  have hvalid : isValid findings = true ↔ ∀ l ∈ lines, matchesDomainRe l.domain = true ∧
      l.domain.length ≤ 253 ∧ pyStrip l.note ≠ [] := by
    have hnumbered : (lines.zipIdx 1).map Prod.fst = lines := List.zipIdx_map_fst 1 lines
    conv_rhs => rw [← hnumbered, List.forall_mem_map]
    rw [isValid, List.all_flatMap, List.all_eq_true]
    exact forall₂_congr fun l _ => l.1.isValid_findings l.2
  refine ⟨?_, hvalid, fun hpasses l hl => and_iff_right ?_⟩
  · rw [verifyTsv, createdText_eq, pyLines_lines hlegible]
    exact verifyLoop_lines htime hint (fun l hl => ⟨hlegible l hl, htimes l hl⟩) 1
  · obtain ⟨hhost, hshort, -⟩ := hvalid.mp hpasses l hl
    exact insertable_host hhost hshort

/-- A line of a hosts file is one domain to the script, and no host name. -/
theorem created_list_checked_hosts :
    verifyTsv Python.ascii.otherDigit Python.ascii.int
        (createdText .ascii id (fun _ => "suspicious / telemetry domain".toList)
          (cstr "t.co\n# hosts\n0.0.0.0 q.co\n") 5) =
      some [⟨.domainFormat, 2, "0.0.0.0 q.co"⟩] := by
  have hchecked := (created_list_checked .ascii id (fun _ => "suspicious / telemetry domain".toList)
    (cstr "t.co\n# hosts\n0.0.0.0 q.co\n") (show (0 : Int) < 5 by decide) (by decide)).1
  rw [hchecked]
  decide +kernel

end Nyet
