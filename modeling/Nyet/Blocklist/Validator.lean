import Nyet.Blocklist.Text

/-!
# What the validator vouches for (`check_tsv.py`)

`verify_tsv` reads a file with Python's lines, columns and digits, and `load_blocklist` with
`fgets`, `strtok_s` and `atoll`. `validator_vouches_iff` says for which of the files that
pass without an error or a warning the loader inserts what is written: those whose lines fit
`fgets`'s buffer, whose `ttl`s fit 32 bits and whose lines are the same to both.
-/

namespace Nyet

/-! ## The script -/

/-- What `errors` and `warnings` are keyed by. -/
inductive Category where
  | nonAscii
  | columnCount
  | domainFormat
  | flagLength
  | timestampNumeric
  | timestampZero
  | ruleIdNumeric
  | ttlNumeric
  | emptyReason
  | action
  | ambiguousTtlNote
  deriving DecidableEq, Repr

/-- The keys of `warnings`; the others are those of `errors`. -/
def Category.isWarning : Category → Bool
  | .action | .ambiguousTtlNote => true
  | _ => false

/-- What is appended to `errors[category]` or `warnings[category]`. -/
structure Finding where
  category : Category
  lineNum : Nat
  value : String
  deriving DecidableEq, Repr

/-- The columns of a line; `ttl` is `None` in the old format. -/
structure Columns where
  action : List Char
  domain : List Char
  typeFlag : List Char
  time1 : List Char
  time2 : List Char
  ruleId : List Char
  ttl : Option (List Char)
  reason : List Char
  deriving DecidableEq, Repr

/-- `line.split("\t")`, if it has seven or eight columns. -/
def columnsOf (line : List Char) : Option Columns :=
  match line.splitOn '\t' with
  | [action, domain, typeFlag, time1, time2, ruleId, ttl, reason] =>
    some ⟨action, domain, typeFlag, time1, time2, ruleId, some ttl, reason⟩
  | [action, domain, typeFlag, time1, time2, ruleId, reason] =>
    some ⟨action, domain, typeFlag, time1, time2, ruleId, none, reason⟩
  | _ => none

/-- A character that ends a line. -/
def isLineEnd (c : Char) : Bool := c = '\n' || c = '\r'

/-- `raw_line.rstrip("\r\n")` -/
def rstripLineEnd (rawLine : List Char) : List Char :=
  (rawLine.reverse.dropWhile isLineEnd).reverse

/-- `[a-zA-Z0-9]` -/
def isHostChar (c : Char) : Bool := c.isAlphanum

/-- `[a-zA-Z0-9]([a-zA-Z0-9\-]{0,61}[a-zA-Z0-9])?` -/
def isHostLabel : List Char → Bool
  | [] => false
  | first :: rest =>
    isHostChar first &&
      match rest.getLast? with
      | none => true
      | some last =>
        rest.dropLast.length ≤ 61 && rest.dropLast.all (fun c => isHostChar c || c = '-') &&
          isHostChar last

/-- `_DOMAIN_RE.match(domain)`: labels between dots. -/
def matchesDomainRe (domain : List Char) : Bool := (domain.splitOn '.').all isHostLabel

/-- The test of `_is_ascii_printable` on a character. -/
def isPrintableOrTab (c : Char) : Bool := (32 ≤ c.toNat && c.toNat ≤ 126) || c = '\t'

/-- `if bad: findings.append(finding)` -/
def report (bad : Bool) (finding : Finding) : List Finding := if bad then [finding] else []

section Script

variable (otherDigit : Char → Bool) (int : List Char → Option Nat)

/-- The checks of the two timestamps. `int` may raise `ValueError`, here `none`, on digits
that are no decimals or too many. -/
def checkTimes (lineNum : Nat) (time1 time2 : List Char) : Option (List Finding) :=
  if !pyIsDigit otherDigit time1 || !pyIsDigit otherDigit time2 then
    some [⟨.timestampNumeric, lineNum,
      "time1='" ++ String.ofList time1 ++ "', time2='" ++ String.ofList time2 ++ "'"⟩]
  else
    let zero : Finding := ⟨.timestampZero, lineNum,
      "time1=" ++ String.ofList time1 ++ ", time2=" ++ String.ofList time2⟩
    (int time1).bind fun value1 =>
      -- the second one is not looked at if the first is zero
      if value1 = 0 then some [zero]
      else (int time2).map fun value2 => report (value2 = 0) zero

/-- The checks of one line; `none` if one of them raises. -/
def checkLine (lineNum : Nat) (rawLine : List Char) : Option (List Finding) :=
  let line := rstripLineEnd rawLine
  if line = [] then some []
  else
    let ascii := report (!line.all isPrintableOrTab) ⟨.nonAscii, lineNum,
      String.ofList (if 50 < line.length then line.take 50 ++ ['…'] else line)⟩
    match columnsOf line with
    | none =>
      some (ascii ++ [⟨.columnCount, lineNum,
        toString (line.splitOn '\t').length ++ " columns found"⟩])
    | some cols =>
      (checkTimes otherDigit int lineNum cols.time1 cols.time2).map fun times =>
        ascii ++
        report (cols.action ≠ ['B']) ⟨.action, lineNum,
          "action='" ++ String.ofList cols.action ++ "'"⟩ ++
        report (!matchesDomainRe cols.domain || 253 < cols.domain.length) ⟨.domainFormat, lineNum,
          String.ofList cols.domain⟩ ++
        report (cols.typeFlag.length ≠ 1) ⟨.flagLength, lineNum,
          "flag='" ++ String.ofList cols.typeFlag ++ "'"⟩ ++
        times ++
        report (!pyIsDigit otherDigit cols.ruleId) ⟨.ruleIdNumeric, lineNum,
          "rule_id='" ++ String.ofList cols.ruleId ++ "'"⟩ ++
        report (cols.ttl.any fun ttl => !pyIsDigit otherDigit ttl) ⟨.ttlNumeric, lineNum,
          "ttl='" ++ String.ofList (cols.ttl.getD []) ++ "'"⟩ ++
        report (pyStrip cols.reason = []) ⟨.emptyReason, lineNum, "empty"⟩ ++
        report (cols.ttl.isNone && pyIsDigit otherDigit cols.reason) ⟨.ambiguousTtlNote, lineNum,
          "reason='" ++ String.ofList cols.reason ++ "'"⟩

/-- The loop of `verify_tsv`, from line number `lineNum` on. -/
def verifyLoop (lineNum : Nat) : List (List Char) → Option (List Finding)
  | [] => some []
  | rawLine :: lines => do
    let here ← checkLine otherDigit int lineNum rawLine
    let rest ← verifyLoop (lineNum + 1) lines
    return here ++ rest

/-- What `verify_tsv` finds in a file, in order; `none` if it raises. -/
def verifyTsv (text : List Char) : Option (List Finding) :=
  verifyLoop otherDigit int 1 (pyLines (universalNewlines text))

end Script

/-- `is_valid`, what `verify_tsv` returns: warnings do not count. -/
def isValid (findings : List Finding) : Bool := findings.all fun f => f.category.isWarning

/-! ## What is vouched for -/

/-- The non-empty lines, as Python reads them. -/
def nonEmptyLines (text : List Char) : List (List Char) :=
  ((pyLines (universalNewlines text)).map rstripLineEnd).filter (· ≠ [])

/-- The number a column of digits denotes. -/
def columnValue (column : List Char) : Nat := digitsValue (utf8 column)

/-- The entry a line asks for: under its lower-cased domain, last label first, BLOCKED, and
with its `ttl` if it has one. -/
def EntryOf (line : List Char) (p : List Label × Entry) : Prop :=
  match columnsOf line with
  | none => False
  | some cols =>
    p.1 = (cols.domain.splitOn '.').reverse.map (fun label => utf8 (label.map Char.toLower)) ∧
    p.2.status = .blocked ∧
    ∀ ttl ∈ cols.ttl, p.2.ttl.toNat = columnValue ttl

instance (line : List Char) (p : List Label × Entry) : Decidable (EntryOf line p) := by
  rw [EntryOf]
  split <;> infer_instance

/-- **The loader agrees**: what it inserts is one entry for each non-empty line. -/
def LoaderAgrees (now : UInt32) (text : List Char) : Prop :=
  List.Forall₂ EntryOf (nonEmptyLines text) (loadLog (textRows now text))

/-- `fgets` gets the line whole, its end included. -/
def FitsBuffer (line : List Char) : Prop :=
  line.length < lineBufSize - 1 ∨ line.length = lineBufSize - 1 ∧ line.getLast? = some '\n'

instance (line : List Char) : Decidable (FitsBuffer line) :=
  inferInstanceAs (Decidable (_ ∨ _ ∧ _))

/-- The `ttl`, if there is one, fits 32 bits. -/
def TtlFits (line : List Char) : Prop :=
  ∀ cols ∈ columnsOf line, ∀ ttl ∈ cols.ttl, columnValue ttl < 2 ^ 32

instance (line : List Char) : Decidable (TtlFits line) :=
  inferInstanceAs (Decidable (∀ _ ∈ _, ∀ _ ∈ _, _))

/-- A line as far as the loader parses it reads as the row `row`. -/
def ReadsAs (now : UInt32) (row line : List Char) : Prop :=
  FitsBuffer line ∧
    ∃ r ∈ parseRow now (utf8 line), r.Loaded ∧ EntryOf row (normalise r.domain, r.entry)

instance (now : UInt32) (row line : List Char) : Decidable (ReadsAs now row line) :=
  inferInstanceAs (Decidable (_ ∧ ∃ _ ∈ _, _))

/-- What is left of a line when the loader has skipped the buffers that begin with `'\r'` or
like a comment. -/
def afterSkipped : Nat → List Char → List Char
  | 0, line => line
  | fuel + 1, line =>
    if line.head? = some '\r' ∨ line.head? = some '#' then
      afterSkipped fuel (line.drop (lineBufSize - 1))
    else line

/-- The condition on a line of the stream. It is one line to Python as well, nothing but
line ends or a row that stands first, and the row fits the buffer and its `ttl` 32 bits. A
line that begins with `'\r'` is skipped a buffer at a time, and the row has to be what is
left. -/
def Loadable (now : UInt32) (line : List Char) : Prop :=
  match nonEmptyLines line with
  | [] => True
  | [row] =>
    if line.head? = some '\r' then ReadsAs now row (afterSkipped line.length line)
    else FitsBuffer line ∧ TtlFits row
  | _ => False

instance (now : UInt32) (line : List Char) : Decidable (Loadable now line) := by
  rw [Loadable]
  split <;> infer_instance

/-! ## Domains -/

/-- A label of `DOMAIN_RE` is not empty, and it is made of letters, digits and hyphens. -/
theorem isHostLabel_spec {label : List Char} (h : isHostLabel label = true) :
    label ≠ [] ∧ ∀ c ∈ label, isHostChar c = true ∨ c = '-' := by
  cases label with
  | nil => cases h
  | cons first rest =>
    refine ⟨List.cons_ne_nil first rest, ?_⟩
    rw [isHostLabel] at h
    obtain ⟨hfirst, hrest⟩ := Bool.and_eq_true_iff.mp h
    intro c hc
    rcases List.mem_cons.mp hc with rfl | hc
    · exact Or.inl hfirst
    · cases hlast : rest.getLast? with
      | none =>
        rw [List.getLast?_eq_none_iff.mp hlast] at hc
        cases hc
      | some last =>
        rw [hlast] at hrest
        simp only [Bool.and_eq_true, List.all_eq_true, Bool.or_eq_true, decide_eq_true_eq] at hrest
        rw [← List.dropLast_append_getLast? last hlast, List.mem_append, List.mem_singleton] at hc
        rcases hc with hc | rfl
        · exact hrest.1.2 c hc
        · exact Or.inl hrest.2

/-- To lower case, in ASCII. -/
theorem lowerByte_ascii {c : Char} (hc : c.toNat < 128) :
    lowerByte c.toNat.toUInt8 = c.toLower.toNat.toUInt8 ∧ c.toLower.toNat < 128 ∧
      (c.toLower.toNat.toUInt8 = dot ↔ c = '.') := by
  have hall : ∀ n < 128, lowerByte n.toUInt8 = (Char.ofNat n).toLower.toNat.toUInt8 ∧
      (Char.ofNat n).toLower.toNat < 128 ∧
      ((Char.ofNat n).toLower.toNat.toUInt8 = dot ↔ Char.ofNat n = '.') := by
    decide +kernel
  have h := hall c.toNat hc
  rwa [Char.ofNat_toNat] at h

/-- A domain that matches is made of these and of dots. -/
theorem matchesDomainRe_chars {domain : List Char} (h : matchesDomainRe domain = true) :
    ∀ c ∈ domain, isHostChar c = true ∨ c = '-' ∨ c = '.' := by
  intro c hc
  by_cases hdot : c = '.'
  · exact Or.inr (Or.inr hdot)
  · obtain ⟨label, hlabel, hmem⟩ := mem_splitOnP_of_mem (p := (· == '.')) (by simpa using hdot) hc
    rw [← List.splitOn_eq_splitOnP] at hlabel
    rcases (isHostLabel_spec (List.all_eq_true.mp h label hlabel)).2 c hmem with hhost | hhyphen
    · exact Or.inl hhost
    · exact Or.inr (Or.inl hhyphen)

/-- So it is as many bytes as characters, and its length is the one the loader sees. -/
theorem matchesDomainRe_ascii {domain : List Char} (h : matchesDomainRe domain = true) :
    ∀ c ∈ domain, c.toNat < 128 := by
  intro c hc
  rcases matchesDomainRe_chars h c hc with hhost | rfl | rfl
  · simp [isHostChar, Char.isAlphanum, Char.isAlpha, Char.isUpper, Char.isLower, Char.isDigit,
      UInt32.le_iff_toNat_le] at hhost
    omega
  · decide
  · decide

/-- **The path of a domain that passes**: its lower-cased labels, the last one first. -/
theorem normalise_host {domain : List Char} (h : matchesDomainRe domain = true)
    (hshort : domain.length ≤ 253) :
    normalise (utf8 domain) =
      (domain.splitOn '.').reverse.map fun label => utf8 (label.map Char.toLower) := by
  have hascii := matchesDomainRe_ascii h
  -- ASCII throughout: lower case byte by byte is lower case letter by letter
  have hlabels : ∀ label ∈ domain.splitOn '.', label ≠ [] ∧ ∀ c ∈ label, c.toNat < 128 := by
    intro label hlabel
    refine ⟨(isHostLabel_spec (List.all_eq_true.mp h label hlabel)).1, fun c hc => ?_⟩
    exact hascii c (mem_of_mem_splitOn hlabel hc)
  have hlower : (utf8 domain).map lowerByte = domain.map fun c => c.toLower.toNat.toUInt8 := by
    rw [utf8_ascii hascii, List.map_map]
    exact List.map_congr_left fun c hc => (lowerByte_ascii (hascii c hc)).1
  have hpieces : pieces ((utf8 domain).map lowerByte) =
      (domain.splitOn '.').map fun label => utf8 (label.map Char.toLower) := by
    rw [pieces]
    rw [hlower, splitOn_map fun c hc => (lowerByte_ascii (hascii c hc)).2.2, List.filter_eq_self.mpr]
    · refine List.map_congr_left fun label hlabel => ?_
      rw [utf8_ascii, List.map_map]
      · rfl
      · intro c hc
        obtain ⟨d, hd, rfl⟩ := List.mem_map.mp hc
        exact (lowerByte_ascii ((hlabels label hlabel).2 d hd)).2.1
    · intro label hlabel
      obtain ⟨l, hl, rfl⟩ := List.mem_map.mp hlabel
      simpa using (hlabels l hl).1
  have hcount := length_splitOn_le fun label hlabel => (hlabels label hlabel).1
  rw [normalise, labelsRtl]
  rw [hpieces, List.take_of_length_le, List.map_reverse]
  rw [List.length_reverse, List.length_map]
  rw [maxLabels]
  omega

/-! ## Python's lines and the loader's -/

/-- Stripping stops at the first character that is no line end. -/
theorem rstripLineEnd_cons {c : Char} (hc : isLineEnd c = false) (line : List Char) :
    rstripLineEnd (c :: line) = c :: rstripLineEnd line := by
  unfold rstripLineEnd
  rw [List.reverse_cons, List.dropWhile_append]
  split
  · next hempty =>
    rw [List.isEmpty_iff.mp hempty, List.dropWhile_cons_of_neg (by rw [hc]; exact Bool.false_ne_true)]
    rfl
  · rw [List.reverse_append]
    rfl

/-- Python's non-empty lines are what stands between line ends. -/
theorem nonEmptyLines_eq (text : List Char) :
    nonEmptyLines text = (text.splitOnP isLineEnd).filter (· ≠ []) := by
  -- there is a piece more after a line end
  have hsplit : text.splitOnP isLineEnd =
      (pyLines (universalNewlines text)).map rstripLineEnd ++
        if text.getLast?.all isLineEnd then [[]] else [] := by
    induction text with
    | nil => rfl
    | cons c cs ih =>
      have hlast : (c :: cs).getLast?.all isLineEnd = cs.getLast?.all isLineEnd ∨
          cs = [] := by
        cases cs with
        | nil => exact Or.inr rfl
        | cons d ds => exact Or.inl (by rw [List.getLast?_cons_cons])
      rw [List.splitOnP_cons_eq_if_modifyHead]
      rw [universalNewlines] at ih ⊢
      rw [List.map_cons, pyLines]
      cases hc : isLineEnd c with
      | true =>
        have hnewline : (if c = '\r' then '\n' else c) = '\n' := by
          rw [isLineEnd] at hc
          split
          · rfl
          · next hr => simpa [hr] using hc
        rw [if_pos rfl, if_pos hnewline, ih]
        rcases hlast with hlast | rfl
        · rw [hlast]
          rfl
        · rw [List.getLast?_singleton, Option.all_some, hc]
          rfl
      | false =>
        have hother : (if c = '\r' then '\n' else c) = c ∧ c ≠ '\n' := by
          constructor
          · rw [if_neg]
            rintro rfl
            exact absurd hc (by decide)
          · rintro rfl
            exact absurd hc (by decide)
        rw [if_neg Bool.false_ne_true, hother.1, if_neg hother.2, ih]
        rcases hlast with hlast | rfl
        · rw [hlast]
          cases hlines : pyLines (cs.map fun c => if c = '\r' then '\n' else c) with
          | nil =>
            have hflat := pyLines_flatten (cs.map fun c => if c = '\r' then '\n' else c)
            rw [hlines] at hflat
            rw [List.map_eq_nil_iff.mp hflat.symm] at hlast
            rw [List.getLast?_singleton, Option.all_some, hc] at hlast
            cases hlast
          | cons line lines =>
            rw [List.map_cons, List.map_cons, rstripLineEnd_cons hc]
            rfl
        · rw [List.getLast?_singleton, Option.all_some, hc]
          unfold rstripLineEnd
          simp [pyLines, hc]
  rw [nonEmptyLines]
  rw [hsplit, List.filter_append]
  split
  · rw [show ([[]] : List (List Char)).filter (· ≠ []) = [] from rfl, List.append_nil]
  · exact (List.append_nil _).symm

/-- A line end cuts the lines in two. -/
theorem nonEmptyLines_append_end {c : Char} (hc : isLineEnd c = true) (x y : List Char) :
    nonEmptyLines (x ++ c :: y) = nonEmptyLines x ++ nonEmptyLines y := by
  rw [nonEmptyLines_eq, nonEmptyLines_eq, nonEmptyLines_eq, List.splitOnP_append_cons x y hc,
    List.filter_append]

/-- A row without line ends is one line. -/
theorem nonEmptyLines_row {row : List Char} (hne : row ≠ [])
    (h : ∀ c ∈ row, isLineEnd c = false) : nonEmptyLines row = [row] := by
  rw [nonEmptyLines_eq, List.splitOnP_eq_singleton h]
  simp [hne]

/-- What the loader takes one by one, Python does too. -/
theorem nonEmptyLines_flatMap (text : List Char) :
    nonEmptyLines text = (pyLines text).flatMap nonEmptyLines := by
  unfold nonEmptyLines
  rw [pyLines_universalNewlines, List.map_flatMap, List.filter_flatMap]

/-- The first row of a line and the rest. -/
theorem nonEmptyLines_cut {line : List Char} (hne : line ≠ [])
    (hhead : ∀ c ∈ line.head?, isLineEnd c = false) :
    ∃ row rest, line = row ++ rest ∧ row ≠ [] ∧ nonEmptyLines line = row :: nonEmptyLines rest := by
  obtain ⟨c, cs, rfl⟩ := List.exists_cons_of_ne_nil hne
  have hc : isLineEnd c = false := hhead c rfl
  have hrow : ∀ d ∈ (c :: cs).takeWhile (!isLineEnd ·), isLineEnd d = false := by
    intro d hd
    simpa using List.mem_takeWhile_imp hd
  have hcut := List.takeWhile_append_dropWhile (p := (!isLineEnd ·)) (l := c :: cs)
  have hrowne : (c :: cs).takeWhile (!isLineEnd ·) ≠ [] := by
    rw [List.takeWhile_cons_of_pos (by rw [hc]; rfl)]
    exact List.cons_ne_nil _ _
  refine ⟨_, _, hcut.symm, hrowne, ?_⟩
  -- up to the first line end, or to the end of the text
  cases hrest : (c :: cs).dropWhile (!isLineEnd ·) with
  | nil =>
    rw [hrest, List.append_nil] at hcut
    rw [hcut] at hrow hrowne ⊢
    exact nonEmptyLines_row hrowne hrow
  | cons d ds =>
    have hd : isLineEnd d = true := by
      have hnot := List.head_dropWhile_not (!isLineEnd ·) (l := c :: cs) (by rw [hrest]; simp)
      simpa [hrest] using hnot
    have hends := nonEmptyLines_append_end hd [] ds
    rw [List.nil_append] at hends
    rw [hrest] at hcut
    conv_lhs => rw [← hcut]
    rw [nonEmptyLines_append_end hd, nonEmptyLines_row hrowne hrow, hends]
    rfl

/-- A line without a row is line ends only. -/
theorem isLineEnd_of_nonEmptyLines_eq_nil {line : List Char} (h : nonEmptyLines line = []) :
    ∀ c ∈ line, isLineEnd c = true := by
  induction line with
  | nil => exact fun c hc => absurd hc List.not_mem_nil
  | cons d ds ih =>
    cases hd : isLineEnd d with
    | false =>
      obtain ⟨row, rest, -, -, hrows⟩ := nonEmptyLines_cut (List.cons_ne_nil d ds) fun c hc => by
        rw [← Option.some.inj hc, hd]
      rw [hrows] at h
      cases h
    | true =>
      have hends := nonEmptyLines_append_end hd [] ds
      rw [List.nil_append, h] at hends
      intro c hc
      rcases List.mem_cons.mp hc with rfl | hc
      · exact hd
      · exact ih hends.symm c hc

/-- Every character but the line ends is in a row. -/
theorem mem_nonEmptyLines_of_mem {c : Char} (hc : isLineEnd c = false) {text : List Char}
    (h : c ∈ text) : ∃ row ∈ nonEmptyLines text, c ∈ row := by
  obtain ⟨row, hrow, hmem⟩ := mem_splitOnP_of_mem hc h
  refine ⟨row, ?_, hmem⟩
  rw [nonEmptyLines_eq, List.mem_filter]
  exact ⟨hrow, decide_eq_true (List.ne_nil_of_mem hmem)⟩

/-! ## Lines that pass -/

/-- A line `verify_tsv` finds nothing in. -/
structure Clean (otherDigit : Char → Bool) (line : List Char) (cols : Columns) : Prop where
  columns : columnsOf line = some cols
  ascii : ∀ c ∈ line, isPrintableOrTab c = true
  action : cols.action = ['B']
  domain : matchesDomainRe cols.domain = true
  short : cols.domain.length ≤ 253
  typeFlag : cols.typeFlag.length = 1
  time1 : pyIsDigit otherDigit cols.time1 = true
  time2 : pyIsDigit otherDigit cols.time2 = true
  ruleId : pyIsDigit otherDigit cols.ruleId = true
  ttl : ∀ ttl ∈ cols.ttl, pyIsDigit otherDigit ttl = true
  reason : pyStrip cols.reason ≠ []
  note : cols.ttl = none → pyIsDigit otherDigit cols.reason = false

/-- What stands after the sixth tab. -/
def Columns.last (cols : Columns) : List Char :=
  match cols.ttl with
  | none => cols.reason
  | some ttl => ttl ++ '\t' :: cols.reason

/-- A line is its columns with a tab between two. -/
theorem columnsOf_eq_some {line : List Char} {cols : Columns} (h : columnsOf line = some cols) :
    line = cols.action ++ '\t' :: (cols.domain ++ '\t' :: (cols.typeFlag ++ '\t' :: (cols.time1 ++
      '\t' :: (cols.time2 ++ '\t' :: (cols.ruleId ++ '\t' :: cols.last))))) ∧
    (∀ field ∈ [cols.action, cols.domain, cols.typeFlag, cols.time1, cols.time2, cols.ruleId],
      '\t' ∉ field) ∧
    ∀ ttl ∈ cols.ttl, '\t' ∉ ttl := by
  have hjoin : ['\t'].intercalate (line.splitOn '\t') = line := List.intercalate_splitOn '\t'
  have htab : ∀ field ∈ line.splitOn '\t', '\t' ∉ field := fun field => not_mem_of_mem_splitOn
  rw [columnsOf] at h
  split at h
  · -- eight columns with a ttl, or seven without
    next hsplit =>
    cases h
    rw [hsplit] at hjoin htab
    refine ⟨by simpa [Columns.last] using hjoin.symm, fun field hfield => htab field ?_,
      fun ttl httl => htab ttl ?_⟩
    · simp only [List.mem_cons, List.not_mem_nil, or_false] at hfield ⊢
      tauto
    · simp at httl
      simp [httl]
  · next hsplit =>
    cases h
    rw [hsplit] at hjoin htab
    refine ⟨by simpa [Columns.last] using hjoin.symm, fun field hfield => htab field ?_,
      fun ttl httl => by cases httl⟩
    simp only [List.mem_cons, List.not_mem_nil, or_false] at hfield ⊢
    tauto
  · cases h

/-- A check reports nothing exactly if it finds nothing. -/
theorem report_eq_nil {bad : Bool} {finding : Finding} : report bad finding = [] ↔ bad = false := by
  cases bad <;> simp [report]

/-- No finding about the time stamps: both are digits, so `int` does not raise on them. -/
theorem checkTimes_eq_nil {otherDigit : Char → Bool} {int : List Char → Option Nat} {lineNum : Nat}
    {time1 time2 : List Char} (h : checkTimes otherDigit int lineNum time1 time2 = some []) :
    pyIsDigit otherDigit time1 = true ∧ pyIsDigit otherDigit time2 = true := by
  rw [checkTimes] at h
  split at h
  · cases h
  · next hdigits => simpa using hdigits

/-- A line without findings is empty or clean. -/
theorem checkLine_clean {otherDigit : Char → Bool} {int : List Char → Option Nat} {lineNum : Nat}
    {rawLine : List Char} (h : checkLine otherDigit int lineNum rawLine = some [])
    (hne : rstripLineEnd rawLine ≠ []) :
    ∃ cols, Clean otherDigit (rstripLineEnd rawLine) cols := by
  rw [checkLine] at h
  dsimp only at h
  rw [if_neg hne] at h
  cases hcols : columnsOf (rstripLineEnd rawLine) with
  | none =>
    rw [hcols] at h
    simp at h
  | some cols =>
    rw [hcols] at h
    -- no finding at all: each report is empty, and each says what it would have reported is not so
    obtain ⟨times, htimes, hnil⟩ := Option.map_eq_some_iff.mp h
    simp only [List.append_eq_nil_iff, report_eq_nil] at hnil
    obtain ⟨⟨⟨⟨⟨⟨⟨⟨hascii, haction⟩, hdomain⟩, hflag⟩, rfl⟩, hrule⟩, httl⟩, hreason⟩, hnote⟩ := hnil
    obtain ⟨htime1, htime2⟩ := checkTimes_eq_nil htimes
    refine ⟨cols, hcols, ?_, ?_, ?_, ?_, ?_, htime1, htime2, ?_, ?_, ?_, ?_⟩
    · simpa using hascii
    · simpa using haction
    · simp at hdomain
      exact hdomain.1
    · simp at hdomain
      exact hdomain.2
    · simpa using hflag
    · simpa using hrule
    · intro ttl hmem
      rw [Option.mem_def] at hmem
      simpa [hmem] using httl
    · simpa using hreason
    · intro hnone
      simpa [hnone] using hnote

/-- A loop without findings has read clean lines only. -/
theorem verifyLoop_clean {otherDigit : Char → Bool} {int : List Char → Option Nat} {lineNum : Nat}
    {lines : List (List Char)} (h : verifyLoop otherDigit int lineNum lines = some []) :
    ∀ line ∈ (lines.map rstripLineEnd).filter (· ≠ []), ∃ cols, Clean otherDigit line cols := by
  induction lines generalizing lineNum with
  | nil => exact fun line hline => absurd hline List.not_mem_nil
  | cons rawLine lines ih =>
    obtain ⟨here, hhere, hrest⟩ := Option.bind_eq_some_iff.mp h
    obtain ⟨rest, hloop, hnil⟩ := Option.bind_eq_some_iff.mp hrest
    obtain ⟨rfl, rfl⟩ := List.append_eq_nil_iff.mp (Option.some.inj hnil)
    intro line hline
    rw [List.map_cons, List.mem_filter, List.mem_cons] at hline
    obtain ⟨rfl | hline, hne⟩ := hline
    · exact checkLine_clean hhere (of_decide_eq_true hne)
    · exact ih hloop line (List.mem_filter.mpr ⟨hline, hne⟩)

/-- A text that passes is made of clean lines, blank ones apart. -/
theorem verifyTsv_clean {otherDigit : Char → Bool} {int : List Char → Option Nat}
    {text : List Char} (h : verifyTsv otherDigit int text = some []) :
    ∀ line ∈ nonEmptyLines text, ∃ cols, Clean otherDigit line cols :=
  verifyLoop_clean h

/-! ## What is loaded from a line that passes -/

/-- What a clean line may hold is ASCII, and no NUL. -/
theorem isPrintableOrTab_ascii {c : Char} (h : isPrintableOrTab c = true) :
    c.toNat < 128 ∧ c.toNat ≠ 0 := by
  rw [isPrintableOrTab] at h
  simp only [Bool.or_eq_true, Bool.and_eq_true, decide_eq_true_eq] at h
  rcases h with h | rfl
  · omega
  · decide

/-- So is a line end. -/
theorem isLineEnd_ascii {c : Char} (h : isLineEnd c = true) : c.toNat < 128 ∧ c.toNat ≠ 0 := by
  rw [isLineEnd] at h
  simp only [Bool.or_eq_true, decide_eq_true_eq] at h
  rcases h with rfl | rfl <;> decide

/-- Digits are digits to C, too. -/
theorem isAllDigits_utf8 {otherDigit : Char → Bool} {s : List Char}
    (h : pyIsDigit otherDigit s = true) (hascii : ∀ c ∈ s, c.toNat < 128) :
    isAllDigits (utf8 s) = true := by
  obtain ⟨hne, hall⟩ := Bool.and_eq_true_iff.mp h
  rw [isAllDigits]
  rw [Bool.and_eq_true_iff]
  constructor
  · simpa using utf8_ne_nil (by simpa using hne)
  · rw [utf8_ascii hascii, List.all_map, List.all_eq_true]
    intro c hc
    have hlt := hascii c hc
    have hdigit := List.all_eq_true.mp hall c hc
    simp only [Bool.or_eq_true, Bool.and_eq_true, decide_eq_true_eq, Char.isDigit,
      UInt32.le_iff_toNat_le] at hdigit
    simp only [Function.comp_apply, isDigit, Bool.and_eq_true, decide_eq_true_eq,
      UInt8.le_iff_toNat_le, Nat.toUInt8_eq, UInt8.toNat_ofNat', UInt8.reduceToNat]
    have hval : c.val.toNat = c.toNat := rfl
    simp at hdigit
    omega

section Line

variable {otherDigit : Char → Bool} {row : List Char} {cols : Columns}

/-- A clean line is as many bytes as characters. -/
theorem Clean.chars_ascii (h : Clean otherDigit row cols) : ∀ c ∈ row, c.toNat < 128 :=
  fun c hc => (isPrintableOrTab_ascii (h.ascii c hc)).1

/-- No column the loader needs is empty. -/
theorem Clean.columns_ne_nil (h : Clean otherDigit row cols) :
    ∀ field ∈ [cols.action, cols.domain, cols.typeFlag, cols.time1, cols.time2, cols.ruleId],
      field ≠ [] := by
  have hdigits : ∀ s, pyIsDigit otherDigit s = true → s ≠ [] := by
    rintro s hs rfl
    cases hs
  have haction : cols.action ≠ [] := by
    rw [h.action]
    exact List.cons_ne_nil _ _
  have hdomain : cols.domain ≠ [] := by
    intro hnil
    have hmatch := h.domain
    rw [hnil] at hmatch
    exact absurd hmatch (by decide)
  have hflag : cols.typeFlag ≠ [] := by
    intro hnil
    have hlength := h.typeFlag
    rw [hnil] at hlength
    cases hlength
  simp only [List.forall_mem_cons, List.not_mem_nil, false_imp_iff, implies_true, and_true]
  exact ⟨haction, hdomain, hflag, hdigits _ h.time1, hdigits _ h.time2, hdigits _ h.ruleId⟩

/-- A ttl that passes is digits for the loader too, and so not mistaken for a note. -/
theorem Clean.ttl_digits (h : Clean otherDigit row cols) :
    ∀ ttl ∈ cols.ttl, isAllDigits (utf8 ttl) = true := by
  intro ttl httl
  refine isAllDigits_utf8 (h.ttl ttl httl) fun c hc => h.chars_ascii c ?_
  rw [Option.mem_def] at httl
  rw [(columnsOf_eq_some h.columns).1, Columns.last, httl]
  simp [hc]

/-- The row a line that passes is parsed to, whatever stands after it. -/
theorem Clean.parseRow (h : Clean otherDigit row cols) (now : UInt32) (rest : List Char) :
    ∃ r, parseRow now (utf8 (row ++ rest)) = some r ∧ r.domain = utf8 cols.domain ∧
      r.entry.status = .blocked ∧ ∀ ttl ∈ cols.ttl, r.entry.ttl = atollU32 (utf8 ttl) := by
  obtain ⟨hjoin, htab, httltab⟩ := columnsOf_eq_some h.columns
  have htabchar : ∀ s s', utf8 (s ++ '\t' :: s') = utf8 s ++ tab :: utf8 s' := by
    intro s s'
    rw [utf8_append, utf8_cons]
    rfl
  have hsplit : utf8 (row ++ rest) = utf8 cols.action ++ tab :: (utf8 cols.domain ++
      tab :: (utf8 cols.typeFlag ++ tab :: (utf8 cols.time1 ++ tab :: (utf8 cols.time2 ++
        tab :: (utf8 cols.ruleId ++ tab :: utf8 (cols.last ++ rest)))))) := by
    rw [hjoin]
    simp only [List.append_assoc, List.cons_append, htabchar]
  have hnotab : ∀ s, (∀ c ∈ s, c ∈ row) → '\t' ∉ s → tab ∉ utf8 s := by
    intro s hs hnot hmem
    exact hnot ((mem_utf8_ascii (c := '\t') (fun c hc => h.chars_ascii c (hs c hc))
      (by decide)).mp hmem)
  have hfields : ∀ field ∈ [cols.action, cols.domain, cols.typeFlag, cols.time1, cols.time2,
      cols.ruleId], ∀ c ∈ field, c ∈ row := by
    intro field hfield c hc
    simp only [List.mem_cons, List.not_mem_nil, or_false] at hfield
    rw [hjoin]
    rcases hfield with rfl | rfl | rfl | rfl | rfl | rfl <;> simp [hc]
  rw [hsplit, parseRow_columns]
  · refine ⟨_, rfl, rfl, ?_, fun ttl httl => ?_⟩
    · rw [h.action]
      rfl
    · -- the field after the sixth tab is the `ttl`
      have hlast : cols.last = ttl ++ '\t' :: cols.reason := by
        rw [Columns.last, httl]
      have hchars : ∀ c ∈ ttl, c ∈ row := by
        rw [hjoin, hlast]
        simp only [List.mem_append, List.mem_cons]
        tauto
      have hdigits := h.ttl_digits ttl httl
      have hne : utf8 ttl ≠ [] := by
        intro hnil
        rw [hnil] at hdigits
        cases hdigits
      rw [parseTtlNote]
      rw [hlast, List.append_assoc, List.cons_append, htabchar,
        strtok_tab hne (hnotab ttl hchars (httltab ttl httl))]
      dsimp only
      rw [if_pos hdigits]
      rfl
  · exact (List.forall_mem_map (f := utf8)).mpr fun field hfield =>
      utf8_ne_nil (h.columns_ne_nil field hfield)
  · exact (List.forall_mem_map (f := utf8)).mpr fun field hfield =>
      hnotab field (hfields field hfield) (htab field hfield)

/-- A domain that passes is one that `radix_insert` accepts: it has labels, and not too many bytes.
-/
theorem Clean.insertable (h : Clean otherDigit row cols) : Insertable (utf8 cols.domain) := by
  constructor
  · have hshort := h.short
    rw [utf8_ascii (matchesDomainRe_ascii h.domain), List.length_map]
    rw [labelBufSize]
    omega
  · rw [normalise_host h.domain h.short]
    simp [List.splitOn_ne_nil]

/-- **A row that passes is read as it is written** if it fits, and its `ttl` does. -/
theorem Clean.readsAs_iff (h : Clean otherDigit row cols) (now : UInt32) (rest : List Char) :
    ReadsAs now row (row ++ rest) ↔ FitsBuffer (row ++ rest) ∧ TtlFits row := by
  obtain ⟨r, hparse, hdomain, hstatus, httl⟩ := h.parseRow now rest
  have hloaded : r.Loaded := by
    rw [Row.Loaded]
    rw [hdomain]
    exact h.insertable
  have hentry : EntryOf row (normalise r.domain, r.entry) ↔
      ∀ ttl ∈ cols.ttl, columnValue ttl < 2 ^ 32 := by
    rw [EntryOf]
    rw [h.columns, hdomain, normalise_host h.domain h.short]
    have hvalue : ∀ ttl ∈ cols.ttl,
        r.entry.ttl.toNat = columnValue ttl ↔ columnValue ttl < 2 ^ 32 := by
      intro ttl hmem
      rw [httl ttl hmem]
      exact atollU32_toNat (h.ttl_digits ttl hmem)
    constructor
    · rintro ⟨-, -, hall⟩ ttl hmem
      exact (hvalue ttl hmem).mp (hall ttl hmem)
    · exact fun hall => ⟨rfl, hstatus, fun ttl hmem => (hvalue ttl hmem).mpr (hall ttl hmem)⟩
  rw [ReadsAs, TtlFits]
  rw [hparse, h.columns]
  simp [hloaded, hentry]

end Line

/-- **What the loader reads from one line of the stream.** -/
theorem textRows_line (now : UInt32) {fuel : Nat} {line : List Char}
    (hascii : ∀ c ∈ line, c.toNat < 128 ∧ c.toNat ≠ 0) (hend : '\n' ∉ line.dropLast)
    (hfuel : line.length ≤ fuel) :
    textRows now line =
      if FitsBuffer (afterSkipped fuel line) then
        (parseRow now (utf8 (afterSkipped fuel line))).toList
      else [] := by
  -- the loader's bytes are the text's characters, so it skips and stops where the text does
  induction fuel generalizing line with
  | zero =>
    rw [List.length_eq_zero_iff.mp (Nat.le_zero.mp hfuel)]
    rfl
  | succ fuel ih =>
    have hbytes : ∀ n, utf8 (line.drop n) = (utf8 line).drop n := by
      intro n
      rw [utf8_ascii fun c hc => (hascii c hc).1,
        utf8_ascii fun c hc => (hascii c (List.mem_of_mem_drop hc)).1, List.map_drop]
    have hutf8 : utf8 line = line.map fun c => c.toNat.toUInt8 :=
      utf8_ascii fun c hc => (hascii c hc).1
    have hhead : ∀ c : Char, c.toNat < 128 →
        ((utf8 line).head? = some c.toNat.toUInt8 ↔ line.head? = some c) := by
      intro c hc
      rw [hutf8, List.head?_map]
      exact map_ascii_eq_some (fun d hd => (hascii d (List.mem_of_mem_head? hd)).1) hc
    have hline : newline ∉ (utf8 line).dropLast := by
      have hfront : ∀ c ∈ line.dropLast, c.toNat < 128 :=
        fun c hc => (hascii c (List.dropLast_subset line hc)).1
      rw [hutf8, ← List.map_dropLast, ← utf8_ascii hfront]
      exact fun h => hend ((mem_utf8_ascii (c := '\n') hfront (by decide)).mp h)
    have hcr := hhead '\r' (by decide)
    have hhash := hhead '#' (by decide)
    rw [afterSkipped]
    split
    · -- one buffer of a skipped line is thrown away; what is left of it is read as a line of its
      -- own
      next hskip =>
      rw [← ih]
      · unfold textRows
        rw [hbytes]
        exact rowsOf_skipped now hline (hskip.imp hcr.mpr hhash.mpr)
      · exact fun c hc => hascii c (List.mem_of_mem_drop hc)
      · rw [List.dropLast_drop_eq_drop_dropLast]
        exact fun h => hend (List.mem_of_mem_drop h)
      · rw [List.length_drop]
        rw [lineBufSize]
        omega
    · next hkept =>
      have hlast : (utf8 line).getLast? = some newline ↔ line.getLast? = some '\n' := by
        rw [hutf8, List.getLast?_map]
        exact map_ascii_eq_some (c := '\n')
          (fun d hd => (hascii d (List.mem_of_mem_getLast? hd)).1) (by decide)
      have hfits : (utf8 line).length < lineBufSize - 1 ∨
          (utf8 line).length = lineBufSize - 1 ∧ (utf8 line).getLast? = some newline ↔
          FitsBuffer line := by
        rw [FitsBuffer]
        rw [hlast, hutf8, List.length_map]
      rw [textRows]
      rw [rowsOf_oneLine now hline]
      · exact if_congr hfits rfl rfl
      · intro h
        have hnul := (mem_utf8_ascii (c := '\x00') (fun c hc => (hascii c hc).1) (by decide)).mp h
        exact (hascii _ hnul).2 rfl
      · exact ⟨fun h => hkept (Or.inl (hcr.mp h)), fun h => hkept (Or.inr (hhash.mp h))⟩

/-- Skipping takes characters from the front only. -/
theorem afterSkipped_suffix (fuel : Nat) (line : List Char) : afterSkipped fuel line <:+ line := by
  induction fuel generalizing line with
  | zero => exact List.suffix_refl line
  | succ fuel ih =>
    rw [afterSkipped]
    split
    · exact (ih _).trans (List.drop_suffix _ line)
    · exact List.suffix_refl line

/-- With fuel for every character it stops at none that it would skip. -/
theorem afterSkipped_head {fuel : Nat} {line : List Char} (h : line.length ≤ fuel) :
    (afterSkipped fuel line).head? ≠ some '\r' := by
  induction fuel generalizing line with
  | zero =>
    rw [List.length_eq_zero_iff.mp (Nat.le_zero.mp h)]
    exact fun hnone => nomatch hnone
  | succ fuel ih =>
    rw [afterSkipped]
    split
    · refine ih ?_
      rw [List.length_drop]
      rw [lineBufSize]
      omega
    · next hkept => exact fun hcr => hkept (Or.inl hcr)

/-- A line that begins with its end is nothing else. -/
theorem eq_singleton_of_newline {line : List Char} (hhead : line.head? = some '\n')
    (hend : '\n' ∉ line.dropLast) : line = ['\n'] := by
  match line with
  | [] => cases hhead
  | [c] => rw [Option.some.inj hhead]
  | c :: d :: ds =>
    rw [List.dropLast_cons_cons, List.mem_cons, not_or] at hend
    exact absurd (Option.some.inj hhead).symm hend.1

/-- One row, one entry. -/
theorem forall₂_singleton_left {row : List Char} {entries : InsertLog} :
    List.Forall₂ EntryOf [row] entries ↔ ∃ p, entries = [p] ∧ EntryOf row p := by
  rw [List.forall₂_cons_left_iff]
  constructor
  · rintro ⟨p, rest, hp, hrest, rfl⟩
    rw [List.forall₂_nil_left_iff.mp hrest]
    exact ⟨p, rfl, hp⟩
  · rintro ⟨p, rfl, hp⟩
    exact ⟨p, [], hp, List.Forall₂.nil, rfl⟩

/-- A line of nothing but line ends has no row. -/
theorem textRows_of_blank (now : UInt32) {line : List Char}
    (hascii : ∀ c ∈ line, c.toNat < 128 ∧ c.toNat ≠ 0) (hend : '\n' ∉ line.dropLast)
    (hblank : nonEmptyLines line = []) : textRows now line = [] := by
  have hsuffix := afterSkipped_suffix line.length line
  rw [textRows_line now hascii hend (Nat.le_refl _)]
  cases hrest : afterSkipped line.length line with
  | nil => rfl
  | cons c cs =>
    -- what is not skipped is one newline
    have hhead := afterSkipped_head (Nat.le_refl line.length)
    rw [hrest] at hsuffix hhead
    have hc : isLineEnd c = true :=
      isLineEnd_of_nonEmptyLines_eq_nil hblank c (hsuffix.subset List.mem_cons_self)
    obtain rfl : c = '\n' := by
      rw [isLineEnd] at hc
      simp only [Bool.or_eq_true, decide_eq_true_eq] at hc
      exact hc.resolve_right fun hr => hhead (congrArg some hr)
    have hone : '\n' :: cs = ['\n'] := by
      refine eq_singleton_of_newline rfl fun h => hend ?_
      obtain ⟨front, rfl⟩ := hsuffix
      rw [List.dropLast_append_of_ne_nil (List.cons_ne_nil _ _)]
      exact List.mem_append_right _ h
    rw [hone]
    rfl

/-- What is inserted for a line is the entry of one row exactly if it reads as that row. -/
theorem entryOf_line_iff (now : UInt32) {line : List Char}
    (hascii : ∀ c ∈ line, c.toNat < 128 ∧ c.toNat ≠ 0) (hend : '\n' ∉ line.dropLast)
    (row : List Char) :
    List.Forall₂ EntryOf [row] (loadLog (textRows now line)) ↔
      ReadsAs now row (afterSkipped line.length line) := by
  rw [ReadsAs, textRows_line now hascii hend (Nat.le_refl _), forall₂_singleton_left]
  split
  · next hfits =>
    cases hparse : parseRow now (utf8 (afterSkipped line.length line)) with
    | none => simp [loadLog]
    | some r =>
      by_cases hloaded : r.Loaded
      · simp [loadLog, hloaded, hfits]
      · simp [loadLog, hloaded]
  · next hfits => simp [loadLog, hfits]

/-- A row that does not stand behind a `'\r'` stands first. -/
theorem nonEmptyLines_first {line row : List Char} (hend : '\n' ∉ line.dropLast)
    (hcr : line.head? ≠ some '\r') (hlines : nonEmptyLines line = [row]) :
    ∃ rest, line = row ++ rest := by
  have hne : line ≠ [] := by
    rintro rfl
    cases hlines
  have hfirst : ∀ c ∈ line.head?, isLineEnd c = false := by
    intro c hc
    rw [Option.mem_def] at hc
    by_contra hnl
    rw [isLineEnd] at hnl
    simp only [Bool.not_eq_false, Bool.or_eq_true, decide_eq_true_eq] at hnl
    rcases hnl with rfl | rfl
    · have hnone : nonEmptyLines ['\n'] = [] := by decide
      rw [eq_singleton_of_newline hc hend, hnone] at hlines
      cases hlines
    · exact hcr hc
  obtain ⟨first, rest, hcut, -, hcons⟩ := nonEmptyLines_cut hne hfirst
  rw [hlines] at hcons
  obtain rfl : row = first := (List.cons.inj hcons).1
  exact ⟨rest, hcut⟩

/-- Nothing of a line that begins with a clean row is skipped. -/
theorem Clean.afterSkipped_eq {row : List Char} (h : Clean otherDigit row cols)
    (rest : List Char) (fuel : Nat) : afterSkipped fuel (row ++ rest) = row ++ rest := by
  have hB : (row ++ rest).head? = some 'B' := by
    rw [(columnsOf_eq_some h.columns).1, h.action]
    rfl
  cases fuel with
  | zero => rfl
  | succ n =>
    rw [afterSkipped, if_neg]
    rw [hB]
    decide

/-- **One line.** What the loader inserts for it is at most one entry, and it is the entries of
Python's lines exactly if the line is loadable. -/
theorem line_agrees_iff {otherDigit : Char → Bool} (now : UInt32) {line : List Char}
    (hclean : ∀ row ∈ nonEmptyLines line, ∃ cols, Clean otherDigit row cols)
    (hend : '\n' ∉ line.dropLast) :
    (loadLog (textRows now line)).length ≤ (nonEmptyLines line).length ∧
    (List.Forall₂ EntryOf (nonEmptyLines line) (loadLog (textRows now line)) ↔
      Loadable now line) := by
  have hascii : ∀ c ∈ line, c.toNat < 128 ∧ c.toNat ≠ 0 := by
    intro c hc
    cases hnl : isLineEnd c with
    | true => exact isLineEnd_ascii hnl
    | false =>
      obtain ⟨row, hrow, hmem⟩ := mem_nonEmptyLines_of_mem hnl hc
      obtain ⟨cols, hcols⟩ := hclean row hrow
      exact isPrintableOrTab_ascii (hcols.ascii c hmem)
  have hone : (textRows now line).length ≤ 1 := by
    rw [textRows_line now hascii hend (Nat.le_refl _)]
    split
    · cases parseRow now (utf8 (afterSkipped line.length line)) <;> simp
    · exact Nat.zero_le 1
  have hinserted : (loadLog (textRows now line)).length ≤ 1 := by
    rw [loadLog, List.length_map]
    exact (List.length_filter_le _ _).trans hone
  rw [Loadable]
  cases hlines : nonEmptyLines line with
  | nil =>
    rw [textRows_of_blank now hascii hend hlines]
    exact ⟨Nat.le_refl 0, iff_of_true List.Forall₂.nil trivial⟩
  | cons row rows =>
    cases rows with
    | nil =>
      obtain ⟨cols, hcols⟩ := hclean row (by rw [hlines]; exact List.mem_singleton_self row)
      refine ⟨hinserted, ?_⟩
      rw [entryOf_line_iff now hascii hend row]
      dsimp only
      split
      · rfl
      · next hcr =>
        -- the row stands first, so nothing is skipped
        obtain ⟨rest, rfl⟩ := nonEmptyLines_first hend hcr hlines
        rw [hcols.afterSkipped_eq rest]
        exact hcols.readsAs_iff now rest
    | cons row' rows =>
      refine ⟨?_, fun h => ?_, False.elim⟩
      · simp only [List.length_cons]
        omega
      · have hlength := h.length_eq
        simp only [List.length_cons] at hlength
        omega

/-- A bound for every item is one for the whole. -/
theorem length_flatMap_le {α β γ : Type} {f : α → List β} {g : α → List γ} {l : List α}
    (hle : ∀ a ∈ l, (g a).length ≤ (f a).length) : (l.flatMap g).length ≤ (l.flatMap f).length := by
  induction l with
  | nil => exact Nat.le_refl 0
  | cons a l ih =>
    have ha := hle a List.mem_cons_self
    have hl := ih fun b hb => hle b (List.mem_cons_of_mem a hb)
    rw [List.flatMap_cons, List.flatMap_cons, List.length_append, List.length_append]
    omega

/-- Two concatenations correspond exactly if their parts do, when no part on the right is
longer than its partner. -/
theorem forall₂_flatMap_iff {α β γ : Type} {R : β → γ → Prop} {f : α → List β} {g : α → List γ}
    {l : List α} (hle : ∀ a ∈ l, (g a).length ≤ (f a).length) :
    List.Forall₂ R (l.flatMap f) (l.flatMap g) ↔ ∀ a ∈ l, List.Forall₂ R (f a) (g a) := by
  induction l with
  | nil => exact ⟨fun _ a ha => absurd ha List.not_mem_nil, fun _ => List.Forall₂.nil⟩
  | cons a l ih =>
    have hrest := fun b hb => hle b (List.mem_cons_of_mem a hb)
    rw [List.flatMap_cons, List.flatMap_cons, List.forall_mem_cons, ← ih hrest]
    constructor
    · intro h
      have htotal := h.length_eq
      have ha := hle a List.mem_cons_self
      have hl := length_flatMap_le hrest
      rw [List.length_append, List.length_append] at htotal
      -- so the first parts are of one length
      have heq : (f a).length = (g a).length := by omega
      have htake := List.forall₂_take (f a).length h
      have hdrop := List.forall₂_drop (f a).length h
      rw [List.take_left, heq, List.take_left] at htake
      rw [List.drop_left, heq, List.drop_left] at hdrop
      exact ⟨htake, hdrop⟩
    · rintro ⟨hfirst, hothers⟩
      exact List.rel_append hfirst hothers

/-- **What the validator vouches for.** On a file that passes without an error or a warning the
loader inserts what is written exactly if every line of the stream is loadable. -/
theorem validator_vouches_iff (otherDigit : Char → Bool) (int : List Char → Option Nat)
    (now : UInt32) {text : List Char} (h : verifyTsv otherDigit int text = some []) :
    LoaderAgrees now text ↔ ∀ line ∈ pyLines text, Loadable now line := by
  have hline : ∀ line ∈ pyLines text,
      (loadLog (textRows now line)).length ≤ (nonEmptyLines line).length ∧
      (List.Forall₂ EntryOf (nonEmptyLines line) (loadLog (textRows now line)) ↔
        Loadable now line) := by
    intro line hmem
    refine line_agrees_iff now (fun row hrow => verifyTsv_clean h row ?_)
      (newline_not_mem_dropLast text line hmem)
    rw [nonEmptyLines_flatMap]
    exact List.mem_flatMap.mpr ⟨line, hmem, hrow⟩
  have hlog : loadLog (textRows now text) =
      (pyLines text).flatMap fun line => loadLog (textRows now line) := by
    rw [textRows_eq_flatMap]
    unfold loadLog
    rw [List.filter_flatMap, List.map_flatMap]
  unfold LoaderAgrees
  rw [nonEmptyLines_flatMap, hlog, forall₂_flatMap_iff fun line hmem => (hline line hmem).1]
  constructor
  · exact fun hagree line hmem => (hline line hmem).2.mp (hagree line hmem)
  · exact fun hload line hmem => (hline line hmem).2.mpr (hload line hmem)

/-- A `ttl` of 2^32 seconds. -/
def endlessTtl : List Char :=
  ['B', '\t', 'a', 'd', 's', '\t', 'S', '\t', '5', '\t', '5', '\t', '1', '\t', '4', '2', '9', '4',
    '9', '6', '7', '2', '9', '6', '\t', 'x', '\n']

/-- It passes, and is loaded as none. -/
theorem endlessTtl_not_agreed :
    verifyTsv (fun _ => false) (fun s => some (columnValue s)) endlessTtl = some [] ∧
      ¬ LoaderAgrees 0 endlessTtl := by
  refine ⟨by decide +kernel, fun h => ?_⟩
  have hlines : nonEmptyLines endlessTtl = [endlessTtl.dropLast] := by decide +kernel
  have hlog : loadLog (textRows 0 endlessTtl) =
      [([cstr "ads"], ⟨.blocked, 0, 1, 5, 0, 0, some (cstr "x")⟩)] := by decide +kernel
  rw [LoaderAgrees] at h
  rw [hlines, hlog, forall₂_singleton_left] at h
  obtain ⟨p, hp, hentry⟩ := h
  rw [← (List.cons.inj hp).1] at hentry
  exact absurd hentry (by decide +kernel)

/-- Rows in both formats, an empty line between them and a `'\r'` at the end. -/
def goodFile : List Char :=
  ['B', '\t', 'A', 'd', 's', '\t', 'S', '\t', '5', '\t', '5', '\t', '1', '\t', '6', '0', '\t', 'x', '\n',
    '\n', 'B', '\t', 'b', '.', 'c', '\t', 'S', '\t', '5', '\t', '5', '\t', '1', '\t', 'x', '\r']

/-- A file that passes, and whose rows are loaded as it says. -/
theorem validator_vouches_goodFile : LoaderAgrees 0 goodFile := by
  refine (validator_vouches_iff (fun _ => false) (fun s => some (columnValue s)) 0
    (by decide +kernel)).mpr ?_
  decide +kernel

end Nyet
