import Nyet.Blocklist.RowFields
import Nyet.Packet.Query

/-!
# Learned entries (`append_learned_entry`)

The line a confirmed gravity check appends to `learned.tsv`, byte by byte, and what
`load_blocklist` makes of it: one row with the fields that were written
(`parseRow_learnedLine`), after the rows that were there (`rowsOf_appends`).
-/

namespace Nyet

/-- `isprint` in the C locale. -/
def isPrint (c : UInt8) : Bool := 32 ≤ c && c ≤ 126

/-- A hexadecimal digit of `%02X`. -/
def hexDigit (n : UInt8) : UInt8 := if n < 10 then 48 + n else 55 + n

/-- The loop of `sanitize_log_field`, with what is written so far. -/
def sanitizeLoop (outSize : Nat) (out : CStr) : CStr → CStr
  | [] => out
  | c :: rest =>
    if outSize ≤ out.length + 1 then out
    else if c = newline then
      if outSize ≤ out.length + 2 then out else sanitizeLoop outSize (out ++ [92, 110]) rest
    else if c = carriageReturn then
      if outSize ≤ out.length + 2 then out else sanitizeLoop outSize (out ++ [92, 114]) rest
    else if c = tab then
      if outSize ≤ out.length + 2 then out else sanitizeLoop outSize (out ++ [92, 116]) rest
    else if isPrint c then sanitizeLoop outSize (out ++ [c]) rest
    else if outSize ≤ out.length + 4 then out
    else sanitizeLoop outSize (out ++ [92, 120, hexDigit (c / 16), hexDigit (c % 16)]) rest

/-- `sanitize_log_field` into a buffer of `outSize` bytes. -/
def sanitizeLogField (field : CStr) (outSize : Nat) : CStr := sanitizeLoop outSize [] field

/-- `status_to_char` -/
def statusToChar : Status → UInt8
  | .blocked => 66
  | .allowed => 65
  | .review => 82

/-- `source_to_char` -/
def sourceToChar : EntrySource → UInt8
  | .static => 83
  | .heuristic => 72
  | .piGravity => 71
  | .manual => 77

/-- `%u`, and `%lld` of a number that is not negative. -/
def decimal (n : Nat) : CStr := (Nat.toDigits 10 n).map fun c => c.toNat.toUInt8

/-- The last column of a learned entry. -/
def learnedNote : CStr := cstr "pi_gravity_confirmed"

/-- The line `append_learned_entry` writes. -/
def learnedLine (status : Status) (source : EntrySource) (firstSeen lastSeen hitCount ttl : UInt32)
    (domain : CStr) : CStr :=
  [statusToChar status] ++ tab :: (sanitizeLogField domain maxDomainLen ++
    tab :: ([sourceToChar source] ++ tab :: (decimal firstSeen.toNat ++
      tab :: (decimal lastSeen.toNat ++ tab :: (decimal hitCount.toNat ++
        tab :: (decimal ttl.toNat ++ tab :: (learnedNote ++ [newline])))))))

/-- `append_learned_entry`: `fopen(path, "a")` may fail, and creates the file if there
is none. -/
def appendLearnedEntry (openOk : Bool) (file : Option CStr) (status : Status) (source : EntrySource)
    (firstSeen lastSeen hitCount ttl : UInt32) (domain : CStr) : Option CStr :=
  if openOk then
    some (file.getD [] ++ learnedLine status source firstSeen lastSeen hitCount ttl domain)
  else file

/-! ## Reading a line back -/

/-- What is printable and fits is copied. -/
theorem sanitizeLoop_of_isPrint {outSize : Nat} {field : CStr} (hprint : ∀ c ∈ field, isPrint c) :
    ∀ {out : CStr}, out.length + field.length < outSize →
      sanitizeLoop outSize out field = out ++ field := by
  induction field with
  | nil =>
    intro out _
    rw [sanitizeLoop, List.append_nil]
  | cons c rest ih =>
    intro out hroom
    have hc : isPrint c = true := hprint c List.mem_cons_self
    rw [List.length_cons] at hroom
    -- control characters are not printable
    have hcontrol : ∀ d : UInt8, isPrint d = false → c ≠ d := by
      rintro d hd rfl
      rw [hc] at hd
      cases hd
    rw [sanitizeLoop, if_neg (by omega), if_neg (hcontrol _ (by decide)),
      if_neg (hcontrol _ (by decide)), if_neg (hcontrol _ (by decide)), if_pos hc,
      ih (fun d hd => hprint d (List.mem_cons_of_mem _ hd)) (by simp; omega), List.append_assoc,
      List.singleton_append]

/-- Both digits of an escape are printable. -/
theorem isPrint_hexDigit : ∀ c : UInt8,
    isPrint (hexDigit (c / 16)) = true ∧ isPrint (hexDigit (c % 16)) = true :=
  forall_byte (by decide +kernel)

/-- What is written is printable, whatever is read. -/
theorem isPrint_sanitizeLoop {outSize : Nat} {field : CStr} : ∀ {out : CStr},
    (∀ c ∈ out, isPrint c = true) → ∀ c ∈ sanitizeLoop outSize out field, isPrint c = true := by
  induction field with
  | nil => exact fun h => h
  | cons d rest ih =>
    intro out h
    -- every branch appends bytes that are printable, or stops
    have happend : ∀ bytes : CStr, bytes.all isPrint = true →
        ∀ c ∈ sanitizeLoop outSize (out ++ bytes) rest, isPrint c = true := by
      intro bytes hbytes
      refine ih fun c hc => ?_
      rcases List.mem_append.mp hc with hc | hc
      · exact h c hc
      · exact List.all_eq_true.mp hbytes c hc
    rw [sanitizeLoop]
    split
    · exact h
    · split
      · split
        · exact h
        · exact happend [92, 110] (by decide)
      · split
        · split
          · exact h
          · exact happend [92, 114] (by decide)
        · split
          · split
            · exact h
            · exact happend [92, 116] (by decide)
          · split
            · next hprint => exact happend [d] (by simp [hprint])
            · split
              · exact h
              · obtain ⟨hhigh, hlow⟩ := isPrint_hexDigit d
                refine happend [92, 120, hexDigit (d / 16), hexDigit (d % 16)] ?_
                rw [List.all_cons, List.all_cons, List.all_cons, List.all_cons, hhigh, hlow]
                decide

/-- A sanitised field is printable: whatever the domain, it can neither end its column nor its line.
-/
theorem isPrint_sanitizeLogField {field : CStr} {outSize : Nat} :
    ∀ c ∈ sanitizeLogField field outSize, isPrint c = true :=
  isPrint_sanitizeLoop fun _ hc => absurd hc List.not_mem_nil

/-- Letters, digits and hyphens are printable. -/
theorem isPrint_of_isNameByte {c : UInt8} (h : isNameByte c = true) : isPrint c = true := by
  rw [isNameByte] at h
  rw [isPrint]
  simp only [Bool.or_eq_true, Bool.and_eq_true, decide_eq_true_eq, UInt8.le_iff_toNat_le,
    ← UInt8.toNat_inj, UInt8.reduceToNat] at h ⊢
  omega

/-- So a name as it came off the wire is, with its dots. -/
theorem WireName.isPrint {maxLen : Nat} {domain : CStr} (h : WireName maxLen domain) {c : UInt8}
    (hc : c ∈ domain) : Nyet.isPrint c = true := by
  rcases h.bytes c hc with hname | rfl
  · exact isPrint_of_isNameByte hname
  · decide

/-- A wire name is written as it is. -/
theorem WireName.sanitize {domain : CStr} (h : WireName maxDomainLen domain) :
    sanitizeLogField domain maxDomainLen = domain := by
  have hshort := h.short
  rw [sanitizeLogField]
  rw [sanitizeLoop_of_isPrint fun c hc => h.isPrint hc, List.nil_append]
  rw [maxDomainLen] at hshort ⊢
  rw [List.length_nil]
  omega

/-- The letter of a status is read back as the status. -/
theorem parseStatus_statusToChar (st : Status) : parseStatus (statusToChar st) = st := by
  cases st <;> rfl

/-- The letter of a source is read back as the source. -/
theorem parseSource_sourceToChar (source : EntrySource) :
    parseSource (sourceToChar source) = source := by
  cases source <;> rfl

/-- What `%u` writes is digits. -/
theorem isDigit_decimal (n : Nat) : ∀ c ∈ decimal n, isDigit c = true := by
  intro c hc
  obtain ⟨d, hd, rfl⟩ := List.mem_map.mp hc
  have hdigit := Nat.isDigit_of_mem_toDigits (by decide) (by decide) hd
  have hrange : 48 ≤ d.toNat ∧ d.toNat ≤ 57 := by
    simpa [Char.isDigit, UInt32.le_iff_toNat_le] using hdigit
  rw [isDigit]
  simp only [Bool.and_eq_true, decide_eq_true_eq, UInt8.le_iff_toNat_le, Nat.toUInt8_eq,
    UInt8.toNat_ofNat', UInt8.reduceToNat]
  omega

/-- Digits are printable. -/
theorem isPrint_decimal {n : Nat} {c : UInt8} (h : c ∈ decimal n) : isPrint c = true := by
  have hdigit := isDigit_decimal n c h
  rw [isDigit] at hdigit
  rw [isPrint]
  simp only [Bool.and_eq_true, decide_eq_true_eq, UInt8.le_iff_toNat_le, UInt8.reduceToNat]
    at hdigit ⊢
  omega

/-- Zero is written too, as a digit. -/
theorem decimal_ne_nil (n : Nat) : decimal n ≠ [] := by
  rw [decimal]
  simp

/-- The digits of a number have its value. -/
theorem digitsValue_decimal (n : Nat) : digitsValue (decimal n) = n := by
  rw [digitsValue, decimal]
  rw [List.foldl_map]
  calc (Nat.toDigits 10 n).foldl (fun m c => m * 10 + (c.toNat.toUInt8.toNat - 48)) 0
      = (Nat.toDigits 10 n).foldl (fun m c => 10 * m + (c.toNat - '0'.toNat)) 0 := by
        refine List.foldl_ext _ _ _ fun m c hc => ?_
        have hdigit := Nat.isDigit_of_mem_toDigits (by decide) (by decide) hc
        have hrange : 48 ≤ c.toNat ∧ c.toNat ≤ 57 := by
          simpa [Char.isDigit, UInt32.le_iff_toNat_le] using hdigit
        simp only [Nat.toUInt8_eq, UInt8.toNat_ofNat', Char.reduceToNat]
        omega
    _ = Nat.ofDigitChars 10 (Nat.toDigits 10 n) 0 := Nat.ofDigitChars_eq_foldl.symm
    _ = n := Nat.ofDigitChars_ten_toDigits

/-- A number below 2^32 survives `%u` and `atoll`, cast to 32 bits. -/
theorem atollU32_decimal (x : UInt32) : atollU32 (decimal x.toNat) = x := by
  have hlt := x.toNat_lt
  rw [atollU32]
  rw [atoInt_digits _ (decimal_ne_nil _) (isDigit_decimal _), digitsValue_decimal,
    min_eq_right (by omega), ofInt_toNat]

/-- A hit count goes through `atoi`, an `int`: it survives below 2^31 only. -/
theorem atoiU32_decimal {x : UInt32} (hx : x.toNat < 2 ^ 31) : atoiU32 (decimal x.toNat) = x := by
  rw [atoiU32]
  rw [atoInt_digits _ (decimal_ne_nil _) (isDigit_decimal _), digitsValue_decimal,
    min_eq_right (by omega), ofInt_toNat]

/-- The row a learned line stands for. -/
def learnedRow (status : Status) (source : EntrySource) (lastSeen hitCount ttl : UInt32)
    (domain : CStr) : Row :=
  ⟨domain, ⟨status, ttl, hitCount, lastSeen, source.toUInt8, 0, some learnedNote⟩⟩

/-- What is printable is a column. -/
theorem isField_of_isPrint {field : CStr} (hne : field ≠ []) (h : ∀ c ∈ field, isPrint c = true) :
    IsField field := by
  refine ⟨hne, fun c hc => ?_⟩
  have hprint := h c hc
  refine ⟨?_, ?_, ?_, ?_⟩
  · rintro rfl
    exact absurd hprint (by decide)
  · rintro rfl
    exact absurd hprint (by decide)
  · rintro rfl
    exact absurd hprint (by decide)
  · rintro rfl
    exact absurd hprint (by decide)

/-- A number is a column. -/
theorem isField_decimal (n : Nat) : IsField (decimal n) :=
  isField_of_isPrint (decimal_ne_nil n) fun _ hc => isPrint_decimal hc

/-- The columns of a learned line. -/
def learnedFields (status : Status) (source : EntrySource) (firstSeen lastSeen hitCount ttl : UInt32)
    (domain : CStr) : List CStr :=
  [[statusToChar status], domain, [sourceToChar source], decimal firstSeen.toNat,
    decimal lastSeen.toNat, decimal hitCount.toNat, decimal ttl.toNat, learnedNote]

/-- All eight columns of a learned line are columns: none is empty and none holds a tab. -/
theorem isField_learnedFields (status : Status) (source : EntrySource)
    (firstSeen lastSeen hitCount ttl : UInt32) {domain : CStr} (hname : WireName maxDomainLen domain)
    (hne : domain ≠ []) :
    ∀ field ∈ learnedFields status source firstSeen lastSeen hitCount ttl domain,
      IsField field := by
  have hstatus : IsField [statusToChar status] := by
    cases status <;> decide
  have hsource : IsField [sourceToChar source] := by
    cases source <;> decide
  have hdomain : IsField domain := isField_of_isPrint hne fun _ hc => hname.isPrint hc
  have hnote : IsField learnedNote := by decide
  rw [learnedFields]
  simp only [List.forall_mem_cons, List.not_mem_nil, false_imp_iff, implies_true, and_true]
  exact ⟨hstatus, hdomain, hsource, isField_decimal _, isField_decimal _, isField_decimal _,
    isField_decimal _, hnote⟩

/-- The line is its columns joined by tabs, the domain sanitised. -/
theorem learnedLine_eq_rowText (status : Status) (source : EntrySource)
    (firstSeen lastSeen hitCount ttl : UInt32) (domain : CStr) :
    learnedLine status source firstSeen lastSeen hitCount ttl domain =
      rowText (learnedFields status source firstSeen lastSeen hitCount ttl
        (sanitizeLogField domain maxDomainLen)) := by
  rw [learnedLine, rowText, learnedFields]
  simp only [tabbed_cons_cons, tabbed_singleton, List.append_assoc, List.cons_append]

/-- **A learned line parses to its row.** -/
theorem parseRow_learnedLine (now : UInt32) (status : Status) (source : EntrySource)
    (firstSeen lastSeen ttl : UInt32) {hitCount : UInt32} (hhits : hitCount.toNat < 2 ^ 31)
    {domain : CStr} (hname : WireName maxDomainLen domain) (hne : domain ≠ []) :
    parseRow now (learnedLine status source firstSeen lastSeen hitCount ttl domain) =
      some (learnedRow status source lastSeen hitCount ttl domain) := by
  have hfields := isField_learnedFields status source firstSeen lastSeen hitCount ttl hname hne
  have hdigits : isAllDigits (decimal ttl.toNat) = true := by
    rw [isAllDigits]
    rw [Bool.and_eq_true, Bool.not_eq_true', List.isEmpty_eq_false_iff, List.all_eq_true]
    exact ⟨decimal_ne_nil _, isDigit_decimal _⟩
  have hlast : parseTtlNote (rowText [decimal ttl.toNat, learnedNote]) =
      (some (decimal ttl.toNat), some learnedNote) := by
    rw [parseTtlNote_rowText, if_pos hdigits, tabbed_singleton]
    intro field hfield
    exact hfields field (List.mem_of_mem_drop (i := 6) hfield)
  rw [learnedLine_eq_rowText, hname.sanitize, learnedFields, parseRow_rowText now hfields, hlast]
  dsimp only [Option.map_some, Option.getD_some, List.headD_cons]
  rw [atollU32_decimal, atollU32_decimal, atoiU32_decimal hhits, parseStatus_statusToChar,
    parseSource_sourceToChar]
  rfl

/-! ## Appending to a file -/

/-- Ten digits at most, by which the line fits its buffer. -/
theorem decimal_length (x : UInt32) : (decimal x.toNat).length ≤ 10 := by
  rw [decimal]
  rw [List.length_map, Nat.length_toDigits_le_iff (by decide) (by decide)]
  have hlt := x.toNat_lt
  omega

/-- A learned line fits the line buffer. -/
theorem length_learnedFields (status : Status) (source : EntrySource)
    (firstSeen lastSeen hitCount ttl : UInt32) {domain : CStr}
    (hname : WireName maxDomainLen domain) :
    (tabbed (learnedFields status source firstSeen lastSeen hitCount ttl domain)).length + 1 <
      lineBufSize - 1 := by
  have hshort := hname.short
  have hfirst := decimal_length firstSeen
  have hlast := decimal_length lastSeen
  have hcount := decimal_length hitCount
  have httl := decimal_length ttl
  have hnote : learnedNote.length = 20 := by decide
  rw [maxDomainLen] at hshort
  rw [learnedFields, lineBufSize]
  simp only [tabbed_cons_cons, tabbed_singleton, List.length_append, List.length_cons,
    List.length_nil, hnote]
  omega

/-- **The rows of a learned line.** -/
theorem rowsOf_learnedLine (now : UInt32) (status : Status) (source : EntrySource)
    (firstSeen lastSeen ttl : UInt32) {hitCount : UInt32} (hhits : hitCount.toNat < 2 ^ 31)
    {domain : CStr} (hname : WireName maxDomainLen domain) (hne : domain ≠ []) :
    rowsOf now (some (learnedLine status source firstSeen lastSeen hitCount ttl domain)) =
      [learnedRow status source lastSeen hitCount ttl domain] := by
  have hparse := parseRow_learnedLine now status source firstSeen lastSeen ttl hhits hname hne
  have hfields := isField_learnedFields status source firstSeen lastSeen hitCount ttl hname hne
  have hhead : (tabbed (learnedFields status source firstSeen lastSeen hitCount ttl domain)).head? =
      some (statusToChar status) := rfl
  have hhash : statusToChar status ≠ 35 ∧ statusToChar status ≠ carriageReturn := by
    cases status <;> decide
  rw [learnedLine_eq_rowText, hname.sanitize, rowText] at hparse ⊢
  refine rowsOf_line now (length_learnedFields status source firstSeen lastSeen hitCount ttl hname)
    (fun c hc => ?_) ?_ ?_ hparse
  · obtain ⟨hnul, hnewline, -⟩ := tabbed_clean hfields hc
    exact ⟨hnul, hnewline⟩
  · rw [hhead]
    rfl
  · rw [hhead]
    exact ⟨fun h => hhash.1 (Option.some.inj h), fun h => hhash.2 (Option.some.inj h)⟩

/-- The line is ended, so the next one to be appended begins a line of its own. -/
theorem getLast?_learnedLine (status : Status) (source : EntrySource)
    (firstSeen lastSeen hitCount ttl : UInt32) (domain : CStr) :
    (learnedLine status source firstSeen lastSeen hitCount ttl domain).getLast? = some newline := by
  have hlast : ∀ pre rest : CStr, rest.getLast? = some newline →
      (pre ++ tab :: rest).getLast? = some newline := by
    intro pre rest h
    rw [List.getLast?_append, List.getLast?_cons, h]
    rfl
  rw [learnedLine]
  apply_rules [hlast]

/-- **What an append adds to the rows of a file** whose last line is complete. -/
theorem rowsOf_appendLearnedEntry (now : UInt32) {file : Option CStr} (status : Status)
    (source : EntrySource) (firstSeen lastSeen ttl : UInt32) {hitCount : UInt32}
    (hhits : hitCount.toNat < 2 ^ 31) {domain : CStr} (hname : WireName maxDomainLen domain)
    (hne : domain ≠ []) (hfile : EndsInNewline (file.getD [])) :
    rowsOf now (appendLearnedEntry true file status source firstSeen lastSeen hitCount ttl domain) =
      rowsOf now file ++ [learnedRow status source lastSeen hitCount ttl domain] ∧
    EndsInNewline ((appendLearnedEntry true file status source firstSeen lastSeen hitCount ttl
      domain).getD []) := by
  have hold : rowsOf now (some (file.getD [])) = rowsOf now file := by
    cases file <;> rfl
  rw [appendLearnedEntry]
  rw [if_pos rfl]
  constructor
  · rw [rowsOf_append now _ hfile, rowsOf_learnedLine now status source firstSeen lastSeen ttl hhits
      hname hne, hold]
  · refine Or.inr ?_
    show (file.getD [] ++ learnedLine _ _ _ _ _ _ _).getLast? = _
    rw [List.getLast?_append, getLast?_learnedLine]
    rfl

/-! ## A file of learned entries -/

/-- A call of `append_learned_entry`, and whether it can open the file. -/
structure LearnedCall where
  openOk : Bool
  status : Status
  source : EntrySource
  firstSeen : UInt32
  lastSeen : UInt32
  hitCount : UInt32
  ttl : UInt32
  domain : CStr
  deriving DecidableEq, Repr

def LearnedCall.append (file : Option CStr) (c : LearnedCall) : Option CStr :=
  appendLearnedEntry c.openOk file c.status c.source c.firstSeen c.lastSeen c.hitCount c.ttl c.domain

/-- The row a call writes. -/
def LearnedCall.row (c : LearnedCall) : Row :=
  learnedRow c.status c.source c.lastSeen c.hitCount c.ttl c.domain

/-- The file after some calls; there was none before. -/
def learnedFile (calls : List LearnedCall) : Option CStr := calls.foldl LearnedCall.append none

/-- The rows of the calls that could open the file, in order. -/
def learnedRows (calls : List LearnedCall) : List Row :=
  (calls.filter LearnedCall.openOk).map LearnedCall.row

/-- A call for a name from a query, with a hit count `atoi` can read. -/
structure LearnedCall.Valid (c : LearnedCall) : Prop where
  hits : c.hitCount.toNat < 2 ^ 31
  asked : ∃ packet qtype, question packet = some (c.domain, qtype)
  named : c.domain ≠ []

/-- The domain of a confirmed check came off the wire. -/
theorem LearnedCall.Valid.wireName {c : LearnedCall} (h : c.Valid) :
    WireName maxDomainLen c.domain := by
  obtain ⟨packet, qtype, hquestion⟩ := h.asked
  exact parseQuery_wireName hquestion

/-- Its row is one that `radix_insert` accepts. -/
theorem LearnedCall.Valid.loaded {c : LearnedCall} (h : c.Valid) : c.row.Loaded :=
  h.wireName.insertable h.named

/-- One call adds its row, if it can open the file. -/
theorem LearnedCall.Valid.append {c : LearnedCall} (h : c.Valid) (now : UInt32) {file : Option CStr}
    (hfile : EndsInNewline (file.getD [])) :
    rowsOf now (c.append file) = rowsOf now file ++ learnedRows [c] ∧
      EndsInNewline ((c.append file).getD []) := by
  rw [LearnedCall.append]
  cases hopen : c.openOk with
  | true =>
    obtain ⟨hrows, hend⟩ := rowsOf_appendLearnedEntry now c.status c.source c.firstSeen c.lastSeen
      c.ttl h.hits h.wireName h.named hfile
    refine ⟨hrows.trans ?_, hend⟩
    rw [learnedRows, List.filter_cons_of_pos hopen]
    rfl
  | false =>
    refine ⟨?_, hfile⟩
    rw [learnedRows, List.filter_cons_of_neg (by rw [hopen]; exact Bool.false_ne_true)]
    exact (List.append_nil _).symm

/-- **After the rows that were there**: the lines that are appended are read as their rows, in the
order of the calls. What is needed of the old file is that its last line is ended. -/
theorem rowsOf_appends (now : UInt32) {calls : List LearnedCall} (hcalls : ∀ c ∈ calls, c.Valid)
    {file : Option CStr} (hfile : EndsInNewline (file.getD [])) :
    rowsOf now (calls.foldl LearnedCall.append file) = rowsOf now file ++ learnedRows calls := by
  induction calls generalizing file with
  | nil => exact (List.append_nil _).symm
  | cons c calls ih =>
    obtain ⟨hrows, hend⟩ := (hcalls c List.mem_cons_self).append now hfile
    have hsplit : learnedRows (c :: calls) = learnedRows [c] ++ learnedRows calls := by
      unfold learnedRows
      rw [← List.map_append, ← List.filter_append, List.singleton_append]
    rw [List.foldl_cons, ih (fun c hc => hcalls c (List.mem_cons_of_mem _ hc)) hend, hrows, hsplit,
      List.append_assoc]

/-- **`learned.tsv` round-trips.** `load_blocklist` reads back, row by row, what a sequence of
calls has written, and into an empty builder it inserts all of it. -/
theorem learned_round_trip (now : UInt32) {calls : List LearnedCall}
    (hcalls : ∀ c ∈ calls, c.Valid) :
    rowsOf now (learnedFile calls) = learnedRows calls ∧
    ∃ b, radixBuilderInit [] = some b ∧
      loadBlocklist now b (learnedFile calls) =
        ((learnedRows calls).length, insertRows b (learnedRows calls)) ∧
      RootRefines (insertRows b (learnedRows calls)).root
        (some ((learnedRows calls).map fun row => (normalise row.domain, row.entry))) := by
  have hrows : rowsOf now (learnedFile calls) = learnedRows calls :=
    rowsOf_appends now hcalls (Or.inl rfl)
  -- every row is one `radix_insert` takes
  have hloaded : loadLog (learnedRows calls) =
      (learnedRows calls).map fun row => (normalise row.domain, row.entry) := by
    rw [loadLog]
    rw [List.filter_eq_self.mpr]
    intro row hrow
    obtain ⟨c, hc, rfl⟩ := List.mem_map.mp hrow
    exact decide_eq_true (hcalls c (List.mem_of_mem_filter hc)).loaded
  have hinit : RootRefines (Lib.run TreeState.step .init [.builderInit]).builder.root
      (some []) := (Refines.run [.builderInit]).builder
  refine ⟨hrows, _, rfl, ?_, ?_⟩
  · rw [loadBlocklist]
    rw [hrows]
  · rw [← hloaded]
    exact insertRows_refines hinit _

/-- A confirmed domain, an append that cannot open the file, and a later confirmation. -/
def twoConfirmed : List LearnedCall :=
  [⟨true, .blocked, .piGravity, 5, 5, 1, 0, cstr "ads.com"⟩,
    ⟨false, .blocked, .piGravity, 6, 6, 1, 0, cstr "ads.com"⟩,
    ⟨true, .blocked, .piGravity, 7, 4294967295, 1, 3600, cstr "ads.com"⟩]

/-- Two confirmed checks: both rows come back, and the tree that is built of the file holds them. -/
theorem learned_round_trip_two :
    rowsOf 0 (learnedFile twoConfirmed) = learnedRows twoConfirmed ∧
    ∃ b, radixBuilderInit [] = some b ∧
      loadBlocklist 0 b (learnedFile twoConfirmed) =
        ((learnedRows twoConfirmed).length, insertRows b (learnedRows twoConfirmed)) ∧
      RootRefines (insertRows b (learnedRows twoConfirmed)).root
        (some ((learnedRows twoConfirmed).map fun row => (normalise row.domain, row.entry))) := by
  have hasked : ∃ packet qtype, question packet = some (cstr "ads.com", qtype) :=
    ⟨queryPacket 1 [cstr "ads", cstr "com"] 1, 1, by decide +kernel⟩
  refine learned_round_trip 0 fun c hc => ?_
  have hfields : c.hitCount = 1 ∧ c.domain = cstr "ads.com" := by
    revert c
    decide
  exact ⟨by rw [hfields.1]; decide, hfields.2 ▸ hasked, by rw [hfields.2]; decide⟩

end Nyet
