import Nyet.RadixTree.Refinement

/-!
# Loading a TSV file (`load_blocklist`)

The row parser of `nyet.c`, byte by byte: `fgets` into a 1024-byte buffer,
`strtok_s`, the sniffed `ttl` column, and one `radix_insert` for each row. A file
is the bytes its stream delivers; a file that cannot be opened is `none`.
-/

namespace Nyet

/-- `'\t'` -/
def tab : UInt8 := 9

/-- `'\n'` -/
def newline : UInt8 := 10

/-- `'\r'` -/
def carriageReturn : UInt8 := 13

/-- `EntrySource` -/
inductive EntrySource where
  | static
  | heuristic
  | manual
  | piGravity
  deriving DecidableEq, Repr

/-- `(uint8_t)source` -/
def EntrySource.toUInt8 : EntrySource → UInt8
  | .static => 0
  | .heuristic => 1
  | .manual => 2
  | .piGravity => 3

/-- `parse_status` -/
def parseStatus (c : UInt8) : Status :=
  if c = 66 then .blocked        -- 'B'
  else if c = 65 then .allowed   -- 'A'
  else .review

/-- `parse_source` -/
def parseSource (c : UInt8) : EntrySource :=
  if c = 83 then .static           -- 'S'
  else if c = 72 then .heuristic   -- 'H'
  else if c = 71 then .piGravity   -- 'G'
  else .manual

/-- `isdigit` -/
def isDigit (c : UInt8) : Bool := 48 ≤ c && c ≤ 57

/-- `isspace` in the C locale. -/
def isSpace (c : UInt8) : Bool := c = 32 || (9 ≤ c && c ≤ 13)

/-- `is_all_digits`; an empty string is not all digits. -/
def isAllDigits (s : CStr) : Bool := !s.isEmpty && s.all isDigit

/-- The number a run of digits denotes. -/
def digitsValue (s : CStr) : Nat := s.foldl (fun n c => n * 10 + (c.toNat - 48)) 0

/-- `atoi`/`atoll` with results between `-bound - 1` and `bound`: leading white
space, an optional sign, digits; values out of range saturate. -/
def atoInt (bound : Int) (s : CStr) : Int :=
  let s := s.dropWhile isSpace
  let (neg, s) := match s with
    | 45 :: rest => (true, rest)    -- '-'
    | 43 :: rest => (false, rest)   -- '+'
    | s => (false, s)
  let value : Int := digitsValue (s.takeWhile isDigit)
  if neg then max (-bound - 1) (-value) else min bound value

/-- `(uint32_t)atoll(s)` -/
def atollU32 (s : CStr) : UInt32 := UInt32.ofInt (atoInt (2 ^ 63 - 1) s)

/-- `(uint32_t)atoi(s)` -/
def atoiU32 (s : CStr) : UInt32 := UInt32.ofInt (atoInt (2 ^ 31 - 1) s)

/-- `strtok_s(s, delims, &next)`: the token and the string `next` points to
afterwards. -/
def strtok (delims s : CStr) : Option CStr × CStr :=
  let s := s.dropWhile (delims.contains ·)
  if s = [] then (none, [])
  else (some (s.takeWhile fun c => !delims.contains c),
    (s.dropWhile fun c => !delims.contains c).drop 1)

/-- A parsed row: what `radix_insert` is called with. -/
structure Row where
  domain : CStr
  entry : Entry
  deriving DecidableEq, Repr

/-- `sizeof(note_buf)` -/
def noteBufSize : Nat := 512

/-- The last two columns: `ttl_s` if the next field is all digits, and
`note_s`. -/
def parseTtlNote (next : CStr) : Option CStr × Option CStr :=
  match strtok [tab] next with
  | (none, _) => (none, none)
  | (some field, next) =>
    if isAllDigits field then (some field, (strtok [carriageReturn, newline] next).1)
    else
      match (strtok [carriageReturn, newline] next).1 with
      | some rest => (none, some ((field ++ tab :: rest).take (noteBufSize - 1)))
      | none => (none, some field)

/-- The body of the loop of `load_blocklist` on one line; `now` is
`time(NULL) - DNS_EPOCH`. `none` is the `continue` on a missing status or
domain. -/
def parseRow (now : UInt32) (line : CStr) : Option Row :=
  let (statusS, next) := strtok [tab] line
  let (domainS, next) := strtok [tab] next
  let (sourceS, next) := strtok [tab] next
  let (_firstS, next) := strtok [tab] next
  let (lastS, next) := strtok [tab] next
  let (hitsS, next) := strtok [tab] next
  let (ttlS, noteS) := parseTtlNote next
  match statusS, domainS with
  | some status, some domain =>
    some ⟨domain,
      { status := parseStatus (status.headD 0)
        ttl := (ttlS.map atollU32).getD 0
        hitCount := (hitsS.map atoiU32).getD 0
        lastSeen := (lastS.map atollU32).getD now
        source := ((sourceS.map fun s => parseSource (s.headD 0)).getD .static).toUInt8
        mlScore := 0
        note := noteS }⟩
  | _, _ => none

/-- `sizeof(line)` -/
def lineBufSize : Nat := 1024

/-- How many bytes there are up to and including the first newline, or in all. -/
def throughNewline : CStr → Nat
  | [] => 0
  | c :: cs => if c = newline then 1 else throughNewline cs + 1

/-- `fgets(line, size, f)`: what is stored and what is left of the stream; `none`
at the end of the file. -/
def fgets (size : Nat) (f : CStr) : Option (CStr × CStr) :=
  if f = [] then none
  else
    let n := min (size - 1) (throughNewline f)
    some (f.take n, f.drop n)

/-- The rows `load_blocklist` reads from a stream. Every round consumes a byte,
so the length of the stream is fuel enough. -/
def readRows (now : UInt32) : Nat → CStr → List Row
  | 0, _ => []
  | fuel + 1, f =>
    match fgets lineBufSize f with
    | none => []
    | some (buf, rest) =>
      let line := asCStr buf
      if line.head? = some 35 ∨ line.head? = some newline ∨
          line.head? = some carriageReturn then   -- '#'
        readRows now fuel rest
      else if line.length = lineBufSize - 1 ∧ line.getLast? ≠ some newline then
        -- an oversized line: `while ((c = fgetc(f)) != EOF && c != '\n') {}`
        readRows now fuel (rest.drop (throughNewline rest))
      else
        match parseRow now line with
        | none => readRows now fuel rest
        | some row => row :: readRows now fuel rest

/-- The rows of a file; none if it cannot be opened. -/
def rowsOf (now : UInt32) (file : Option CStr) : List Row :=
  match file with
  | none => []
  | some bytes => readRows now bytes.length bytes

/-- One `radix_insert` per row; its return value is ignored. -/
def insertRows (b : RadixTreeBuilder) (rows : List Row) : RadixTreeBuilder :=
  rows.foldl (fun b row => (radixInsert [] b row.domain row.entry).2) b

/-- `load_blocklist`: how many rows were read, and the builder. -/
def loadBlocklist (now : UInt32) (b : RadixTreeBuilder) (file : Option CStr) :
    Nat × RadixTreeBuilder :=
  ((rowsOf now file).length, insertRows b (rowsOf now file))

/-- `blocklist.tsv` and then `learned.tsv` into one fresh builder: what
`proxy_init` publishes and `reload_thread_proc` swaps in. -/
def loadBoth (now : UInt32) (blocklist learned : Option CStr) : Option RadixTreeBuilder :=
  (radixBuilderInit []).map fun b =>
    (loadBlocklist now (loadBlocklist now b blocklist).2 learned).2

/-- The tree `proxy_init` starts with. -/
def initialTree (now : UInt32) (blocklist learned : Option CStr) : RadixTree :=
  match loadBoth now blocklist learned with
  | none => radixTreeInit
  | some b => (radixPublish radixTreeInit b).1

/-- The tree after `reload_thread_proc` has swapped in the files as they are
now. -/
def reloadedTree (now : UInt32) (t : RadixTree) (blocklist learned : Option CStr) : RadixTree :=
  match loadBoth now blocklist learned with
  | none => t
  | some b => (radixTreeSwap t b).1

/-! ## What is loaded -/

/-- A row `radix_insert` accepts. -/
def Row.Loaded (row : Row) : Prop := Insertable row.domain

instance (row : Row) : Decidable row.Loaded := inferInstanceAs (Decidable (Insertable _))

/-- The log of loading some rows. -/
def loadLog (rows : List Row) : InsertLog :=
  (rows.filter fun row => row.Loaded).map fun row => (normalise row.domain, row.entry)

theorem loadLog_cons (row : Row) (rows : List Row) :
    loadLog (row :: rows) =
      (if row.Loaded then [(normalise row.domain, row.entry)] else []) ++ loadLog rows := by
  unfold loadLog
  by_cases h : row.Loaded <;> simp [h]

theorem loadLog_append (rows rows' : List Row) :
    loadLog (rows ++ rows') = loadLog rows ++ loadLog rows' := by
  simp [loadLog]

theorem mem_loadLog {rows : List Row} {ls : List Label} {e : Entry} :
    (ls, e) ∈ loadLog rows ↔
      ∃ row ∈ rows, row.Loaded ∧ normalise row.domain = ls ∧ row.entry = e := by
  rw [loadLog]
  simp only [List.mem_map, List.mem_filter, decide_eq_true_eq, Prod.mk.injEq, and_assoc]

/-- Inserting rows extends a builder's log by theirs. -/
theorem insertRows_refines {b : RadixTreeBuilder} {log : InsertLog}
    (h : RootRefines b.root (some log)) (rows : List Row) :
    RootRefines (insertRows b rows).root (some (log ++ loadLog rows)) := by
  induction rows generalizing b log with
  | nil =>
    rw [show loadLog [] = [] from rfl, List.append_nil]
    exact h
  | cons row rows ih =>
    have hrow : RootRefines (radixInsert [] b row.domain row.entry).2.root
        (logInsert (some log) row.domain row.entry) :=
      (Refines.step (s := ⟨b, radixTreeInit⟩) (l := ⟨some log, none⟩) ⟨h, .none⟩
        (.insert row.domain row.entry)).builder
    have hlog : logInsert (some log) row.domain row.entry =
        some (log ++ if row.Loaded then [(normalise row.domain, row.entry)] else []) := by
      by_cases hins : row.Loaded
      · rw [if_pos hins]
        exact if_pos hins
      · rw [if_neg hins, List.append_nil]
        exact if_neg hins
    rw [loadLog_cons, ← List.append_assoc]
    exact ih (hlog ▸ hrow)

theorem loadBoth_refines (now : UInt32) (blocklist learned : Option CStr) :
    ∃ b, loadBoth now blocklist learned = some b ∧
      RootRefines b.root (some (loadLog (rowsOf now blocklist ++ rowsOf now learned))) := by
  have hinit : RootRefines (Lib.run TreeState.step .init [.builderInit]).builder.root
      (some []) := (Refines.run [.builderInit]).builder
  refine ⟨_, rfl, ?_⟩
  rw [loadLog_append]
  exact insertRows_refines (insertRows_refines hinit _) _

/-- **The published tree is the log of the two files' rows**, at startup and
after a reload. -/
theorem initialTree_refines (now : UInt32) (blocklist learned : Option CStr) :
    RootRefines (initialTree now blocklist learned).root
      (some (loadLog (rowsOf now blocklist ++ rowsOf now learned))) := by
  obtain ⟨b, hb, h⟩ := loadBoth_refines now blocklist learned
  rw [initialTree]
  rw [hb]
  exact (Refines.step (s := ⟨b, radixTreeInit⟩) (l := ⟨some _, none⟩) ⟨h, .none⟩ .publish).tree

theorem reloadedTree_refines (now : UInt32) (t : RadixTree) (blocklist learned : Option CStr) :
    RootRefines (reloadedTree now t blocklist learned).root
      (some (loadLog (rowsOf now blocklist ++ rowsOf now learned))) := by
  obtain ⟨b, hb, h⟩ := loadBoth_refines now blocklist learned
  rw [reloadedTree]
  rw [hb]
  exact ⟨(radixTreeSwap_isSome t b).trans h.isSome,
    (congrArg BlockMap.core (radixTreeSwap_map t b)).trans h.map⟩

/-! ## What a builder has entries for -/

/-- A row takes no entry away. -/
theorem radixInsert_keeps {b : RadixTreeBuilder} {ls : List Label} (h : b.map ls ≠ none)
    (domain : CStr) (e : Entry) : (radixInsert [] b domain e).2.map ls ≠ none := by
  obtain ⟨hdone, hrefused⟩ := radixInsert_spec b domain e
  by_cases hins : b.root.isSome = true ∧ Insertable domain
  · rw [(hdone hins).2.2, Function.update_apply]
    split
    · exact Option.some_ne_none e
    · exact h
  · rw [hrefused hins]
    exact h

theorem insertRows_keeps {b : RadixTreeBuilder} {ls : List Label} (h : b.map ls ≠ none)
    (rows : List Row) : (insertRows b rows).map ls ≠ none := by
  induction rows generalizing b with
  | nil => exact h
  | cons row rows ih => exact ih (radixInsert_keeps h row.domain row.entry)

theorem radixInsert_isSome {b : RadixTreeBuilder} (h : b.root.isSome = true) (domain : CStr)
    (e : Entry) : (radixInsert [] b domain e).2.root.isSome = true := by
  obtain ⟨hdone, hrefused⟩ := radixInsert_spec b domain e
  by_cases hins : b.root.isSome = true ∧ Insertable domain
  · exact (hdone hins).2.1
  · rw [hrefused hins]
    exact h

theorem insertRows_isSome {b : RadixTreeBuilder} (h : b.root.isSome = true) (rows : List Row) :
    (insertRows b rows).root.isSome = true := by
  induction rows generalizing b with
  | nil => exact h
  | cons row rows ih => exact ih (radixInsert_isSome h row.domain row.entry)

/-- The rows read have an entry each. -/
theorem insertRows_mem {b : RadixTreeBuilder} (h : b.root.isSome = true) {rows : List Row}
    {row : Row} (hrow : row ∈ rows) (hins : Insertable row.domain) :
    (insertRows b rows).map (normalise row.domain) ≠ none := by
  induction rows generalizing b with
  | nil => cases hrow
  | cons row' rows ih =>
    rcases List.mem_cons.mp hrow with rfl | hrow
    · refine insertRows_keeps ?_ rows
      rw [((radixInsert_spec b row.domain row.entry).1 ⟨h, hins⟩).2.2, Function.update_self]
      exact Option.some_ne_none row.entry
    · exact ih (radixInsert_isSome h row'.domain row'.entry) hrow

end Nyet
