import Nyet.Blocklist.Tsv

/-!
# When an ALLOW row wins

`CONFIGURATION.md` promises that an `A` row wins over any suffix-matched `B`. The
lookup keeps that promise along a path, but two rows for the same domain meet
before it, in `insert_path`, where the later one replaces the earlier one
whatever their statuses are. `AllowRowsKept` is exactly what the rows have to
satisfy for the promise to hold.
-/

namespace Nyet

/-- The status that the last row loaded for a path gives it. -/
def lastStatus (rows : List Row) (ls : List Label) : Option Status :=
  (lastInsert (loadLog rows) ls).map (·.status)

/-- `q` is `d` or below it. -/
def LabelSuffix (d q : CStr) : Prop := normalise d <+: normalise q

/-- A domain is ALLOWED exactly when a loaded `A` row is a label suffix of it. -/
def AllowRowsWin (t : RadixTree) (rows : List Row) : Prop :=
  ∀ (now : UInt32) (q : CStr), q.length < labelBufSize →
    ((radixLookup t now q).1.outcome = some .allowed ↔
      ∃ row ∈ rows, row.Loaded ∧ row.entry.status = .allowed ∧ LabelSuffix row.domain q)

/-- Every loaded `A` row has, at its own domain or at a parent domain, a last row
that is `A` too. -/
def AllowRowsKept (rows : List Row) : Prop :=
  ∀ row ∈ rows, row.Loaded → row.entry.status = .allowed →
    ∃ ks, ks ≠ [] ∧ ks <+: normalise row.domain ∧ lastStatus rows ks = some .allowed

theorem allowRowsKept_iff {rows : List Row} :
    AllowRowsKept rows ↔
      ∀ row ∈ rows, row.Loaded → row.entry.status = .allowed →
        ∃ ks ∈ suffixPaths (normalise row.domain), lastStatus rows ks = some .allowed := by
  rw [AllowRowsKept]
  simp only [mem_suffixPaths, and_assoc]

instance (rows : List Row) : Decidable (AllowRowsKept rows) :=
  decidable_of_iff _ allowRowsKept_iff.symm

instance (d q : CStr) : Decidable (LabelSuffix d q) :=
  inferInstanceAs (Decidable (_ <+: _))

theorem lastInsert_mem {log : InsertLog} {ls : List Label} {e : Entry}
    (h : lastInsert log ls = some e) : (ls, e) ∈ log := by
  obtain ⟨p, hfind, rfl⟩ := Option.map_eq_some_iff.mp h
  have hls : p.1 = ls := by simpa using List.find?_some hfind
  rw [← hls]
  exact List.mem_reverse.mp (List.mem_of_find?_eq_some hfind)

/-- What the rows say covers a domain is what their last rows say. -/
theorem covers_iff_lastStatus {rows : List Row} {st : Status} {ls : List Label} :
    (logMap (some (loadLog rows))).Covers st ls ↔
      ∃ ks, ks ≠ [] ∧ ks <+: ls ∧ lastStatus rows ks = some st := by
  constructor
  · rintro ⟨ks, e, hne, hpre, hM, rfl⟩
    exact ⟨ks, hne, hpre, congrArg (Option.map Entry.status) hM⟩
  · rintro ⟨ks, hne, hpre, hlast⟩
    obtain ⟨e, he, hst⟩ := Option.map_eq_some_iff.mp hlast
    exact ⟨ks, e, hne, hpre, he, hst⟩

/-- The last row for a path is one of the rows. -/
theorem exists_row_of_lastStatus {rows : List Row} {st : Status} {ks : List Label}
    (h : lastStatus rows ks = some st) :
    ∃ row ∈ rows, row.Loaded ∧ row.entry.status = st ∧ normalise row.domain = ks := by
  obtain ⟨e, he, hst⟩ := Option.map_eq_some_iff.mp h
  obtain ⟨row, hrow, hloaded, hls, rfl⟩ := mem_loadLog.mp (lastInsert_mem he)
  exact ⟨row, hrow, hloaded, hst, hls⟩

/-- A tree that holds exactly the rows' last entries lets the `A` rows win if
and only if each of them is kept. -/
theorem allowRowsWin_iff {t : RadixTree} {rows : List Row}
    (h : RootRefines t.root (some (loadLog rows))) :
    AllowRowsWin t rows ↔ AllowRowsKept rows := by
  constructor
  · -- ask the tree for the row's own domain
    intro hwin row hrow hloaded hst
    have hq := (hwin 0 row.domain hloaded.1).mpr
      ⟨row, hrow, hloaded, hst, List.prefix_refl _⟩
    rw [h.lookup_outcome 0 hloaded.1, BlockMap.outcome_eq_allowed] at hq
    exact covers_iff_lastStatus.mp hq
  · intro hkept now q hlen
    rw [h.lookup_outcome now hlen, BlockMap.outcome_eq_allowed, covers_iff_lastStatus]
    constructor
    · rintro ⟨ks, -, hpre, hlast⟩
      obtain ⟨row, hrow, hloaded, hst, rfl⟩ := exists_row_of_lastStatus hlast
      exact ⟨row, hrow, hloaded, hst, hpre⟩
    · rintro ⟨row, hrow, hloaded, hst, hsuffix⟩
      obtain ⟨ks, hne, hpre, hlast⟩ := hkept row hrow hloaded hst
      exact ⟨ks, hne, hpre.trans hsuffix, hlast⟩

/-- Two trees that let the `A` rows win and hold the same rows, in whatever
order, allow the same domains. -/
theorem AllowRowsWin.of_perm {t t' : RadixTree} {rows rows' : List Row}
    (h : AllowRowsWin t rows) (h' : AllowRowsWin t' rows') (hperm : rows.Perm rows')
    (now : UInt32) {q : CStr} (hlen : q.length < labelBufSize) :
    (radixLookup t now q).1.outcome = some .allowed ↔
      (radixLookup t' now q).1.outcome = some .allowed := by
  rw [h now q hlen, h' now q hlen]
  constructor
  · rintro ⟨row, hrow, hrest⟩
    exact ⟨row, hperm.mem_iff.mp hrow, hrest⟩
  · rintro ⟨row, hrow, hrest⟩
    exact ⟨row, hperm.mem_iff.mpr hrow, hrest⟩

/-- **When an ALLOW row always wins.** For the tree `proxy_init` publishes and
for the one a reload swaps in: exactly when every `A` row is kept. Rearranging
the rows, within a file or from one file to the other, then changes no ALLOWED
verdict, as long as the `A` rows are still kept. -/
theorem allow_rows_win_iff_kept (now : UInt32) (t : RadixTree) (blocklist learned : Option CStr) :
    let rows := rowsOf now blocklist ++ rowsOf now learned
    (AllowRowsWin (initialTree now blocklist learned) rows ↔ AllowRowsKept rows) ∧
    (AllowRowsWin (reloadedTree now t blocklist learned) rows ↔ AllowRowsKept rows) ∧
    ∀ blocklist' learned',
      rows.Perm (rowsOf now blocklist' ++ rowsOf now learned') → AllowRowsKept rows →
      AllowRowsKept (rowsOf now blocklist' ++ rowsOf now learned') →
      ∀ (time : UInt32) (q : CStr), q.length < labelBufSize →
        ((radixLookup (initialTree now blocklist learned) time q).1.outcome = some .allowed ↔
          (radixLookup (initialTree now blocklist' learned') time q).1.outcome =
            some .allowed) := by
  intro rows
  have hinit := initialTree_refines now blocklist learned
  refine ⟨allowRowsWin_iff hinit, allowRowsWin_iff (reloadedTree_refines now t _ _), ?_⟩
  intro blocklist' learned' hperm hkept hkept' time q hlen
  have hinit' := initialTree_refines now blocklist' learned'
  exact AllowRowsWin.of_perm ((allowRowsWin_iff hinit).mpr hkept)
    ((allowRowsWin_iff hinit').mpr hkept') hperm time hlen

/-- An `A` row in `blocklist.tsv` that a `B` row for the same domain in
`learned.tsv` replaces: the domain is BLOCKED. -/
theorem allow_row_replaced_by_learned_block :
    ¬ AllowRowsWin
      (initialTree 0 (some (cstr "A\texample.com\tM\t0\t0\t0\t60\tkeep\n"))
        (some (cstr "B\texample.com\tG\t0\t0\t1\t0\tpi_gravity_confirmed\n")))
      (rowsOf 0 (some (cstr "A\texample.com\tM\t0\t0\t0\t60\tkeep\n")) ++
        rowsOf 0 (some (cstr "B\texample.com\tG\t0\t0\t1\t0\tpi_gravity_confirmed\n"))) := by
  rw [allowRowsWin_iff (initialTree_refines _ _ _)]
  decide +kernel

/-- A blocked domain with an allowed subdomain, and the same rows the other way
round in the other file. -/
theorem allow_rows_win_below_block :
    AllowRowsWin
      (initialTree 0 (some (cstr "B\texample.com\tM\nA\tok.example.com\tM\n")) none)
      (rowsOf 0 (some (cstr "B\texample.com\tM\nA\tok.example.com\tM\n")) ++
        rowsOf 0 none) ∧
    (radixLookup
      (initialTree 0 none (some (cstr "A\tok.example.com\tM\nB\texample.com\tM\n"))) 7
      (cstr "a.ok.example.com")).1.outcome = some .allowed := by
  obtain ⟨hwin, -, hperm⟩ := allow_rows_win_iff_kept 0 radixTreeInit
    (some (cstr "B\texample.com\tM\nA\tok.example.com\tM\n")) none
  refine ⟨hwin.mpr (by decide +kernel), (hperm none
    (some (cstr "A\tok.example.com\tM\nB\texample.com\tM\n")) (by decide +kernel)
    (by decide +kernel) (by decide +kernel) 7 (cstr "a.ok.example.com") (by decide)).mp ?_⟩
  rw [hwin.mpr (by decide +kernel) 7 _ (by decide)]
  exact ⟨⟨cstr "ok.example.com", ⟨.allowed, 0, 0, 0, 2, 0, none⟩⟩, by decide, by decide, rfl,
    by decide⟩

end Nyet
