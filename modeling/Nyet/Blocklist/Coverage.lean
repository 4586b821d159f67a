import Nyet.Blocklist.AllowRows

/-!
# What two files say about a domain

A lookup answers by the last rows of the paths at or above a domain, an `A` row before a `B`
row (`lookup_allowed_iff`, `lookup_blocked_iff`). So whether one file keeps the verdicts of
another is a matter of the paths that have rows: `keepsAllowed_iff` and `keepsBlocked_iff`
say what has to hold at each of them.
-/

namespace Nyet

/-- The last row of the path or of one above it has this status. -/
def Covered (rows : List Row) (st : Status) (ls : List Label) : Prop :=
  ∃ ks, ks ≠ [] ∧ ks <+: ls ∧ lastStatus rows ks = some st

variable {rows rows' : List Row} {st : Status} {ks ls : List Label}

theorem Covered.trans (h : Covered rows st ks) (hpre : ks <+: ls) : Covered rows st ls := by
  obtain ⟨ps, hne, hps, hlast⟩ := h
  exact ⟨ps, hne, hps.trans hpre, hlast⟩

theorem covered_iff : Covered rows st ls ↔ ∃ ks ∈ suffixPaths ls, lastStatus rows ks = some st := by
  rw [Covered]
  simp only [mem_suffixPaths, and_assoc]

instance : Decidable (Covered rows st ls) := decidable_of_iff _ covered_iff.symm

/-- A path with a row is the path of a domain. -/
theorem exists_domain (h : lastStatus rows ks = some st) :
    ks ≠ [] ∧ ∃ q : CStr, q.length < labelBufSize ∧ normalise q = ks := by
  obtain ⟨row, -, hloaded, -, rfl⟩ := exists_row_of_lastStatus h
  exact ⟨hloaded.2, row.domain, hloaded.1, rfl⟩

/-- **Later rows count first.** -/
theorem lastStatus_append (rows rows' : List Row) (ls : List Label) :
    lastStatus (rows ++ rows') ls = (lastStatus rows' ls).or (lastStatus rows ls) := by
  rw [lastStatus, lastInsert]
  rw [loadLog_append, List.reverse_append, List.find?_append, Option.map_or, Option.map_or]
  rfl

/-! ## Nothing but `B` rows -/

/-- Where there are only `B` rows, every row counts. -/
theorem lastStatus_blocked (hrows : ∀ row ∈ rows, row.entry.status = .blocked)
    {row : Row} (hrow : row ∈ rows) (hloaded : row.Loaded) :
    lastStatus rows (normalise row.domain) = some .blocked := by
  have hmem : (normalise row.domain, row.entry) ∈ (loadLog rows).reverse :=
    List.mem_reverse.mpr (mem_loadLog.mpr ⟨row, hrow, hloaded, rfl, rfl⟩)
  cases hlast : lastStatus rows (normalise row.domain) with
  | none =>
    rw [lastStatus, lastInsert] at hlast
    rw [Option.map_map, Option.map_eq_none_iff] at hlast
    exact absurd (decide_eq_true rfl) (List.find?_eq_none.mp hlast _ hmem)
  | some st =>
    obtain ⟨row', hrow', -, rfl, -⟩ := exists_row_of_lastStatus hlast
    rw [hrows row' hrow']

/-- The last row, where there are only `B` rows. -/
theorem lastStatus_eq_ite (hrows : ∀ row ∈ rows, row.entry.status = .blocked) (ls : List Label) :
    lastStatus rows ls =
      if ∃ row ∈ rows, row.Loaded ∧ normalise row.domain = ls then some .blocked else none := by
  split
  · next h =>
    obtain ⟨row, hrow, hloaded, rfl⟩ := h
    exact lastStatus_blocked hrows hrow hloaded
  · next h =>
    cases hlast : lastStatus rows ls with
    | none => rfl
    | some st =>
      obtain ⟨row, hrow, hloaded, -, hpath⟩ := exists_row_of_lastStatus hlast
      exact absurd ⟨row, hrow, hloaded, hpath⟩ h

theorem not_covered_allowed (hrows : ∀ row ∈ rows, row.entry.status = .blocked)
    (ls : List Label) : ¬ Covered rows .allowed ls := by
  rintro ⟨ks, -, -, hlast⟩
  obtain ⟨row, hrow, -, hst, -⟩ := exists_row_of_lastStatus hlast
  rw [hrows row hrow] at hst
  cases hst

theorem covered_blocked_iff (hrows : ∀ row ∈ rows, row.entry.status = .blocked) :
    Covered rows .blocked ls ↔ ∃ row ∈ rows, row.Loaded ∧ normalise row.domain <+: ls := by
  constructor
  · rintro ⟨ks, -, hpre, hlast⟩
    obtain ⟨row, hrow, hloaded, -, rfl⟩ := exists_row_of_lastStatus hlast
    exact ⟨row, hrow, hloaded, hpre⟩
  · rintro ⟨row, hrow, hloaded, hpre⟩
    exact ⟨_, hloaded.2, hpre, lastStatus_blocked hrows hrow hloaded⟩

/-! ## Lookups -/

section Lookups

variable {t t' : RadixTree}

theorem lookup_allowed_iff (h : RootRefines t.root (some (loadLog rows))) (asked : UInt32)
    (q : CStr) :
    (radixLookup t asked q).1.outcome = some .allowed ↔
      q.length < labelBufSize ∧ Covered rows .allowed (normalise q) := by
  by_cases hlen : q.length < labelBufSize
  · rw [h.lookup_outcome asked hlen, BlockMap.outcome_eq_allowed, covers_iff_lastStatus]
    exact (and_iff_right hlen).symm
  · rw [radixLookup_refused t asked (Nat.not_lt.mp hlen)]
    exact iff_of_false (fun h => nomatch h) fun h => hlen h.1

theorem lookup_blocked_iff (h : RootRefines t.root (some (loadLog rows))) (asked : UInt32)
    (q : CStr) :
    (radixLookup t asked q).1.outcome = some .blocked ↔
      q.length < labelBufSize ∧ Covered rows .blocked (normalise q) ∧
        ¬ Covered rows .allowed (normalise q) := by
  by_cases hlen : q.length < labelBufSize
  · rw [h.lookup_outcome asked hlen, BlockMap.outcome_eq_blocked, covers_iff_lastStatus,
      covers_iff_lastStatus]
    exact (and_iff_right hlen).symm
  · rw [radixLookup_refused t asked (Nat.not_lt.mp hlen)]
    exact iff_of_false (fun h => nomatch h) fun h => hlen h.1

/-- Every domain one tree ALLOWS is ALLOWED by the other. -/
def KeepsAllowed (t t' : RadixTree) : Prop :=
  ∀ asked q, (radixLookup t asked q).1.outcome = some .allowed →
    (radixLookup t' asked q).1.outcome = some .allowed

/-- Every domain one tree BLOCKS is BLOCKED by the other. -/
def KeepsBlocked (t t' : RadixTree) : Prop :=
  ∀ asked q, (radixLookup t asked q).1.outcome = some .blocked →
    (radixLookup t' asked q).1.outcome = some .blocked

/-- **ALLOWED stays ALLOWED** if it does at the paths whose last row is an `A` row. -/
theorem keepsAllowed_iff (h : RootRefines t.root (some (loadLog rows)))
    (h' : RootRefines t'.root (some (loadLog rows'))) :
    KeepsAllowed t t' ↔
      ∀ ks, lastStatus rows ks = some .allowed → Covered rows' .allowed ks := by
  rw [KeepsAllowed]
  simp only [lookup_allowed_iff h, lookup_allowed_iff h']
  constructor
  · intro hkeeps ks hlast
    obtain ⟨hne, q, hlen, rfl⟩ := exists_domain hlast
    exact (hkeeps 0 q ⟨hlen, normalise q, hne, List.prefix_refl _, hlast⟩).2
  · rintro hpaths asked q ⟨hlen, ks, -, hpre, hlast⟩
    exact ⟨hlen, (hpaths ks hlast).trans hpre⟩

/-- **BLOCKED stays BLOCKED** if it does at the paths whose last row is a `B` row, and nothing
at, above or below them is ALLOWED that was not. -/
theorem keepsBlocked_iff (h : RootRefines t.root (some (loadLog rows)))
    (h' : RootRefines t'.root (some (loadLog rows'))) :
    KeepsBlocked t t' ↔
      ∀ ks, lastStatus rows ks = some .blocked → ¬ Covered rows .allowed ks →
        Covered rows' .blocked ks ∧
          ∀ ps, ps <+: ks ∨ ks <+: ps → lastStatus rows' ps = some .allowed →
            Covered rows .allowed ps := by
  rw [KeepsBlocked]
  simp only [lookup_blocked_iff h, lookup_blocked_iff h']
  constructor
  · intro hkeeps ks hlast hfree
    obtain ⟨hne, q, hlen, rfl⟩ := exists_domain hlast
    have hself : Covered rows .blocked (normalise q) :=
      ⟨normalise q, hne, List.prefix_refl _, hlast⟩
    obtain ⟨-, hblocked, hfree'⟩ := hkeeps 0 q ⟨hlen, hself, hfree⟩
    refine ⟨hblocked, fun ps hps hallowed => ?_⟩
    obtain ⟨hpne, p, hplen, rfl⟩ := exists_domain hallowed
    rcases hps with hps | hps
    · exact absurd ⟨normalise p, hpne, hps, hallowed⟩ hfree'
    · -- a domain below is BLOCKED too, unless something else ALLOWS it
      by_contra hpfree
      exact (hkeeps 0 p ⟨hplen, hself.trans hps, hpfree⟩).2.2
        ⟨normalise p, hpne, List.prefix_refl _, hallowed⟩
  · rintro hpaths asked q ⟨hlen, ⟨ks, hne, hpre, hlast⟩, hfree⟩
    have hkfree : ¬ Covered rows .allowed ks := fun hk => hfree (hk.trans hpre)
    obtain ⟨hblocked, hnear⟩ := hpaths ks hlast hkfree
    refine ⟨hlen, hblocked.trans hpre, ?_⟩
    rintro ⟨ps, hpne, hps, hallowed⟩
    have hps' : ps <+: ks ∨ ks <+: ps := List.prefix_or_prefix_of_prefix hps hpre
    exact hfree ((hnear ps hps' hallowed).trans hps)

end Lookups

end Nyet
