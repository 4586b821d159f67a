import Nyet.Blocklist.Text
import Nyet.Packet.Labels
import Nyet.RadixTree.Inheritance

/-!
# Dropping duplicate rows (`dedup_tsv.py`)

The script keeps the first line for each domain column, and `load_blocklist` the last row
for each path. `dedup_preserves_iff` says for which files that comes to the same verdicts:
where the row that is kept and the row that would have won agree on status and ttl, or
neither makes a difference to what the domain inherits from its parents.

A file that is not UTF-8 stops the script, which then writes nothing. `str.lower` is a
parameter.
-/

namespace Nyet

/-! ## The script -/

/-- How the loop takes a line: an empty line or a comment, one without a tab, or a row with
its domain column. -/
inductive TsvLine where
  | preserved
  | malformed
  | row (domain : List Char)
  deriving DecidableEq, Repr

/-- `lower` is `str.lower`. -/
def classify (lower : List Char → List Char) (rawLine : List Char) : TsvLine :=
  let line := pyStrip rawLine
  if line = [] ∨ line.head? = some '#' then .preserved
  else
    match line.splitOn '\t' with
    | _ :: column :: _ => .row (lower (pyStrip column))
    | _ => .malformed

/-- The loop of `deduplicate_tsv`: what it appends to `unique_rows`. -/
def dedupLoop (lower : List Char → List Char) (seenDomains : List (List Char)) :
    List (List Char) → List (List Char)
  | [] => []
  | rawLine :: lines =>
    match classify lower rawLine with
    | .preserved => rawLine :: dedupLoop lower seenDomains lines
    | .malformed => dedupLoop lower seenDomains lines
    | .row domain =>
      if domain ∈ seenDomains then dedupLoop lower seenDomains lines
      else rawLine :: dedupLoop lower (domain :: seenDomains) lines

/-- `deduplicate_tsv`, from text to text. -/
def deduplicateTsv (lower : List Char → List Char) (text : List Char) : List Char :=
  (dedupLoop lower [] (pyLines (universalNewlines text))).flatten

/-! ## What is loaded from either file -/

/-- The same answer. -/
def SameVerdict (r r' : LookupResult) : Prop :=
  r.matched = r'.matched ∧ r.status = r'.status ∧ r.ttl = r'.ttl

/-- **Deduplication preserves verdicts**: no query tells the file from what the script makes
of it. -/
def DedupPreserves (lower : List Char → List Char) (now : UInt32) (text : List Char) : Prop :=
  ∀ q, IsQuestion q → ∀ asked,
    SameVerdict
      (radixLookup (initialTree now (some (utf8 (deduplicateTsv lower text))) none) asked q).1
      (radixLookup (initialTree now (some (utf8 text)) none) asked q).1

/-- The line is no row, or no line before it has its domain column. -/
def FirstOfDomain (lower : List Char → List Char) (before : List (List Char))
    (rawLine : List Char) : Prop :=
  match classify lower rawLine with
  | .preserved => True
  | .malformed => False
  | .row domain => ∀ line ∈ before, classify lower line ≠ .row domain

instance (lower : List Char → List Char) (before : List (List Char)) (rawLine : List Char) :
    Decidable (FirstOfDomain lower before rawLine) := by
  rw [FirstOfDomain]
  split <;> infer_instance

/-- The lines of a file that are first with their domain column. -/
def firstLines (lower : List Char → List Char) (lines : List (List Char)) : List (List Char) :=
  (lines.zipIdx.filter fun p => FirstOfDomain lower (lines.take p.2) p.1).map Prod.fst

/-- The rows of these lines. -/
def firstRows (lower : List Char → List Char) (now : UInt32) (text : List Char) : List Row :=
  (firstLines lower (pyLines (universalNewlines text))).flatMap (textRows now)

/-- The last row for each path. -/
def lastRows (rows : List Row) : BlockMap := lastInsert (loadLog rows)

/-- The condition: for every domain that can be queried, the last row among the first lines
and the last row of all agree, or neither changes what the domain inherits. -/
def DuplicatesAgree (lower : List Char → List Char) (now : UInt32) (text : List Char) : Prop :=
  ∀ q, IsQuestion q → ∀ parent l, normalise q = parent ++ [l] →
    let kept := (lastRows (firstRows lower now text)).own (normalise q)
    let last := (lastRows (textRows now text)).own (normalise q)
    let inherited := (lastRows (textRows now text)).decision parent
    kept = last ∨ (decideOver inherited kept = inherited ∧ decideOver inherited last = inherited)

/-! ## The loop keeps first lines -/

theorem dedupLoop_eq (lower : List Char → List Char) {before seenDomains lines : List (List Char)}
    (hseen : ∀ domain, domain ∈ seenDomains ↔ ∃ line ∈ before, classify lower line = .row domain) :
    dedupLoop lower seenDomains lines =
      ((lines.zipIdx before.length).filter fun p =>
        FirstOfDomain lower ((before ++ lines).take p.2) p.1).map Prod.fst := by
  induction lines generalizing before seenDomains with
  | nil => rfl
  | cons rawLine lines ih =>
    have hbefore : (before ++ rawLine :: lines).take before.length = before := List.take_left
    have happend : before ++ rawLine :: lines = (before ++ [rawLine]) ++ lines := by
      rw [List.append_assoc, List.singleton_append]
    rw [List.zipIdx_cons, List.filter_cons, hbefore]
    -- the rest of the lines, with this one among those seen
    have hrest : ∀ {seen : List (List Char)},
        (∀ domain, domain ∈ seen ↔ ∃ line ∈ before ++ [rawLine], classify lower line = .row domain) →
        dedupLoop lower seen lines =
          ((lines.zipIdx (before.length + 1)).filter fun p =>
            FirstOfDomain lower ((before ++ rawLine :: lines).take p.2) p.1).map Prod.fst := by
      intro seen h
      rw [ih h, List.length_append, List.length_singleton, happend]
    have hextend : ∀ domain, (∃ line ∈ before ++ [rawLine], classify lower line = .row domain) ↔
        domain ∈ seenDomains ∨ classify lower rawLine = .row domain := by
      intro domain
      rw [hseen]
      simp [or_and_right, exists_or]
    rw [dedupLoop]
    cases hkind : classify lower rawLine with
    | preserved =>
      have hfirst : FirstOfDomain lower before rawLine := by
        rw [FirstOfDomain]
        rw [hkind]
        trivial
      rw [if_pos (decide_eq_true hfirst), List.map_cons]
      refine congrArg (rawLine :: ·) (hrest fun domain => ?_)
      rw [hextend, hkind]
      simp
    | malformed =>
      have hfirst : ¬ FirstOfDomain lower before rawLine := by
        rw [FirstOfDomain]
        rw [hkind]
        exact id
      rw [if_neg (by simpa using hfirst)]
      refine hrest fun domain => ?_
      rw [hextend, hkind]
      simp
    | row domain =>
      dsimp only
      have hfirst : FirstOfDomain lower before rawLine ↔ domain ∉ seenDomains := by
        rw [FirstOfDomain]
        rw [hkind, hseen]
        simp
      -- a row is kept if its domain column is new
      by_cases hmem : domain ∈ seenDomains
      · rw [if_pos hmem, if_neg (by simpa [hfirst] using hmem)]
        refine hrest fun d => ?_
        rw [hextend, hkind]
        constructor
        · exact Or.inl
        · rintro (hd | hd)
          · exact hd
          · cases hd
            exact hmem
      · rw [if_neg hmem, if_pos (decide_eq_true (hfirst.mpr hmem)), List.map_cons]
        refine congrArg (rawLine :: ·) (hrest fun d => ?_)
        rw [hextend, hkind, List.mem_cons, TsvLine.row.injEq, or_comm, @eq_comm _ d]

theorem dedupLoop_firstLines (lower : List Char → List Char) (lines : List (List Char)) :
    dedupLoop lower [] lines = firstLines lower lines :=
  @dedupLoop_eq lower [] [] lines fun domain => by simp

theorem firstLines_sublist (lower : List Char → List Char) (lines : List (List Char)) :
    (firstLines lower lines).Sublist lines := by
  have hsublist : (firstLines lower lines).Sublist (lines.zipIdx.map Prod.fst) :=
    List.filter_sublist.map Prod.fst
  rw [List.zipIdx_map_fst] at hsublist
  exact hsublist

/-! ## Rows line by line -/

/-- **What is loaded from the output**: the rows of the first lines. -/
theorem textRows_deduplicateTsv (lower : List Char → List Char) (now : UInt32) (text : List Char) :
    textRows now (deduplicateTsv lower text) = firstRows lower now text := by
  rw [deduplicateTsv, firstRows]
  rw [dedupLoop_firstLines]
  exact textRows_flatten now ((pyLines_ended _).sublist (firstLines_sublist lower _))

/-! ## Verdicts -/

theorem radixLookup_unmatched {t : RadixTree} {now : UInt32} {domain : CStr}
    (h : (radixLookup t now domain).1.matched = false) : (radixLookup t now domain).1 = .zero := by
  revert h
  rw [radixLookup]
  split
  · exact fun _ => rfl
  · split
    · exact fun _ => rfl
    · split
      · exact fun _ => rfl
      · exact fun h => absurd h.symm Bool.false_ne_true

/-- Two answers say the same if both decide so, for an unmatched one says nothing else. -/
theorem sameVerdict_iff {t t' : RadixTree} {now : UInt32} {domain : CStr} :
    SameVerdict (radixLookup t now domain).1 (radixLookup t' now domain).1 ↔
      (radixLookup t now domain).1.decision = (radixLookup t' now domain).1.decision := by
  have hunmatched := @radixLookup_unmatched t now domain
  have hunmatched' := @radixLookup_unmatched t' now domain
  generalize (radixLookup t now domain).1 = r at hunmatched ⊢
  generalize (radixLookup t' now domain).1 = r' at hunmatched' ⊢
  unfold SameVerdict LookupResult.decision
  cases hr : r.matched with
  | true =>
    cases hr' : r'.matched with
    | true => simp
    | false => simp
  | false =>
    cases hr' : r'.matched with
    | true => simp
    | false =>
      rw [hunmatched hr, hunmatched' hr']
      simp

/-- A tree loaded from a file decides by the last rows. -/
theorem initialTree_decision (now asked : UInt32) (text : List Char) {domain : CStr}
    (hlen : domain.length < labelBufSize) :
    (radixLookup (initialTree now (some (utf8 text)) none) asked domain).1.decision =
      (lastRows (textRows now text)).decision (normalise domain) := by
  have hdecision : (initialTree now (some (utf8 text)) none).map.decision (normalise domain) = _ :=
    BlockMap.decision_of_core (initialTree_refines now (some (utf8 text)) none).map _
  rw [radixLookup_decision _ _ hlen, hdecision]
  rw [lastRows, logMap, textRows]
  rw [show rowsOf now none = [] from rfl, List.append_nil, Option.getD_some]

/-- **When deduplication preserves verdicts**: for every file, exactly if its duplicates agree
where they make a difference. -/
theorem dedup_preserves_iff (lower : List Char → List Char) (now : UInt32) (text : List Char) :
    DedupPreserves lower now text ↔ DuplicatesAgree lower now text := by
  -- the parents of the domains that can be queried can be queried as well
  have hparent : ∀ ls l, (∃ q, IsQuestion q ∧ normalise q = ls ++ [l]) →
      ∃ q, IsQuestion q ∧ normalise q = ls := by
    rintro ls l ⟨q, hq, hls⟩
    exact hq.parent hls
  have hdecisions : DedupPreserves lower now text ↔
      ∀ ls, (∃ q, IsQuestion q ∧ normalise q = ls) →
        (lastRows (firstRows lower now text)).decision ls =
          (lastRows (textRows now text)).decision ls := by
    constructor
    · rintro h ls ⟨q, hq, rfl⟩
      have hsame := sameVerdict_iff.mp (h q hq 0)
      rw [initialTree_decision now 0 _ hq.short, initialTree_decision now 0 _ hq.short,
        textRows_deduplicateTsv] at hsame
      exact hsame
    · intro h q hq asked
      rw [sameVerdict_iff, initialTree_decision now asked _ hq.short,
        initialTree_decision now asked _ hq.short, textRows_deduplicateTsv]
      exact h _ ⟨q, hq, rfl⟩
  rw [hdecisions, BlockMap.decision_congr_iff hparent]
  constructor
  · intro h q hq parent l hls
    rw [hls]
    exact decideOver_eq_iff.mp (h parent l ⟨q, hq, hls⟩)
  · rintro h parent l ⟨q, hq, hls⟩
    have hagree := h q hq parent l hls
    rw [hls] at hagree
    exact decideOver_eq_iff.mpr hagree

/-- A BLOCKED row and, further down, an ALLOWED row for the same domain. -/
def overruled : List Char :=
  ['B', '\t', 'a', 'd', 's', '\t', 'S', '\n', 'A', '\t', 'a', 'd', 's', '\t', 'M', '\n']

/-- The row that overrules the other is the one that is dropped. -/
theorem overruled_not_preserved : ¬ DedupPreserves (List.map Char.toLower) 0 overruled := by
  intro h
  have hq : IsQuestion (cstr "ads") := ⟨queryPacket 1 [cstr "ads"] 1, 1, by decide +kernel⟩
  exact absurd (h _ hq 0).2.1 (by decide +kernel)

end Nyet
