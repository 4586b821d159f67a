import Nyet.RadixTree.Tree

/-!
# What a blocklist says

The abstract model: a blocklist is a partial map from label paths (most general
label first) to entries, and its verdict on a domain is the entry of the longest
suffix of the domain that is ALLOWED, else of the longest BLOCKED one, else of
the longest in REVIEW. `RadixTree.map` reads a tree as such a map; the
operations of `radix_tree.c` act on it as updates, and `radix_lookup` returns
its verdict (`radixLookup_verdict`).
-/

/-! ## The last element of the highest rank

A left-to-right scan that keeps one candidate and replaces it whenever the next
element ranks at least as high. What survives is the *last* element among those
of the *highest* rank. -/

namespace Nyet.Lib

universe u

variable {α : Type u} (rank : α → Nat)

/-- One step of the scan. -/
def keepBest (best : Option α) (x : α) : Option α :=
  match best with
  | none => some x
  | some b => if rank b ≤ rank x then some x else some b

/-- The last element of `xs` that has rank `r`. -/
def lastOfRank (r : Nat) (xs : List α) : Option α :=
  xs.reverse.find? fun x => rank x = r

theorem lastOfRank_concat (r : Nat) (xs : List α) (x : α) :
    lastOfRank rank r (xs ++ [x]) = if rank x = r then some x else lastOfRank rank r xs := by
  unfold lastOfRank
  rw [List.reverse_append, List.reverse_singleton, List.singleton_append, List.find?_cons]
  by_cases h : rank x = r <;> simp [h]

theorem lastOfRank_eq_none {r : Nat} {xs : List α} :
    lastOfRank rank r xs = none ↔ ∀ x ∈ xs, rank x ≠ r := by
  simp [lastOfRank, List.find?_eq_none]

theorem lastOfRank_some {r : Nat} {xs : List α} {x : α}
    (h : lastOfRank rank r xs = some x) : x ∈ xs ∧ rank x = r := by
  refine ⟨List.mem_reverse.mp (List.mem_of_find?_eq_some h), ?_⟩
  simpa using List.find?_some h

/-- What the scan has kept after `xs`: nothing if `xs` is empty, else the last
element of the highest rank. -/
theorem foldl_keepBest_spec (xs : List α) :
    (xs = [] ∧ xs.foldl (keepBest rank) none = none) ∨
    ∃ b, xs.foldl (keepBest rank) none = some b ∧ (∀ x ∈ xs, rank x ≤ rank b) ∧
      lastOfRank rank (rank b) xs = some b := by
  induction xs using List.reverseRecOn with
  | nil => exact Or.inl ⟨rfl, rfl⟩
  | append_singleton xs x ih =>
    right
    rw [List.foldl_concat]
    rcases ih with ⟨rfl, hnil⟩ | ⟨b, hfold, hmax, hlast⟩
    · rw [hnil]
      exact ⟨x, rfl, by simp, by simp [lastOfRank]⟩
    · rw [hfold]
      -- an element of the same rank takes the place, so the last of them stays
      by_cases hle : rank b ≤ rank x
      · refine ⟨x, by simp [keepBest, hle], ?_, by simp [lastOfRank_concat]⟩
        intro y hy
        rcases List.mem_append.mp hy with hy | hy
        · exact Nat.le_trans (hmax y hy) hle
        · exact Nat.le_of_eq (congrArg rank (List.mem_singleton.mp hy))
      · refine ⟨b, by simp [keepBest, hle], ?_, ?_⟩
        · intro y hy
          rcases List.mem_append.mp hy with hy | hy
          · exact hmax y hy
          · rw [List.mem_singleton.mp hy]
            omega
        · rw [lastOfRank_concat, if_neg (by omega), hlast]

end Nyet.Lib

namespace Nyet

/-- A partial map from label paths to entries. -/
abbrev BlockMap := List Label → Option Entry

/-- The label suffixes of a domain given as its labels from the right: the
non-empty prefixes of that list, shortest first. -/
def suffixPaths (ls : List Label) : List (List Label) := ls.inits.tail

/-- The entries on the way down, most general first. -/
def BlockMap.entriesOn (M : BlockMap) (ls : List Label) : List Entry :=
  (suffixPaths ls).filterMap M

/-- The entry of the longest suffix that `M` maps to the status `st`. -/
def BlockMap.longest (M : BlockMap) (st : Status) (ls : List Label) : Option Entry :=
  ((suffixPaths ls).reverse.filterMap M).find? fun e => e.status = st

/-- ALLOWED beats BLOCKED beats REVIEW; within a status the longest suffix
wins. -/
def BlockMap.verdict (M : BlockMap) (ls : List Label) : Option Entry :=
  (M.longest .allowed ls).or ((M.longest .blocked ls).or (M.longest .review ls))

theorem suffixPaths_nil : suffixPaths [] = [] := rfl

theorem suffixPaths_cons (l : Label) (ls : List Label) :
    suffixPaths (l :: ls) = [l] :: (suffixPaths ls).map (List.cons l) := by
  unfold suffixPaths
  cases ls <;> simp [List.inits]

theorem mem_suffixPaths {ls ks : List Label} :
    ks ∈ suffixPaths ls ↔ ks ≠ [] ∧ ks <+: ls := by
  induction ls generalizing ks with
  | nil =>
    rw [suffixPaths_nil, List.prefix_nil]
    simp
  | cons l ls ih =>
    rw [suffixPaths_cons, List.mem_cons, List.mem_map]
    constructor
    · rintro (rfl | ⟨js, hjs, rfl⟩)
      · exact ⟨List.cons_ne_nil _ _, by simp⟩
      · exact ⟨List.cons_ne_nil _ _, (List.prefix_cons_inj l).mpr (ih.mp hjs).2⟩
    · rintro ⟨hne, hpre⟩
      cases ks with
      | nil => exact absurd rfl hne
      | cons k ks =>
        obtain ⟨rfl, htail⟩ := List.cons_prefix_cons.mp hpre
        cases ks with
        | nil => exact Or.inl rfl
        | cons k' ks => exact Or.inr ⟨_, ih.mpr ⟨List.cons_ne_nil _ _, htail⟩, rfl⟩

theorem BlockMap.mem_entriesOn {M : BlockMap} {ls : List Label} {e : Entry} :
    e ∈ M.entriesOn ls ↔ ∃ ks, ks ≠ [] ∧ ks <+: ls ∧ M ks = some e := by
  rw [BlockMap.entriesOn]
  rw [List.mem_filterMap]
  constructor
  · rintro ⟨ks, hks, he⟩
    exact ⟨ks, (mem_suffixPaths.mp hks).1, (mem_suffixPaths.mp hks).2, he⟩
  · rintro ⟨ks, hne, hpre, he⟩
    exact ⟨ks, mem_suffixPaths.mpr ⟨hne, hpre⟩, he⟩

/-! ## The verdict as a precedence scan -/

/-- REVIEW < BLOCKED < ALLOWED -/
def Status.rank : Status → Nat
  | .review => 0
  | .blocked => 1
  | .allowed => 2

theorem Status.rank_inj {s t : Status} : s.rank = t.rank ↔ s = t := by
  cases s <;> cases t <;> decide

theorem BlockMap.longest_eq (M : BlockMap) (st : Status) (ls : List Label) :
    M.longest st ls = Lib.lastOfRank (fun e => e.status.rank) st.rank (M.entriesOn ls) := by
  rw [BlockMap.longest, Lib.lastOfRank, BlockMap.entriesOn]
  rw [← List.filterMap_reverse]
  congr 1
  funext e
  rw [decide_eq_decide]
  exact Status.rank_inj.symm

theorem BlockMap.longest_eq_none {M : BlockMap} {st : Status} {ls : List Label} :
    M.longest st ls = none ↔ ∀ ks e, ks ≠ [] → ks <+: ls → M ks = some e → e.status ≠ st := by
  rw [BlockMap.longest_eq, Lib.lastOfRank_eq_none]
  constructor
  · intro h ks e hne hpre he hst
    exact h e (BlockMap.mem_entriesOn.mpr ⟨ks, hne, hpre, he⟩) (Status.rank_inj.mpr hst)
  · intro h e he hrank
    obtain ⟨ks, hne, hpre, hM⟩ := BlockMap.mem_entriesOn.mp he
    exact h ks e hne hpre hM (Status.rank_inj.mp hrank)

theorem BlockMap.longest_some {M : BlockMap} {st : Status} {ls : List Label} {e : Entry}
    (h : M.longest st ls = some e) :
    e.status = st ∧ ∃ ks, ks ≠ [] ∧ ks <+: ls ∧ M ks = some e := by
  rw [BlockMap.longest_eq] at h
  obtain ⟨hmem, hrank⟩ := Lib.lastOfRank_some _ h
  exact ⟨Status.rank_inj.mp hrank, BlockMap.mem_entriesOn.mp hmem⟩

/-- The verdict is what a left-to-right scan for the last entry of the highest
rank keeps. -/
theorem BlockMap.verdict_eq_scan (M : BlockMap) (ls : List Label) :
    M.verdict ls = (M.entriesOn ls).foldl (Lib.keepBest fun e => e.status.rank) none := by
  rw [BlockMap.verdict]
  rw [BlockMap.longest_eq, BlockMap.longest_eq, BlockMap.longest_eq]
  rcases Lib.foldl_keepBest_spec (fun e : Entry => e.status.rank) (M.entriesOn ls) with
    ⟨hnil, hfold⟩ | ⟨b, hfold, hmax, hlast⟩
  · rw [hfold, hnil]
    rfl
  · -- nothing of a higher rank than the one kept, so the lookups before it in the `or` are empty
    have hnone : ∀ st : Status, b.status.rank < st.rank →
        Lib.lastOfRank (fun e : Entry => e.status.rank) st.rank (M.entriesOn ls) = none := by
      intro st hst
      rw [Lib.lastOfRank_eq_none]
      intro e he
      have := hmax e he
      omega
    rw [hfold]
    cases hb : b.status with
    | allowed => rw [hb] at hlast; rw [hlast, Option.some_or]
    | blocked =>
      rw [hb] at hlast
      rw [hnone .allowed (by rw [hb]; decide), hlast, Option.none_or, Option.some_or]
    | review =>
      rw [hb] at hlast
      rw [hnone .allowed (by rw [hb]; decide), hnone .blocked (by rw [hb]; decide), hlast,
        Option.none_or, Option.none_or]

/-! ## Reading the verdict -/

/-- Some suffix of the domain has an entry of status `st`. -/
def BlockMap.Covers (M : BlockMap) (st : Status) (ls : List Label) : Prop :=
  ∃ ks e, ks ≠ [] ∧ ks <+: ls ∧ M ks = some e ∧ e.status = st

/-- The status of the verdict. -/
def BlockMap.outcome (M : BlockMap) (ls : List Label) : Option Status :=
  (M.verdict ls).map (·.status)

theorem BlockMap.longest_isNone {M : BlockMap} {st : Status} {ls : List Label} :
    M.longest st ls = none ↔ ¬ M.Covers st ls := by
  rw [BlockMap.longest_eq_none]
  constructor
  · rintro h ⟨ks, e, hne, hpre, hM, hst⟩
    exact h ks e hne hpre hM hst
  · intro h ks e hne hpre hM hst
    exact h ⟨ks, e, hne, hpre, hM, hst⟩

/-- The verdict's status, by cases on which statuses cover the domain. -/
theorem BlockMap.outcome_cases (M : BlockMap) (ls : List Label) :
    (M.Covers .allowed ls ∧ M.outcome ls = some .allowed) ∨
    (¬ M.Covers .allowed ls ∧ M.Covers .blocked ls ∧ M.outcome ls = some .blocked) ∨
    (¬ M.Covers .allowed ls ∧ ¬ M.Covers .blocked ls ∧ M.Covers .review ls ∧
      M.outcome ls = some .review) ∨
    ((∀ st, ¬ M.Covers st ls) ∧ M.outcome ls = none) := by
  have hcovers : ∀ {st e}, M.longest st ls = some e → M.Covers st ls ∧ e.status = st := by
    intro st e h
    obtain ⟨hst, ks, hne, hpre, hM⟩ := BlockMap.longest_some h
    exact ⟨⟨ks, e, hne, hpre, hM, hst⟩, hst⟩
  rw [BlockMap.outcome, BlockMap.verdict]
  -- in the order of precedence; each case knows that the ones before it have failed
  cases ha : M.longest .allowed ls with
  | some e =>
    obtain ⟨hcov, hst⟩ := hcovers ha
    exact Or.inl ⟨hcov, congrArg some hst⟩
  | none =>
    have hna := BlockMap.longest_isNone.mp ha
    cases hb : M.longest .blocked ls with
    | some e =>
      obtain ⟨hcov, hst⟩ := hcovers hb
      exact Or.inr (Or.inl ⟨hna, hcov, congrArg some hst⟩)
    | none =>
      have hnb := BlockMap.longest_isNone.mp hb
      cases hr : M.longest .review ls with
      | some e =>
        obtain ⟨hcov, hst⟩ := hcovers hr
        exact Or.inr (Or.inr (Or.inl ⟨hna, hnb, hcov, congrArg some hst⟩))
      | none =>
        refine Or.inr (Or.inr (Or.inr ⟨fun st => ?_, rfl⟩))
        cases st with
        | allowed => exact hna
        | blocked => exact hnb
        | review => exact BlockMap.longest_isNone.mp hr

theorem BlockMap.outcome_eq_allowed {M : BlockMap} {ls : List Label} :
    M.outcome ls = some .allowed ↔ M.Covers .allowed ls := by
  rcases M.outcome_cases ls with ⟨h, ho⟩ | ⟨h, -, ho⟩ | ⟨h, -, -, ho⟩ | ⟨h, ho⟩ <;> simp [ho, h]

/-- Without an ALLOWED suffix, a BLOCKED one decides. -/
theorem BlockMap.outcome_eq_blocked {M : BlockMap} {ls : List Label} :
    M.outcome ls = some .blocked ↔ M.Covers .blocked ls ∧ ¬ M.Covers .allowed ls := by
  rcases M.outcome_cases ls with ⟨h, ho⟩ | ⟨h, h', ho⟩ | ⟨h, h', -, ho⟩ | ⟨h, ho⟩ <;>
    simp [*]

/-- A REVIEW entry decides where nothing else does. -/
theorem BlockMap.outcome_eq_review {M : BlockMap} {ls : List Label} :
    M.outcome ls = some .review ↔
      M.Covers .review ls ∧ ¬ M.Covers .blocked ls ∧ ¬ M.Covers .allowed ls := by
  rcases M.outcome_cases ls with ⟨h, ho⟩ | ⟨h, h', ho⟩ | ⟨h, h', h'', ho⟩ | ⟨h, ho⟩ <;>
    simp [*]

theorem BlockMap.outcome_eq_none {M : BlockMap} {ls : List Label} :
    M.outcome ls = none ↔ ∀ st, ¬ M.Covers st ls := by
  rcases M.outcome_cases ls with ⟨h, ho⟩ | ⟨-, h, ho⟩ | ⟨-, -, h, ho⟩ | ⟨h, ho⟩
  · simp only [ho, reduceCtorEq, false_iff, not_forall, not_not]
    exact ⟨_, h⟩
  · simp only [ho, reduceCtorEq, false_iff, not_forall, not_not]
    exact ⟨_, h⟩
  · simp only [ho, reduceCtorEq, false_iff, not_forall, not_not]
    exact ⟨_, h⟩
  · simp [ho, h]

/-! ## Decided domains -/

/-- A BLOCKED or ALLOWED entry covers the domain. -/
def BlockMap.Decided (M : BlockMap) (ls : List Label) : Prop :=
  ∃ ks e, ks ≠ [] ∧ ks <+: ls ∧ M ks = some e ∧ e.status ≠ .review

/-- One that stands elsewhere than at `k` does. -/
def BlockMap.DecidedBut (M : BlockMap) (k ls : List Label) : Prop :=
  ∃ ks e, ks ≠ [] ∧ ks <+: ls ∧ ks ≠ k ∧ M ks = some e ∧ e.status ≠ .review

theorem BlockMap.decided_iff_covers {M : BlockMap} {ls : List Label} :
    M.Decided ls ↔ M.Covers .blocked ls ∨ M.Covers .allowed ls := by
  constructor
  · rintro ⟨ks, e, hne, hpre, hM, hst⟩
    cases hstatus : e.status with
    | blocked => exact Or.inl ⟨ks, e, hne, hpre, hM, hstatus⟩
    | allowed => exact Or.inr ⟨ks, e, hne, hpre, hM, hstatus⟩
    | review => exact absurd hstatus hst
  · rintro (⟨ks, e, hne, hpre, hM, hst⟩ | ⟨ks, e, hne, hpre, hM, hst⟩)
    · exact ⟨ks, e, hne, hpre, hM, by rw [hst]; decide⟩
    · exact ⟨ks, e, hne, hpre, hM, by rw [hst]; decide⟩

/-- To be decided is to be BLOCKED unless something is ALLOWED. -/
theorem BlockMap.decided_iff_outcome {M : BlockMap} {ls : List Label} :
    M.Decided ls ↔ (¬ M.Covers .allowed ls → M.outcome ls = some .blocked) := by
  rw [BlockMap.decided_iff_covers, BlockMap.outcome_eq_blocked]
  tauto

/-- The entry that decides stands at `k` or elsewhere. -/
theorem BlockMap.decided_split (M : BlockMap) {k ls : List Label} :
    M.Decided ls ↔ M.DecidedBut k ls ∨
      (k ≠ [] ∧ k <+: ls ∧ ∃ e, M k = some e ∧ e.status ≠ .review) := by
  constructor
  · rintro ⟨ks, e, hne, hpre, hM, hst⟩
    by_cases hks : ks = k
    · subst hks
      exact Or.inr ⟨hne, hpre, e, hM, hst⟩
    · exact Or.inl ⟨ks, e, hne, hpre, hks, hM, hst⟩
  · rintro (⟨ks, e, hne, hpre, -, hM, hst⟩ | ⟨hne, hpre, e, hM, hst⟩)
    · exact ⟨ks, e, hne, hpre, hM, hst⟩
    · exact ⟨k, e, hne, hpre, hM, hst⟩

theorem BlockMap.decidedBut_congr {M N : BlockMap} {k ls : List Label}
    (h : ∀ ks, ks ≠ k → M ks = N ks) : M.DecidedBut k ls ↔ N.DecidedBut k ls := by
  constructor
  · rintro ⟨ks, e, hne, hpre, hks, hM, hst⟩
    exact ⟨ks, e, hne, hpre, hks, (h ks hks).symm.trans hM, hst⟩
  · rintro ⟨ks, e, hne, hpre, hks, hN, hst⟩
    exact ⟨ks, e, hne, hpre, hks, (h ks hks).trans hN, hst⟩

/-! ## Matched domains -/

/-- Some suffix of the domain has an entry. -/
def BlockMap.Matches (M : BlockMap) (ls : List Label) : Prop :=
  ∃ ks, ks ≠ [] ∧ ks <+: ls ∧ (M ks).isSome = true

/-- The verdict is none exactly where nothing matches. -/
theorem BlockMap.outcome_ne_none {M : BlockMap} {ls : List Label} :
    M.outcome ls ≠ none ↔ M.Matches ls := by
  rw [ne_eq, BlockMap.outcome_eq_none, not_forall]
  constructor
  · rintro ⟨st, hcovers⟩
    obtain ⟨ks, e, hne, hpre, hM, -⟩ := not_not.mp hcovers
    exact ⟨ks, hne, hpre, Option.isSome_of_eq_some hM⟩
  · rintro ⟨ks, hne, hpre, hM⟩
    obtain ⟨e, he⟩ := Option.isSome_iff_exists.mp hM
    exact ⟨e.status, not_not.mpr ⟨ks, e, hne, hpre, he, rfl⟩⟩

/-- An update takes no match away. -/
theorem BlockMap.Matches.update {M : BlockMap} {ls : List Label} (h : M.Matches ls)
    (ks : List Label) (e : Entry) : BlockMap.Matches (Function.update M ks (some e)) ls := by
  obtain ⟨js, hne, hpre, hM⟩ := h
  refine ⟨js, hne, hpre, ?_⟩
  rw [Function.update_apply]
  split
  · rfl
  · exact hM

/-- The updated path matches. -/
theorem BlockMap.matches_update (M : BlockMap) {ls : List Label} (hne : ls ≠ []) (e : Entry) :
    BlockMap.Matches (Function.update M ls (some e)) ls :=
  ⟨ls, hne, List.prefix_refl ls, by rw [Function.update_self]; rfl⟩

end Nyet
