import Nyet.RadixTree.Lookup

/-!
# What a domain inherits

A decision is the status and the ttl of a verdict. The decision about a domain is that
about its parent, unless the domain's own entry ranks at least as high
(`BlockMap.decision_concat`). So two blocklists decide alike, on a set of domains that has
the parents of its members, exactly if their own entries make no difference over what is
inherited (`BlockMap.decision_congr_iff`).
-/

namespace Nyet

/-- A status and a ttl. -/
abbrev Decision := Status × UInt32

/-- Status and ttl of the verdict. -/
def BlockMap.decision (M : BlockMap) (ls : List Label) : Option Decision :=
  (M.verdict ls).map fun e => (e.status, e.ttl)

theorem BlockMap.decision_of_core {M N : BlockMap} (h : M.core = N.core) (ls : List Label) :
    M.decision ls = N.decision ls := by
  have hdecision : ∀ K : BlockMap,
      K.decision ls = (K.core.verdict ls).map fun e => (e.status, e.ttl) := by
    intro K
    rw [← BlockMap.verdict_core, Option.map_map]
    rfl
  rw [hdecision, hdecision, h]

theorem BlockMap.decision_outcome {M : BlockMap} {ls : List Label} {st : Status} {ttl : UInt32}
    (h : M.decision ls = some (st, ttl)) : M.outcome ls = some st := by
  rw [BlockMap.decision] at h
  obtain ⟨e, he, heq⟩ := Option.map_eq_some_iff.mp h
  rw [BlockMap.outcome]
  rw [he]
  exact congrArg some (Prod.mk.inj heq).1

/-- What the result of a lookup says. -/
def LookupResult.decision (r : LookupResult) : Option Decision :=
  if r.matched then some (r.status, r.ttl) else none

theorem radixLookup_decision (t : RadixTree) (now : UInt32) {domain : CStr}
    (hlen : domain.length < labelBufSize) :
    (radixLookup t now domain).1.decision = t.map.decision (normalise domain) := by
  have h := congrArg (Option.map fun e : Entry => (e.status, e.ttl))
    (radixLookup_verdict t now hlen)
  rw [Option.map_map, Option.map_map] at h
  rw [BlockMap.decision]
  refine Eq.trans ?_ h
  rw [LookupResult.decision, LookupResult.toEntry]
  cases (radixLookup t now domain).1.matched <;> rfl

/-! ## One label more -/

theorem suffixPaths_concat (ls : List Label) (l : Label) :
    suffixPaths (ls ++ [l]) = suffixPaths ls ++ [ls ++ [l]] := by
  induction ls with
  | nil => rfl
  | cons k ls ih =>
    rw [List.cons_append, suffixPaths_cons, ih, suffixPaths_cons, List.map_append, List.cons_append]
    rfl

/-- The decision of a domain's own entry. -/
def BlockMap.own (M : BlockMap) (ls : List Label) : Option Decision :=
  (M ls).map fun e => (e.status, e.ttl)

/-- An own decision over an inherited one, which stands if it ranks higher. -/
def decideOver (inherited own : Option Decision) : Option Decision :=
  match own with
  | none => inherited
  | some d => Lib.keepBest (fun d => d.1.rank) inherited d

theorem BlockMap.decision_concat (M : BlockMap) (ls : List Label) (l : Label) :
    M.decision (ls ++ [l]) = decideOver (M.decision ls) (M.own (ls ++ [l])) := by
  have hscan : M.verdict (ls ++ [l]) =
      (M (ls ++ [l])).toList.foldl (Lib.keepBest fun e => e.status.rank) (M.verdict ls) := by
    rw [BlockMap.verdict_eq_scan, BlockMap.verdict_eq_scan, BlockMap.entriesOn, BlockMap.entriesOn,
      suffixPaths_concat, List.filterMap_append, List.foldl_append]
    rfl
  unfold BlockMap.decision BlockMap.own decideOver
  rw [hscan]
  cases M (ls ++ [l]) with
  | none => rfl
  | some e =>
    show Option.map _ (Lib.keepBest _ (M.verdict ls) e) = Lib.keepBest _ _ (e.status, e.ttl)
    unfold Lib.keepBest
    cases M.verdict ls with
    | none => rfl
    | some b =>
      dsimp only [Option.map_some]
      split <;> rfl

/-- **When two blocklists decide alike.** -/
theorem BlockMap.decision_congr_iff {M M' : BlockMap} {Q : List Label → Prop}
    (hQ : ∀ ls l, Q (ls ++ [l]) → Q ls) :
    (∀ ls, Q ls → M'.decision ls = M.decision ls) ↔
      ∀ ls l, Q (ls ++ [l]) →
        decideOver (M.decision ls) (M'.own (ls ++ [l])) =
          decideOver (M.decision ls) (M.own (ls ++ [l])) := by
  constructor
  · intro h ls l hls
    rw [← BlockMap.decision_concat, ← h _ hls, BlockMap.decision_concat, h ls (hQ ls l hls)]
  · intro h ls
    induction ls using List.reverseRecOn with
    | nil => exact fun _ => rfl
    | append_singleton ls l ih =>
      intro hls
      rw [BlockMap.decision_concat, BlockMap.decision_concat, ih (hQ ls l hls), h ls l hls]

/-- Two own decisions come to the same if they are the same, or if neither changes what is
inherited. -/
theorem decideOver_eq_iff {inherited own own' : Option Decision} :
    decideOver inherited own = decideOver inherited own' ↔
      own = own' ∨ (decideOver inherited own = inherited ∧ decideOver inherited own' = inherited) := by
  constructor
  · intro h
    by_cases hleft : decideOver inherited own = inherited
    · exact Or.inr ⟨hleft, h.symm.trans hleft⟩
    · left
      -- a decision that changes what is inherited is the outcome
      have hdecides : ∀ {o : Option Decision}, decideOver inherited o ≠ inherited →
          decideOver inherited o = o := by
        intro o ho
        cases o with
        | none => exact absurd rfl ho
        | some d =>
          unfold decideOver Lib.keepBest at ho ⊢
          cases inherited with
          | none => rfl
          | some b =>
            dsimp only at ho ⊢
            split at ho
            · next hle => exact if_pos hle
            · exact absurd rfl ho
      rw [← hdecides hleft, h, hdecides (h ▸ hleft)]
  · rintro (rfl | ⟨h, h'⟩)
    · rfl
    · exact h.trans h'.symm

end Nyet
