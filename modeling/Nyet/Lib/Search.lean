import Mathlib

/-!
# Binary search with a three-way probe

A loop over the half-open window `[lo, hi)` of a list, steered by the sign of a
probe: negative means "the target is further right", positive "further left",
zero "found". Nothing is assumed about where the probe comes from; completeness
only asks that its sign is strictly monotone along the list.
-/

namespace Nyet.Lib

universe u

variable {α : Type u}

/-- The search loop. `fuel` bounds the number of halvings; the length of the
window is always enough (`bsearch_complete`). -/
def bsearch (probe : α → Int) (xs : List α) : Nat → Nat → Nat → Option Nat
  | 0, _, _ => none
  | fuel + 1, lo, hi =>
    if lo < hi then
      let mid := lo + (hi - lo) / 2
      match xs[mid]? with
      | none => none
      | some cand =>
        if probe cand = 0 then some mid
        else if probe cand < 0 then bsearch probe xs fuel (mid + 1) hi
        else bsearch probe xs fuel lo mid
    else none

/-- The sign of the probe is strictly monotone along the list. -/
def ProbeSorted (probe : α → Int) (xs : List α) : Prop :=
  xs.Pairwise fun a b => 0 ≤ probe a → 0 < probe b

theorem ProbeSorted.lt_of_zero {probe : α → Int} {xs : List α}
    (h : ProbeSorted probe xs) {i j : Nat} {x y : α} (hi : xs[i]? = some x)
    (hj : xs[j]? = some y) (hx : probe x = 0) (hij : i < j) : 0 < probe y := by
  obtain ⟨hil, rfl⟩ := List.getElem?_eq_some_iff.mp hi
  obtain ⟨hjl, rfl⟩ := List.getElem?_eq_some_iff.mp hj
  exact List.pairwise_iff_getElem.mp h i j hil hjl hij (by omega)

theorem ProbeSorted.neg_of_lt_zero {probe : α → Int} {xs : List α}
    (h : ProbeSorted probe xs) {i j : Nat} {x y : α} (hi : xs[i]? = some x)
    (hj : xs[j]? = some y) (hy : probe y = 0) (hij : i < j) : probe x < 0 := by
  obtain ⟨hil, rfl⟩ := List.getElem?_eq_some_iff.mp hi
  obtain ⟨hjl, rfl⟩ := List.getElem?_eq_some_iff.mp hj
  have := List.pairwise_iff_getElem.mp h i j hil hjl hij
  omega

/-- Soundness: a reported index carries an element the probe accepts. -/
theorem bsearch_sound (probe : α → Int) (xs : List α) :
    ∀ (fuel lo hi : Nat) {i : Nat}, bsearch probe xs fuel lo hi = some i →
      ∃ x, xs[i]? = some x ∧ probe x = 0
  | 0, _, _, _, h => by simp [bsearch] at h
  | fuel + 1, lo, hi, i, h => by
    simp only [bsearch] at h
    split at h
    · split at h
      · cases h
      · next cand hcand =>
        split at h
        · next hzero =>
          cases h
          exact ⟨cand, hcand, hzero⟩
        · split at h
          · exact bsearch_sound probe xs fuel _ _ h
          · exact bsearch_sound probe xs fuel _ _ h
    · cases h

/-- Completeness: in a probe-sorted list the loop reports the accepted element
of its window, given fuel for the window. -/
theorem bsearch_complete {probe : α → Int} {xs : List α} (hs : ProbeSorted probe xs)
    {i : Nat} {x : α} (hi : xs[i]? = some x) (hx : probe x = 0) :
    ∀ (fuel lo hi : Nat), lo ≤ i → i < hi → hi ≤ xs.length → hi - lo ≤ fuel →
      bsearch probe xs fuel lo hi = some i
  | 0, lo, hi, hlo, hhi, _, hfuel => by omega
  | fuel + 1, lo, hi, hlo, hhi, hlen, hfuel => by
    have hmid : lo + (hi - lo) / 2 < xs.length := by omega
    rw [bsearch, if_pos (by omega)]
    simp only [List.getElem?_eq_getElem hmid]
    have hcand := List.getElem?_eq_getElem hmid
    generalize xs[lo + (hi - lo) / 2] = cand at hcand ⊢
    rcases Nat.lt_trichotomy (lo + (hi - lo) / 2) i with hlt | heq | hgt
    · have hneg := hs.neg_of_lt_zero hcand ‹_› hx hlt
      rw [if_neg (by omega), if_pos hneg]
      exact bsearch_complete hs ‹_› hx fuel _ _ (by omega) hhi hlen (by omega)
    · have : cand = x := by
        rw [heq, ‹xs[i]? = some x›] at hcand
        exact (Option.some.inj hcand).symm
      rw [if_pos (this ▸ hx), heq]
    · have hpos := hs.lt_of_zero ‹_› hcand hx hgt
      rw [if_neg (by omega), if_neg (by omega)]
      exact bsearch_complete hs ‹_› hx fuel _ _ hlo (by omega) (by omega) (by omega)

/-- Over the whole list, the loop finds what a scan from the front finds. -/
theorem bsearch_eq_findIdx? {probe : α → Int} {xs : List α} (hs : ProbeSorted probe xs) :
    bsearch probe xs xs.length 0 xs.length = xs.findIdx? (fun x => probe x = 0) := by
  cases hb : bsearch probe xs xs.length 0 xs.length with
  | some i =>
    obtain ⟨x, hx, hzero⟩ := bsearch_sound probe xs _ _ _ hb
    symm
    rw [List.findIdx?_eq_some_iff_getElem]
    obtain ⟨hil, rfl⟩ := List.getElem?_eq_some_iff.mp hx
    refine ⟨hil, by simpa using hzero, fun j hj => ?_⟩
    have := hs.neg_of_lt_zero (List.getElem?_eq_getElem (by omega)) hx hzero hj
    simpa using by omega
  | none =>
    symm
    rw [List.findIdx?_eq_none_iff]
    intro x hmem
    by_contra hzero
    obtain ⟨i, hil, rfl⟩ := List.mem_iff_getElem.mp hmem
    have := bsearch_complete hs (List.getElem?_eq_getElem hil) (by simpa using hzero)
      xs.length 0 xs.length (Nat.zero_le _) hil (Nat.le_refl _) (by omega)
    rw [hb] at this
    cases this

end Nyet.Lib
