import Mathlib

/-!
# Greedy grouping

Items stand under parents, and the parents take them in turn, those of higher rank first:
each takes the items under it that are still there, if these are enough for a group. What
comes of it does not depend on the turns. A parent's share is what is under it and under no
higher parent with a group (`share_eq`), and it has a group exactly if its share is large
enough (`greedyGroups_eq`).
-/

namespace Nyet.Lib

variable {κ γ : Type}

/-- More than every rank. -/
def rankBound (items : List κ) (parents : κ → List γ) (rank : γ → Nat) : Nat :=
  ((items.flatMap parents).map rank).sum + 1

theorem rank_lt_bound {items : List κ} {parents : κ → List γ} {rank : γ → Nat} {k : κ} {c : γ}
    (hk : k ∈ items) (hc : c ∈ parents k) : rank c < rankBound items parents rank := by
  have hmem : rank c ∈ (items.flatMap parents).map rank :=
    List.mem_map_of_mem (List.mem_flatMap.mpr ⟨k, hk, hc⟩)
  exact Nat.lt_succ_of_le (List.le_sum_of_mem hmem)

variable [DecidableEq γ]

section

variable (items : List κ) (parents : κ → List γ) (rank : γ → Nat) (size : Nat)

/-- What a parent takes, looking `fuel` ranks up. -/
def shareWithin : Nat → γ → List κ
  | 0, _ => []
  | fuel + 1, c =>
    items.filter fun k =>
      c ∈ parents k ∧ ∀ d ∈ parents k, rank c < rank d → (shareWithin fuel d).length < size

/-- The items under a parent and under no higher parent with a group. -/
def share (c : γ) : List κ := shareWithin items parents rank size (rankBound items parents rank) c

end

variable {items : List κ} {parents : κ → List γ} {rank : γ → Nat} {size : Nat}

/-- Enough fuel is enough. -/
theorem shareWithin_succ {fuel : Nat} {c : γ}
    (h : rankBound items parents rank ≤ rank c + fuel) :
    shareWithin items parents rank size (fuel + 1) c =
      shareWithin items parents rank size fuel c := by
  induction fuel generalizing c with
  | zero =>
    refine List.filter_eq_nil_iff.mpr fun k hk hpred => ?_
    have hlt : rank c < rankBound items parents rank :=
      rank_lt_bound hk (of_decide_eq_true hpred).1
    omega
  | succ fuel ih =>
    refine List.filter_congr fun k _ => ?_
    refine decide_eq_decide.mpr (and_congr_right fun _ => forall_congr' fun d =>
      forall_congr' fun _ => forall_congr' fun hlt => ?_)
    rw [ih (by omega)]

/-- **A parent's share.** -/
theorem share_eq (c : γ) :
    share items parents rank size c = items.filter fun k =>
      c ∈ parents k ∧
        ∀ d ∈ parents k, rank c < rank d → (share items parents rank size d).length < size := by
  rw [share]
  conv_lhs => rw [← shareWithin_succ (Nat.le_add_left _ _)]
  rfl

theorem mem_share {k : κ} {c : γ} :
    k ∈ share items parents rank size c ↔ k ∈ items ∧ c ∈ parents k ∧
      ∀ d ∈ parents k, rank c < rank d → (share items parents rank size d).length < size := by
  rw [share_eq, List.mem_filter, decide_eq_true_eq]

/-- An item under a parent with a group is taken by that parent or by a higher one. -/
theorem exists_share {k : κ} {c : γ} (hk : k ∈ items) (hc : c ∈ parents k)
    (hsize : size ≤ (share items parents rank size c).length) :
    ∃ d ∈ parents k, rank c ≤ rank d ∧ size ≤ (share items parents rank size d).length ∧
      k ∈ share items parents rank size d := by
  -- induction on how many ranks there are above
  induction hn : rankBound items parents rank - rank c using Nat.strongRecOn
    generalizing c with
  | _ n ih =>
    by_cases htop : ∀ d ∈ parents k, rank c < rank d →
        (share items parents rank size d).length < size
    · exact ⟨c, hc, Nat.le_refl _, hsize, mem_share.mpr ⟨hk, hc, htop⟩⟩
    · simp only [not_forall, Nat.not_lt] at htop
      obtain ⟨d, hd, hlt, hdsize⟩ := htop
      have hbound : rank c < rankBound items parents rank := rank_lt_bound hk hc
      obtain ⟨e, he, hle, hesize, hmem⟩ := ih _ (by omega) hd hdsize rfl
      exact ⟨e, he, by omega, hesize, hmem⟩

variable [DecidableEq κ]

/-- The items under a parent that are in no group yet. -/
def freeUnder (items : List κ) (parents : κ → List γ) (groups : List (γ × List κ)) (c : γ) :
    List κ :=
  items.filter fun k => c ∈ parents k ∧ ∀ g ∈ groups, k ∉ g.2

/-- The groups after the parents `cs` have had their turn. -/
def greedyGroups (items : List κ) (parents : κ → List γ) (size : Nat)
    (groups : List (γ × List κ)) : List γ → List (γ × List κ)
  | [] => groups
  | c :: cs =>
    let children := freeUnder items parents groups c
    if size ≤ children.length then
      greedyGroups items parents size (groups ++ [(c, children)]) cs
    else greedyGroups items parents size groups cs

/-- **What the turns come to.** -/
theorem greedyGroups_eq {cs : List γ} (hsorted : cs.Pairwise fun c d => rank d ≤ rank c)
    (hnodup : cs.Nodup) (hall : ∀ k ∈ items, ∀ c ∈ parents k, c ∈ cs)
    (hrank : ∀ k ∈ items, ∀ c ∈ parents k, ∀ d ∈ parents k, rank c = rank d → c = d) :
    greedyGroups items parents size [] cs =
      (cs.filter fun c => size ≤ (share items parents rank size c).length).map fun c =>
        (c, share items parents rank size c) := by
  have hgo : ∀ (done rest : List γ), cs = done ++ rest →
      greedyGroups items parents size
        ((done.filter fun c => size ≤ (share items parents rank size c).length).map fun c =>
          (c, share items parents rank size c)) rest =
      (cs.filter fun c => size ≤ (share items parents rank size c).length).map fun c =>
        (c, share items parents rank size c) := by
    intro done rest
    induction rest generalizing done with
    | nil =>
      intro hcs
      rw [hcs, List.append_nil]
      rfl
    | cons c rest ih =>
      intro hcs
      have hbefore : ∀ d ∈ done, rank c ≤ rank d ∧ d ≠ c := by
        intro d hd
        rw [hcs] at hsorted hnodup
        refine ⟨(List.pairwise_append.mp hsorted).2.2 d hd c List.mem_cons_self, ?_⟩
        rintro rfl
        exact (List.nodup_append.mp hnodup).2.2 d hd d List.mem_cons_self rfl
      have hbehind : ∀ d ∈ c :: rest, rank d ≤ rank c := by
        intro d hd
        rw [hcs] at hsorted
        rcases List.mem_cons.mp hd with rfl | hd
        · exact Nat.le_refl _
        · exact (List.pairwise_cons.mp (List.pairwise_append.mp hsorted).2.1).1 d hd
      -- what is still there is the share
      have hchildren : freeUnder items parents
          ((done.filter fun c => size ≤ (share items parents rank size c).length).map fun c =>
            (c, share items parents rank size c)) c = share items parents rank size c := by
        rw [share_eq c]
        refine List.filter_congr fun k hk => decide_eq_decide.mpr (and_congr_right fun hc => ?_)
        constructor
        · intro hfree d hd hlt
          by_contra hsize
          obtain ⟨e, he, hle, hesize, hmem⟩ := exists_share hk hd (Nat.not_lt.mp hsize)
          have hdone : e ∈ done := by
            have hecs := hall k hk e he
            rw [hcs] at hecs
            refine (List.mem_append.mp hecs).resolve_right fun hrest => ?_
            have hge := hbehind e hrest
            omega
          refine hfree _ (List.mem_map_of_mem (List.mem_filter.mpr ⟨hdone, ?_⟩)) hmem
          exact decide_eq_true hesize
        · intro hsmall g hg hmem
          obtain ⟨d, hd, rfl⟩ := List.mem_map.mp hg
          obtain ⟨hdone, hdsize⟩ := List.mem_filter.mp hd
          obtain ⟨hle, hne⟩ := hbefore d hdone
          have hdk := (mem_share.mp hmem).2.1
          have hlt : rank c < rank d :=
            Nat.lt_of_le_of_ne hle fun heq => hne (hrank k hk d hdk c hc heq.symm)
          have hdlt := hsmall d hdk hlt
          have hdge := of_decide_eq_true hdsize
          omega
      have hnext := ih (done ++ [c]) (by rw [hcs, List.append_assoc, List.singleton_append])
      rw [List.filter_append, List.map_append] at hnext
      rw [greedyGroups, hchildren]
      split
      · next hsize => simpa [hsize] using hnext
      · next hsize => simpa [hsize] using hnext
  exact hgo [] cs rfl

end Nyet.Lib
