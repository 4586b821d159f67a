import Mathlib

/-!
# Token buckets

A bucket holds at most `cap` tokens, gains at most `rate` of them per unit of
time, and a use that spends one needs one. That is all the bound on a run of uses
depends on (`BucketRun.spent_le`): between two times, however the uses fall,
at most a full bucket and what flows in are spent.
-/

namespace Nyet.Lib

/-- A bucket: how many tokens it holds and when that was last brought up to
date. -/
structure Bucket where
  tokens : Int
  last : Int

/-- One step of a system at time `t`, seen from one bucket: the bucket is left
alone, or it is refilled and a token may be spent. -/
inductive BucketStep (cap rate : Int) : Bucket → Int → Bool → Bucket → Prop where
  | idle (b : Bucket) (t : Int) : BucketStep cap rate b t false b
  | use (b : Bucket) (t level : Int) (spent : Bool) (full : level ≤ cap)
      (gain : level ≤ b.tokens + rate * (t - b.last)) (enough : spent = true → 0 < level) :
      BucketStep cap rate b t spent ⟨if spent then level - 1 else level, t⟩

/-- A run of steps, as the times and what was spent. -/
inductive BucketRun (cap rate : Int) : Bucket → List (Int × Bool) → Prop where
  | nil (b : Bucket) : BucketRun cap rate b []
  | cons {b b' : Bucket} {t : Int} {spent : Bool} {es : List (Int × Bool)}
      (step : BucketStep cap rate b t spent b') (rest : BucketRun cap rate b' es) :
      BucketRun cap rate b ((t, spent) :: es)

/-- How many tokens a run spends. -/
def spentIn (es : List (Int × Bool)) : Nat := es.countP (·.2)

theorem spentIn_cons (t : Int) (spent : Bool) (es : List (Int × Bool)) :
    (spentIn ((t, spent) :: es) : Int) = spentIn es + if spent then 1 else 0 := by
  unfold spentIn
  rw [List.countP_cons]
  cases spent <;> simp

variable {cap rate : Int}

/-- From a known level on: what is there and what flows in until `stop`. -/
theorem BucketRun.spent_le_level (hrate : 0 ≤ rate) {b : Bucket} {es : List (Int × Bool)}
    (h : BucketRun cap rate b es) {stop : Int} (hlast : ∀ e ∈ es, b.last ≤ e.1)
    (hstop : ∀ e ∈ es, e.1 ≤ stop) (hbegin : b.last ≤ stop)
    (hsorted : es.Pairwise fun a b => a.1 ≤ b.1) :
    (spentIn es : Int) ≤ max 0 b.tokens + rate * (stop - b.last) := by
  -- on the run; at each use the flow is split at its time
  induction h with
  | nil b =>
    have hflow : 0 ≤ rate * (stop - b.last) := mul_nonneg hrate (by omega)
    have hzero : (spentIn [] : Int) = 0 := rfl
    omega
  | @cons b b' t spent es hstep hrest ih =>
    obtain ⟨hfirst, htail⟩ := List.pairwise_cons.mp hsorted
    have hts : t ≤ stop := hstop (t, spent) List.mem_cons_self
    have hbt : b.last ≤ t := hlast (t, spent) List.mem_cons_self
    rw [spentIn_cons]
    cases hstep with
    | idle =>
      have := ih (fun e he => hlast e (List.mem_cons_of_mem _ he))
        (fun e he => hstop e (List.mem_cons_of_mem _ he)) hbegin htail
      simpa using this
    | use level _ full gain enough =>
      have hrec := ih hfirst (fun e he => hstop e (List.mem_cons_of_mem _ he)) hts htail
      have hsplit : rate * (stop - b.last) = rate * (t - b.last) + rate * (stop - t) := by ring
      have hflow : 0 ≤ rate * (t - b.last) := mul_nonneg hrate (by omega)
      cases spent with
      | true =>
        have hpos := enough rfl
        simp only [if_true] at hrec ⊢
        omega
      | false =>
        simp only [Bool.false_eq_true, if_false] at hrec ⊢
        omega

/-- **The bound.** Between `start` and `stop` a run spends at most a full bucket
and what flows in. -/
theorem BucketRun.spent_le (hrate : 0 ≤ rate) (hcap : 0 ≤ cap) {b : Bucket}
    {es : List (Int × Bool)} (h : BucketRun cap rate b es) (start stop : Int)
    (hstart : ∀ e ∈ es, start ≤ e.1) (hstop : ∀ e ∈ es, e.1 ≤ stop) (hle : start ≤ stop)
    (hsorted : es.Pairwise fun a b => a.1 ≤ b.1) :
    (spentIn es : Int) ≤ cap + rate * (stop - start) := by
  induction h with
  | nil b =>
    have hflow : 0 ≤ rate * (stop - start) := mul_nonneg hrate (by omega)
    have hzero : (spentIn [] : Int) = 0 := rfl
    omega
  | @cons b b' t spent es hstep hrest ih =>
    obtain ⟨hfirst, htail⟩ := List.pairwise_cons.mp hsorted
    have hts : t ≤ stop := hstop (t, spent) List.mem_cons_self
    have hst : start ≤ t := hstart (t, spent) List.mem_cons_self
    rw [spentIn_cons]
    cases hstep with
    | idle =>
      have := ih (fun e he => hstart e (List.mem_cons_of_mem _ he))
        (fun e he => hstop e (List.mem_cons_of_mem _ he)) htail
      simpa using this
    | use level _ full gain enough =>
      -- the first use: from here on the level is known
      have hrec := hrest.spent_le_level hrate hfirst
        (fun e he => hstop e (List.mem_cons_of_mem _ he)) hts htail
      have hmono : rate * (stop - t) ≤ rate * (stop - start) :=
        mul_le_mul_of_nonneg_left (by omega) hrate
      cases spent with
      | true =>
        have hpos := enough rfl
        simp only [if_true] at hrec ⊢
        omega
      | false =>
        simp only [Bool.false_eq_true, if_false] at hrec ⊢
        omega

theorem BucketRun.append_left {b : Bucket} {es fs : List (Int × Bool)}
    (h : BucketRun cap rate b (es ++ fs)) : BucketRun cap rate b es := by
  induction es generalizing b with
  | nil => exact .nil b
  | cons e es ih =>
    cases h with
    | cons step rest => exact .cons step (ih rest)

theorem BucketRun.append_right {b : Bucket} {es fs : List (Int × Bool)}
    (h : BucketRun cap rate b (es ++ fs)) : ∃ b', BucketRun cap rate b' fs := by
  induction es generalizing b with
  | nil => exact ⟨b, h⟩
  | cons e es ih =>
    cases h with
    | cons step rest => exact ih rest

/-- A contiguous part of a run is a run from some bucket. -/
theorem BucketRun.of_segment {b : Bucket} {es seg : List (Int × Bool)}
    (h : BucketRun cap rate b es) (hseg : seg <:+: es) : ∃ b', BucketRun cap rate b' seg := by
  obtain ⟨pre, post, rfl⟩ := hseg
  exact h.append_left.append_right

/-- **The bound on a segment**: a contiguous part of a run in time order spends at
most a full bucket and what flows in between its first step and its last. -/
theorem BucketRun.segment_le (hrate : 0 ≤ rate) (hcap : 0 ≤ cap) {b : Bucket}
    {es seg : List (Int × Bool)} (h : BucketRun cap rate b es)
    (hsorted : es.Pairwise fun a b => a.1 ≤ b.1) (hseg : seg <:+: es) {first last : Int × Bool}
    (hfirst : seg.head? = some first) (hlast : seg.getLast? = some last) :
    (spentIn seg : Int) ≤ cap + rate * (last.1 - first.1) := by
  obtain ⟨b', hrun⟩ := h.of_segment hseg
  have horder : seg.Pairwise fun a b => a.1 ≤ b.1 := hsorted.sublist hseg.sublist
  have hne : seg ≠ [] := by
    rintro rfl
    cases hfirst
  have hfirst' : seg.head hne = first :=
    Option.some.inj ((List.head?_eq_some_head hne).symm.trans hfirst)
  have hlast' : seg.getLast hne = last :=
    Option.some.inj ((List.getLast?_eq_some_getLast hne).symm.trans hlast)
  have hrefl : Std.Refl fun a b : Int × Bool => a.1 ≤ b.1 := ⟨fun _ => Int.le_refl _⟩
  have hge : ∀ e ∈ seg, first.1 ≤ e.1 := fun e he => hfirst' ▸ horder.rel_head he
  have hle : ∀ e ∈ seg, e.1 ≤ last.1 := fun e he => hlast' ▸ horder.rel_getLast he
  exact hrun.spent_le hrate hcap first.1 last.1 hge hle
    (hlast' ▸ hge _ (List.getLast_mem hne)) horder

end Nyet.Lib
