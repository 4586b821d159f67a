import Mathlib

/-!
# Edit scripts and the distance they give

A script turns one word into another, from left to right: every letter of either word belongs to
one edit. So a letter is edited once, and two letters that change places do it without anything
between them. That is the optimal string alignment distance (`IsEditDistance`), which is less
than what repeated edits could do.

The distance of two words is what the last edit of a shortest script leaves for the words before
it (`IsEditDistance.snoc`, `IsEditDistance.snoc_of_swapped`): that is what a table of
the distances of all their beginnings is filled by.
-/

namespace Nyet.Lib

section

variable {α : Type*}

/-- One piece of a script. -/
inductive Edit (α : Type*)
  | keep (c : α)
  | substitute (b c : α)
  | delete (c : α)
  | insert (c : α)
  | transpose (b c : α)

/-- The letters the edit takes. -/
def Edit.source : Edit α → List α
  | keep c => [c]
  | substitute b _ => [b]
  | delete c => [c]
  | insert _ => []
  | transpose b c => [b, c]

/-- The letters the edit puts in their place. -/
def Edit.target : Edit α → List α
  | keep c => [c]
  | substitute _ c => [c]
  | delete _ => []
  | insert c => [c]
  | transpose b c => [c, b]

/-- What the edit counts: a letter that is kept is not edited. -/
def Edit.cost : Edit α → Nat
  | keep _ => 0
  | _ => 1

/-- The edit the other way round. -/
def Edit.flip : Edit α → Edit α
  | keep c => keep c
  | substitute b c => substitute c b
  | delete c => insert c
  | insert c => delete c
  | transpose b c => transpose c b

@[simp] theorem Edit.source_flip (e : Edit α) : e.flip.source = e.target := by cases e <;> rfl

@[simp] theorem Edit.target_flip (e : Edit α) : e.flip.target = e.source := by cases e <;> rfl

@[simp] theorem Edit.cost_flip (e : Edit α) : e.flip.cost = e.cost := by cases e <;> rfl

/-- So many edits, in one script, turn one word into the other. -/
def EditsIn (s t : List α) (n : Nat) : Prop :=
  ∃ script : List (Edit α),
    script.flatMap Edit.source = s ∧ script.flatMap Edit.target = t ∧ (script.map Edit.cost).sum = n

/-- The least number of edits that turn one word into the other. -/
def IsEditDistance (s t : List α) (n : Nat) : Prop := IsLeast {n | EditsIn s t n} n

/-! ## Scripts -/

theorem EditsIn.nil : EditsIn ([] : List α) [] 0 := ⟨[], rfl, rfl, rfl⟩

/-- One more edit at the end. -/
theorem EditsIn.concat {s t : List α} {n : Nat} (h : EditsIn s t n) (e : Edit α) :
    EditsIn (s ++ e.source) (t ++ e.target) (n + e.cost) := by
  obtain ⟨script, rfl, rfl, rfl⟩ := h
  exact ⟨script ++ [e], by simp, by simp, by simp⟩

/-- **The last edit of a script**, unless there is none. -/
theorem EditsIn.last {s t : List α} {n : Nat} (h : EditsIn s t n) :
    (s = [] ∧ t = [] ∧ n = 0) ∨
      ∃ (e : Edit α) (s' t' : List α) (m : Nat), EditsIn s' t' m ∧
        s = s' ++ e.source ∧ t = t' ++ e.target ∧ n = m + e.cost := by
  obtain ⟨script, rfl, rfl, rfl⟩ := h
  induction script using List.reverseRecOn with
  | nil => exact Or.inl ⟨rfl, rfl, rfl⟩
  | append_singleton script e _ =>
    exact Or.inr ⟨e, _, _, _, ⟨script, rfl, rfl, rfl⟩, by simp, by simp, by simp⟩

/-- **A script for two words that end in a letter each**: the last edit deletes the one, inserts
the other, puts the other in place of the one, or swaps it with the letter before. -/
theorem EditsIn.snoc_cases {s t : List α} {b c : α} {n : Nat}
    (h : EditsIn (s ++ [b]) (t ++ [c]) n) :
    (∃ m, EditsIn s (t ++ [c]) m ∧ n = m + 1) ∨
    (∃ m, EditsIn (s ++ [b]) t m ∧ n = m + 1) ∨
    (∃ m, EditsIn s t m ∧ (b = c ∧ n = m ∨ n = m + 1)) ∨
    ∃ s' t' m, s = s' ++ [c] ∧ t = t' ++ [b] ∧ EditsIn s' t' m ∧ n = m + 1 := by
  rcases h.last with ⟨hnil, -⟩ | ⟨e, s', t', m, hm, hs, ht, rfl⟩
  · exact absurd hnil (List.append_ne_nil_of_right_ne_nil _ (List.cons_ne_nil b []))
  -- the last letters of both words are what the last edit puts there
  cases e with
  | keep a =>
    obtain ⟨rfl, hb⟩ := List.append_inj' hs rfl
    obtain ⟨rfl, hc⟩ := List.append_inj' ht rfl
    cases hb
    cases hc
    exact Or.inr (Or.inr (Or.inl ⟨m, hm, Or.inl ⟨rfl, rfl⟩⟩))
  | substitute a a' =>
    obtain ⟨rfl, -⟩ := List.append_inj' hs rfl
    obtain ⟨rfl, -⟩ := List.append_inj' ht rfl
    exact Or.inr (Or.inr (Or.inl ⟨m, hm, Or.inr rfl⟩))
  | delete a =>
    obtain ⟨rfl, -⟩ := List.append_inj' hs rfl
    have ht : t ++ [c] = t' := ht.trans (List.append_nil t')
    exact Or.inl ⟨m, ht ▸ hm, rfl⟩
  | insert a =>
    obtain ⟨rfl, -⟩ := List.append_inj' ht rfl
    have hs : s ++ [b] = s' := hs.trans (List.append_nil s')
    exact Or.inr (Or.inl ⟨m, hs ▸ hm, rfl⟩)
  | transpose a a' =>
    have hs : s ++ [b] = (s' ++ [a]) ++ [a'] := by rw [hs, List.append_assoc]; rfl
    have ht : t ++ [c] = (t' ++ [a']) ++ [a] := by rw [ht, List.append_assoc]; rfl
    obtain ⟨rfl, hb⟩ := List.append_inj' hs rfl
    obtain ⟨rfl, hc⟩ := List.append_inj' ht rfl
    cases hb
    cases hc
    exact Or.inr (Or.inr (Or.inr ⟨s', t', m, rfl, rfl, hm, rfl⟩))

/-- Turned round, a script leads back. -/
theorem EditsIn.symm {s t : List α} {n : Nat} (h : EditsIn s t n) : EditsIn t s n := by
  obtain ⟨script, rfl, rfl, rfl⟩ := h
  refine ⟨script.map Edit.flip, ?_, ?_, ?_⟩
  · rw [List.flatMap_map]
    exact List.flatMap_congr fun e _ => e.source_flip
  · rw [List.flatMap_map]
    exact List.flatMap_congr fun e _ => e.target_flip
  · rw [List.map_map]
    exact congrArg List.sum (List.map_congr_left fun e _ => e.cost_flip)

/-- Nothing is edited where the words are the same, -/
theorem editsIn_self (s : List α) : EditsIn s s 0 := by
  induction s using List.reverseRecOn with
  | nil => exact EditsIn.nil
  | append_singleton s c ih => exact ih.concat (Edit.keep c)

/-- and where nothing is edited they are. -/
theorem EditsIn.eq_of_zero {s t : List α} (h : EditsIn s t 0) : s = t := by
  obtain ⟨script, rfl, rfl, hzero⟩ := h
  refine List.flatMap_congr fun e he => ?_
  have hcost : e.cost = 0 := List.sum_eq_zero_iff_forall_eq_nat.mp hzero _ (List.mem_map_of_mem he)
  cases e with
  | keep c => rfl
  | substitute b c => cases hcost
  | delete c => cases hcost
  | insert c => cases hcost
  | transpose b c => cases hcost

/-- To make a word of nothing, each letter is inserted. -/
theorem editsIn_nil_left (t : List α) : EditsIn [] t t.length := by
  induction t using List.reverseRecOn with
  | nil => exact EditsIn.nil
  | append_singleton t c ih =>
    rw [List.length_append]
    exact ih.concat (Edit.insert c)

/-- The words change in length by what is edited at most. -/
theorem EditsIn.length_le {s t : List α} {n : Nat} (h : EditsIn s t n) :
    t.length ≤ s.length + n := by
  obtain ⟨script, rfl, rfl, rfl⟩ := h
  induction script with
  | nil => exact Nat.zero_le _
  | cons e script ih =>
    have he : e.target.length ≤ e.source.length + e.cost := by
      cases e <;> simp [Edit.target, Edit.source, Edit.cost]
    simp only [List.flatMap_cons, List.length_append, List.map_cons, List.sum_cons]
    omega

/-- The letters of two words can be put in place of each other, and the rest put in or left out. -/
theorem editsIn_max (s t : List α) : ∃ n, EditsIn s t n ∧ n ≤ max s.length t.length := by
  induction s using List.reverseRecOn generalizing t with
  | nil => exact ⟨t.length, editsIn_nil_left t, le_max_right ..⟩
  | append_singleton s b ih =>
    cases t using List.reverseRecOn with
    | nil => exact ⟨_, (editsIn_nil_left (s ++ [b])).symm, le_max_left ..⟩
    | append_singleton t c =>
      obtain ⟨n, hn, hle⟩ := ih t
      refine ⟨n + 1, hn.concat (Edit.substitute b c), ?_⟩
      rw [List.length_append, List.length_append]
      show n + 1 ≤ max (s.length + 1) (t.length + 1)
      omega

/-! ## The distance -/

/-- Any two words have a distance, of the longer one's length at most. -/
theorem IsEditDistance.le_max {s t : List α} {n : Nat} (h : IsEditDistance s t n) :
    n ≤ max s.length t.length := by
  obtain ⟨m, hm, hle⟩ := editsIn_max s t
  exact (h.2 hm).trans hle

theorem IsEditDistance.symm {s t : List α} {n : Nat} (h : IsEditDistance s t n) :
    IsEditDistance t s n :=
  ⟨h.1.symm, fun _ hm => h.2 hm.symm⟩

theorem IsEditDistance.eq_zero_iff {s t : List α} {n : Nat} (h : IsEditDistance s t n) :
    n = 0 ↔ s = t := by
  constructor
  · rintro rfl
    exact h.1.eq_of_zero
  · rintro rfl
    exact Nat.le_zero.mp (h.2 (editsIn_self s))

theorem isEditDistance_nil_left (t : List α) : IsEditDistance [] t t.length := by
  refine ⟨editsIn_nil_left t, fun m hm => ?_⟩
  have hlen := hm.length_le
  rwa [List.length_nil, Nat.zero_add] at hlen

theorem isEditDistance_nil_right (s : List α) : IsEditDistance s [] s.length :=
  (isEditDistance_nil_left s).symm

section Step

variable [DecidableEq α] {s t : List α} {b c : α} {x y z : Nat}

/-- What it takes to put a letter in place of another. -/
def changed (b c : α) : Nat := if b = c then 0 else 1

theorem changed_le_one (b c : α) : changed b c ≤ 1 := by
  unfold changed
  split <;> decide

theorem EditsIn.concat_changed {n : Nat} (h : EditsIn s t n) :
    EditsIn (s ++ [b]) (t ++ [c]) (n + changed b c) := by
  rw [changed]
  split
  · next heq => exact heq ▸ h.concat (Edit.keep b)
  · exact h.concat (Edit.substitute b c)

/-- Each of the three edits gives a script. -/
theorem editsIn_min (hx : EditsIn s (t ++ [c]) x) (hy : EditsIn (s ++ [b]) t y)
    (hz : EditsIn s t z) :
    EditsIn (s ++ [b]) (t ++ [c]) (min (min (x + 1) (y + 1)) (z + changed b c)) := by
  have hdelete : EditsIn (s ++ [b]) (t ++ [c]) (x + 1) := by
    simpa [Edit.source, Edit.target, Edit.cost] using hx.concat (Edit.delete b)
  have hinsert : EditsIn (s ++ [b]) (t ++ [c]) (y + 1) := by
    simpa [Edit.source, Edit.target, Edit.cost] using hy.concat (Edit.insert c)
  rcases min_choice (min (x + 1) (y + 1)) (z + changed b c) with hmin | hmin
  · rw [hmin]
    rcases min_choice (x + 1) (y + 1) with hmin | hmin
    · rwa [hmin]
    · rwa [hmin]
  · rw [hmin]
    exact hz.concat_changed

/-- **The distance of longer words, where the last letters are not swapped.** -/
theorem IsEditDistance.snoc (hx : IsEditDistance s (t ++ [c]) x)
    (hy : IsEditDistance (s ++ [b]) t y) (hz : IsEditDistance s t z)
    (hswap : ¬∃ s' t', s = s' ++ [c] ∧ t = t' ++ [b]) :
    IsEditDistance (s ++ [b]) (t ++ [c]) (min (min (x + 1) (y + 1)) (z + changed b c)) := by
  refine ⟨editsIn_min hx.1 hy.1 hz.1, fun n hn => ?_⟩
  have hone := changed_le_one b c
  rcases hn.snoc_cases with ⟨m, hm, rfl⟩ | ⟨m, hm, rfl⟩ | ⟨m, hm, hcost⟩ | ⟨s', t', m, hs, ht, -⟩
  · have hle : x ≤ m := hx.2 hm
    omega
  · have hle : y ≤ m := hy.2 hm
    omega
  · have hle : z ≤ m := hz.2 hm
    rcases hcost with ⟨rfl, rfl⟩ | rfl
    · have hzero : changed b b = 0 := if_pos rfl
      omega
    · omega
  · exact absurd ⟨s', t', hs, ht⟩ hswap

/-- **The distance of longer words, where they can be swapped**: where the two letters are the same
there is nothing to swap, and both are kept. -/
theorem IsEditDistance.snoc_of_swapped {w : Nat}
    (hx : IsEditDistance (s ++ [c]) ((t ++ [b]) ++ [c]) x)
    (hy : IsEditDistance ((s ++ [c]) ++ [b]) (t ++ [b]) y)
    (hz : IsEditDistance (s ++ [c]) (t ++ [b]) z) (hw : IsEditDistance s t w) :
    IsEditDistance ((s ++ [c]) ++ [b]) ((t ++ [b]) ++ [c])
      (min (min (min (x + 1) (y + 1)) (z + changed b c)) (w + changed b c)) := by
  -- the script that ends with the swap, or keeps both letters if they are one
  have hswap : EditsIn ((s ++ [c]) ++ [b]) ((t ++ [b]) ++ [c]) (w + changed b c) := by
    rw [changed]
    split
    · next heq =>
      subst heq
      exact (hw.1.concat (Edit.keep b)).concat (Edit.keep b)
    · rw [List.append_assoc, List.append_assoc]
      exact hw.1.concat (Edit.transpose c b)
  constructor
  · rcases min_choice (min (min (x + 1) (y + 1)) (z + changed b c)) (w + changed b c) with
      hmin | hmin
    · rw [hmin]
      exact editsIn_min hx.1 hy.1 hz.1
    · rwa [hmin]
  · intro n hn
    have hone := changed_le_one b c
    -- and no script is shorter, by what its last edit is
    rcases hn.snoc_cases with
      ⟨m, hm, rfl⟩ | ⟨m, hm, rfl⟩ | ⟨m, hm, hcost⟩ | ⟨s', t', m, hs, ht, hm, rfl⟩
    · have hle : x ≤ m := hx.2 hm
      omega
    · have hle : y ≤ m := hy.2 hm
      omega
    · have hle : z ≤ m := hz.2 hm
      rcases hcost with ⟨rfl, rfl⟩ | rfl
      · have hzero : changed b b = 0 := if_pos rfl
        omega
      · omega
    · obtain ⟨rfl, -⟩ := List.append_inj' hs rfl
      obtain ⟨rfl, -⟩ := List.append_inj' ht rfl
      have hle : w ≤ m := hw.2 hm
      omega

end Step

end

end Nyet.Lib
