import Mathlib

/-!
# The longest streak

One pass over a list that keeps the length of the streak it is in, and of the longest one so
far. What it finds is how long a stretch of the list can be that has only elements of the kind
(`le_longest_iff`).
-/

namespace Nyet.Lib

variable {α : Type*}

/-- The longest streak, and the one that is going on. -/
structure Streak where
  longest : Nat
  current : Nat

def Streak.read (p : α → Bool) (s : Streak) (x : α) : Streak :=
  if p x then
    ⟨if s.longest < s.current + 1 then s.current + 1 else s.longest, s.current + 1⟩
  else ⟨s.longest, 0⟩

def streak (p : α → Bool) (l : List α) : Streak := l.foldl (Streak.read p) ⟨0, 0⟩

/-- Elements of the kind only. -/
def IsStreak (p : α → Bool) (n : Nat) (l : List α) : Prop := l.length = n ∧ ∀ x ∈ l, p x = true

variable {p : α → Bool} {l : List α} {x : α} {n : Nat}

theorem isStreak_nil : IsStreak p 0 [] := ⟨rfl, List.forall_mem_nil _⟩

theorem isStreak_concat : IsStreak p (n + 1) (l ++ [x]) ↔ IsStreak p n l ∧ p x = true := by
  rw [IsStreak, IsStreak, List.length_append, List.length_singleton, List.forall_mem_append,
    List.forall_mem_singleton, Nat.add_right_cancel_iff, and_assoc]

theorem streak_concat : streak p (l ++ [x]) = (streak p l).read p x := by
  rw [streak, List.foldl_append]
  rfl

theorem streak_concat_of_not (h : p x = false) :
    streak p (l ++ [x]) = ⟨(streak p l).longest, 0⟩ := by
  rw [streak_concat, Streak.read, h]
  rfl

theorem streak_concat_of_mem (h : p x = true) :
    streak p (l ++ [x]) =
      ⟨max (streak p l).longest ((streak p l).current + 1), (streak p l).current + 1⟩ := by
  rw [streak_concat, Streak.read, if_pos h]
  congr 1
  split_ifs <;> omega

/-- The current streak is the longest one that the list ends with. -/
theorem le_current_iff : n ≤ (streak p l).current ↔ ∃ run, IsStreak p n run ∧ run <:+ l := by
  induction l using List.reverseRecOn generalizing n with
  | nil =>
    constructor
    · intro h
      obtain rfl : n = 0 := Nat.le_zero.mp h
      exact ⟨[], isStreak_nil, List.suffix_refl _⟩
    · rintro ⟨run, hrun, hsuffix⟩
      rw [List.suffix_nil.mp hsuffix] at hrun
      exact hrun.1.ge
  | append_singleton l x ih =>
    cases n with
    | zero => exact iff_of_true (Nat.zero_le _) ⟨[], isStreak_nil, List.nil_suffix⟩
    | succ n =>
      -- the last element breaks the streak or makes it longer by one
      cases hx : p x with
      | false =>
        rw [streak_concat_of_not hx]
        refine iff_of_false (Nat.not_succ_le_zero n) ?_
        rintro ⟨run, hrun, hsuffix⟩
        rcases List.suffix_concat_iff.mp hsuffix with rfl | ⟨front, rfl, -⟩
        · exact absurd hrun.1 (Nat.succ_ne_zero n).symm
        · exact absurd (isStreak_concat.mp hrun).2 (by rw [hx]; exact Bool.false_ne_true)
      | true =>
        rw [streak_concat_of_mem hx, Nat.succ_le_succ_iff, ih]
        constructor
        · rintro ⟨run, hrun, hsuffix⟩
          exact ⟨run ++ [x], isStreak_concat.mpr ⟨hrun, hx⟩,
            List.suffix_concat_iff.mpr (Or.inr ⟨run, rfl, hsuffix⟩)⟩
        · rintro ⟨run, hrun, hsuffix⟩
          rcases List.suffix_concat_iff.mp hsuffix with rfl | ⟨front, rfl, hfront⟩
          · exact absurd hrun.1 (Nat.succ_ne_zero n).symm
          · exact ⟨front, (isStreak_concat.mp hrun).1, hfront⟩

/-- **The longest streak** is the longest one anywhere in the list. -/
theorem le_longest_iff : n ≤ (streak p l).longest ↔ ∃ run, IsStreak p n run ∧ run <:+: l := by
  induction l using List.reverseRecOn with
  | nil =>
    constructor
    · intro h
      obtain rfl : n = 0 := Nat.le_zero.mp h
      exact ⟨[], isStreak_nil, List.infix_refl _⟩
    · rintro ⟨run, hrun, hinfix⟩
      rw [List.infix_nil.mp hinfix] at hrun
      exact hrun.1.ge
  | append_singleton l x ih =>
    -- a streak that is new ends with the new element
    have hends : (∃ run, IsStreak p n run ∧ run <:+: l ++ [x]) ↔
        n ≤ (streak p (l ++ [x])).current ∨ n ≤ (streak p l).longest := by
      rw [le_current_iff, ih]
      constructor
      · rintro ⟨run, hrun, hinfix⟩
        rcases List.infix_concat_iff.mp hinfix with hsuffix | hinfix
        · exact Or.inl ⟨run, hrun, hsuffix⟩
        · exact Or.inr ⟨run, hrun, hinfix⟩
      · rintro (⟨run, hrun, hsuffix⟩ | ⟨run, hrun, hinfix⟩)
        · exact ⟨run, hrun, hsuffix.isInfix⟩
        · exact ⟨run, hrun, hinfix.trans (List.prefix_append l [x]).isInfix⟩
    rw [hends]
    cases hx : p x with
    | false =>
      rw [streak_concat_of_not hx]
      show n ≤ (streak p l).longest ↔ n ≤ 0 ∨ n ≤ (streak p l).longest
      omega
    | true =>
      rw [streak_concat_of_mem hx]
      show n ≤ max (streak p l).longest ((streak p l).current + 1) ↔
        n ≤ (streak p l).current + 1 ∨ n ≤ (streak p l).longest
      omega

end Nyet.Lib
