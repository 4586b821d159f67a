import Mathlib

/-!
# Parties and what they hold

A list of parties that change one at a time, each by its index. How many of them hold a
thing is a `countP`, and a change of one party moves it by what that party held before and
holds after (`countP_set_add`); with at most one holder, the holder has one index.
-/

namespace Nyet.Lib

variable {σ : Type*} {p : σ → Bool} {parties : List σ} {i j : Nat} {x y : σ}

/-- One party moves on. -/
theorem countP_set_add (h : parties[i]? = some x) :
    (parties.set i y).countP p + (p x).toNat = parties.countP p + (p y).toNat := by
  obtain ⟨hi, rfl⟩ := List.getElem?_eq_some_iff.mp h
  rw [List.countP_set hi]
  cases hx : p parties[i] with
  | true =>
    have hpos : 0 < parties.countP p := List.countP_pos_iff.mpr ⟨_, List.getElem_mem hi, hx⟩
    cases p y <;> simp <;> omega
  | false => cases p y <;> simp

/-- A party that holds it is counted. -/
theorem countP_pos_of_getElem? (h : parties[i]? = some x) (hx : p x = true) :
    0 < parties.countP p :=
  List.countP_pos_iff.mpr ⟨x, List.mem_of_getElem? h, hx⟩

/-- Two indices with a holder each make two holders. -/
theorem index_unique (hone : parties.countP p ≤ 1) (hi : parties[i]? = some x) (hx : p x = true)
    (hj : parties[j]? = some y) (hy : p y = true) : i = j := by
  by_contra hne
  -- take it from the first one; the second one still holds it
  by_cases hz : ∃ z, p z = false
  · obtain ⟨z, hz⟩ := hz
    have hset : (parties.set i z).countP p + 1 = parties.countP p + 0 := by
      have hset := @countP_set_add _ p _ _ _ z hi
      rwa [hx, hz] at hset
    have hrest : 0 < (parties.set i z).countP p :=
      countP_pos_of_getElem? ((List.getElem?_set_ne hne).trans hj) hy
    omega
  · have hall : ∀ z ∈ parties, p z = true := by
      intro z _
      by_contra hno
      exact hz ⟨z, by simpa using hno⟩
    have hlt := (List.getElem?_eq_some_iff.mp hi).1
    have hlt' := (List.getElem?_eq_some_iff.mp hj).1
    rw [List.countP_eq_length.mpr hall] at hone
    omega

/-- There is exactly one holder exactly if exactly one index has one. -/
theorem countP_eq_one_iff :
    parties.countP p = 1 ↔ ∃! i : Nat, ∃ x, parties[i]? = some x ∧ p x = true := by
  constructor
  · intro hone
    obtain ⟨x, hmem, hx⟩ := List.countP_pos_iff.mp (hone ▸ Nat.one_pos)
    obtain ⟨i, hi⟩ := List.getElem?_of_mem hmem
    refine ⟨i, ⟨x, hi, hx⟩, ?_⟩
    rintro j ⟨y, hj, hy⟩
    exact index_unique (Nat.le_of_eq hone) hj hy hi hx
  · rintro ⟨i, ⟨x, hi, hx⟩, hunique⟩
    obtain ⟨hlt, rfl⟩ := List.getElem?_eq_some_iff.mp hi
    -- nobody before it, nobody behind it
    have hsplit : parties = parties.take i ++ parties[i] :: parties.drop (i + 1) := by
      rw [List.getElem_cons_drop, List.take_append_drop]
    have hbefore : (parties.take i).countP p = 0 := by
      refine List.countP_eq_zero.mpr fun y hmem hy => ?_
      obtain ⟨j, hj, rfl⟩ := List.mem_take_iff_getElem.mp hmem
      have hji := hunique j ⟨_, List.getElem?_eq_getElem (by omega), hy⟩
      omega
    have hbehind : (parties.drop (i + 1)).countP p = 0 := by
      refine List.countP_eq_zero.mpr fun y hmem hy => ?_
      obtain ⟨j, hj, rfl⟩ := List.mem_drop_iff_getElem.mp hmem
      have hji := hunique (i + 1 + j) ⟨_, List.getElem?_eq_getElem (by omega), hy⟩
      omega
    rw [hsplit, List.countP_append, List.countP_cons, hbefore, hbehind, if_pos hx]

end Nyet.Lib
