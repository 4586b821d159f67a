import Nyet.Lib.Dict
import Nyet.Lib.EditScript

/-!
# The distance table of the deep inspection

`damerau_levenshtein` of deep_inspect.py. Its dictionary is keyed by the places of the letters a
cell is about, with borders at −1 for the empty beginnings; a key that is not there is an
error, which is `none` here. No cell is read before it is written, and what is read at the end is
the distance of the two strings (`damerau_levenshtein_is_edit_distance`): the cells hold the
distances of the beginnings (`Written`).
-/

namespace Nyet

open Lib

section

variable {α : Type}

/-- `range(start, stop)` -/
def intRange (start stop : Int) : List Int :=
  (List.range (stop - start).toNat).map fun k : Nat => start + (k : Int)

/-- The two loops over the borders. -/
def distanceBorders (len1 len2 : Nat) : Dict (Int × Int) Int :=
  let d := (intRange (-1) (len1 + 1)).foldl (fun d i => Dict.set d (i, -1) (i + 1)) []
  (intRange (-1) (len2 + 1)).foldl (fun d j => Dict.set d (-1, j) (j + 1)) d

/-- The body of the two inner loops. -/
def fillCell [DecidableEq α] (s1 s2 : List α) (d : Dict (Int × Int) Int) (i j : Nat) :
    Option (Dict (Int × Int) Int) := do
  let b ← s1[i]?
  let c ← s2[j]?
  let cost : Int := if b = c then 0 else 1
  let deletion ← Dict.get? d (i - 1, j)
  let insertion ← Dict.get? d (i, j - 1)
  let substitution ← Dict.get? d (i - 1, j - 1)
  let d := Dict.set d (i, j) (min (min (deletion + 1) (insertion + 1)) (substitution + cost))
  if 0 < i ∧ 0 < j ∧ s1[i]? = s2[j - 1]? ∧ s1[i - 1]? = s2[j]? then do
    let cell ← Dict.get? d (i, j)
    let transposition ← Dict.get? d (i - 2, j - 2)
    some (Dict.set d (i, j) (min cell (transposition + cost)))
  else
    some d

/-- One row of cells. -/
def fillRow [DecidableEq α] (s1 s2 : List α) (d : Dict (Int × Int) Int) (i : Nat) :
    Option (Dict (Int × Int) Int) :=
  (List.range s2.length).foldlM (fun d j => fillCell s1 s2 d i j) d

/-- `damerau_levenshtein(s1, s2)` -/
def damerauLevenshtein [DecidableEq α] (s1 s2 : List α) : Option Int := do
  let d ← (List.range s1.length).foldlM (fillRow s1 s2) (distanceBorders s1.length s2.length)
  Dict.get? d (s1.length - 1, s2.length - 1)

/-- Where the distance of the first `p` letters and the first `q` letters stands. -/
def cellOf (p q : Nat) : Int × Int := (p - 1, q - 1)

/-- The borders, all rows before row `i` and the first `j` cells of that row are written. -/
def Written (s1 s2 : List α) (i j : Nat) (d : Dict (Int × Int) Int) : Prop :=
  ∀ p q : Nat, p ≤ s1.length → q ≤ s2.length →
    p = 0 ∨ q = 0 ∨ p ≤ i ∨ p = i + 1 ∧ q ≤ j →
    ∃ n : Nat, Dict.get? d (cellOf p q) = some (n : Int) ∧
      IsEditDistance (s1.take p) (s2.take q) n

variable {s1 s2 : List α} {d : Dict (Int × Int) Int} {i j : Nat}

/-! ## The borders -/

theorem mem_intRange {start stop i : Int} : i ∈ intRange start stop ↔ start ≤ i ∧ i < stop := by
  unfold intRange
  rw [List.mem_map]
  constructor
  · rintro ⟨k, hk, rfl⟩
    have hlt := List.mem_range.mp hk
    omega
  · rintro ⟨hlow, hhigh⟩
    exact ⟨(i - start).toNat, List.mem_range.mpr (by omega), by omega⟩

/-- The empty beginning of the first string stands in the row −1, -/
theorem distanceBorders_row {len1 len2 q : Nat} (hq : q ≤ len2) :
    Dict.get? (distanceBorders len1 len2) (cellOf 0 q) = some (q : Int) := by
  have hinj : Function.Injective fun j : Int => ((-1, j) : Int × Int) := fun _ _ h =>
    congrArg Prod.snd h
  have hmem : (q : Int) - 1 ∈ intRange (-1) (len2 + 1) := mem_intRange.mpr (by omega)
  have hget := Dict.get?_foldl_set (w := fun j => j + 1)
    ((intRange (-1) (len1 + 1)).foldl (fun d i => Dict.set d (i, -1) (i + 1)) []) hinj hmem
  rw [Int.sub_add_cancel] at hget
  exact hget

/-- that of the second in the column −1. -/
theorem distanceBorders_column {len1 len2 p : Nat} (hp : p ≤ len1) :
    Dict.get? (distanceBorders len1 len2) (cellOf p 0) = some (p : Int) := by
  cases p with
  | zero => exact distanceBorders_row (Nat.zero_le len2)
  | succ p =>
    have hinj : Function.Injective fun i : Int => ((i, -1) : Int × Int) := fun _ _ h =>
      congrArg Prod.fst h
    have hmem : ((p + 1 : Nat) : Int) - 1 ∈ intRange (-1) (len1 + 1) := mem_intRange.mpr (by omega)
    have hget := Dict.get?_foldl_set (w := fun i => i + 1) [] hinj hmem
    rw [Int.sub_add_cancel] at hget
    rw [distanceBorders]
    refine (Dict.get?_foldl_set_of_notMem _ fun j _ hj => ?_).trans hget
    -- the second loop only writes to the row −1
    have hrow : (-1 : Int) = ((p + 1 : Nat) : Int) - 1 := congrArg Prod.fst hj
    omega

theorem written_distanceBorders (s1 s2 : List α) :
    Written s1 s2 0 0 (distanceBorders s1.length s2.length) := by
  intro p q hp hq hcell
  by_cases hzero : p = 0
  · subst hzero
    refine ⟨q, distanceBorders_row hq, ?_⟩
    have hdist := isEditDistance_nil_left (s2.take q)
    rwa [List.length_take_of_le hq] at hdist
  · have hq0 : q = 0 := by omega
    subst hq0
    refine ⟨p, distanceBorders_column hp, ?_⟩
    have hdist := isEditDistance_nil_right (s1.take p)
    rwa [List.length_take_of_le hp] at hdist

/-! ## A cell -/

theorem take_concat {l : List α} {b : α} (h : l[i]? = some b) :
    l.take (i + 1) = l.take i ++ [b] := by
  rw [List.take_add_one, h]
  rfl

/-- The letter a beginning ends with. -/
theorem take_eq_concat_iff {l : List α} {c : α} (hi : i ≤ l.length) :
    (∃ s, l.take i = s ++ [c]) ↔ 0 < i ∧ l[i - 1]? = some c := by
  cases i with
  | zero => simp
  | succ i =>
    obtain ⟨b, hb⟩ : ∃ b, l[i]? = some b := ⟨l[i], List.getElem?_eq_getElem hi⟩
    rw [take_concat hb, Nat.add_sub_cancel, hb]
    constructor
    · rintro ⟨s, hs⟩
      obtain ⟨-, hbc⟩ := List.append_inj' hs rfl
      exact ⟨Nat.succ_pos i, congrArg some (List.singleton_inj.mp hbc)⟩
    · rintro ⟨-, hbc⟩
      exact ⟨l.take i, by rw [Option.some.inj hbc]⟩

/-- One more cell is written when it holds its distance and the others are as they were. -/
theorem Written.cell (hd : Written s1 s2 i j d) {d' : Dict (Int × Int) Int} {n : Nat}
    (hcell : Dict.get? d' (cellOf (i + 1) (j + 1)) = some (n : Int))
    (hother : ∀ key, key ≠ cellOf (i + 1) (j + 1) → Dict.get? d' key = Dict.get? d key)
    (hn : IsEditDistance (s1.take (i + 1)) (s2.take (j + 1)) n) : Written s1 s2 i (j + 1) d' := by
  intro p q hp hq hpq
  by_cases hnew : p = i + 1 ∧ q = j + 1
  · obtain ⟨rfl, rfl⟩ := hnew
    exact ⟨n, hcell, hn⟩
  · have hne : cellOf p q ≠ cellOf (i + 1) (j + 1) := by
      intro heq
      have hrow : (p : Int) - 1 = (i + 1 : Nat) - 1 := congrArg Prod.fst heq
      have hcolumn : (q : Int) - 1 = (j + 1 : Nat) - 1 := congrArg Prod.snd heq
      omega
    rw [hother _ hne]
    exact hd p q hp hq (by omega)

variable [DecidableEq α]

theorem intCost_eq (b c : α) : (if b = c then 0 else 1 : Int) = (changed b c : Int) := by
  unfold changed
  split <;> rfl

/-- **The body writes the next cell**, and finds every cell it reads. -/
theorem fillCell_written (hd : Written s1 s2 i j d) (hi : i < s1.length) (hj : j < s2.length) :
    ∃ d', fillCell s1 s2 d i j = some d' ∧ Written s1 s2 i (j + 1) d' := by
  obtain ⟨b, hb⟩ : ∃ b, s1[i]? = some b := ⟨s1[i], List.getElem?_eq_getElem hi⟩
  obtain ⟨c, hc⟩ : ∃ c, s2[j]? = some c := ⟨s2[j], List.getElem?_eq_getElem hj⟩
  obtain ⟨x, hxget, hx⟩ := hd i (j + 1) (by omega) hj (by omega)
  obtain ⟨y, hyget, hy⟩ := hd (i + 1) j hi (by omega) (by omega)
  obtain ⟨z, hzget, hz⟩ := hd i j (by omega) (by omega) (by omega)
  -- the indices of the dictionary begin at -1, those of the prefixes at 0
  have hdelete : ((i : Int) - 1, (j : Int)) = cellOf i (j + 1) := by simp [cellOf]
  have hinsert : ((i : Int), (j : Int) - 1) = cellOf (i + 1) j := by simp [cellOf]
  have hself : ((i : Int), (j : Int)) = cellOf (i + 1) (j + 1) := by simp [cellOf]
  have hsubst : ((i : Int) - 1, (j : Int) - 1) = cellOf i j := rfl
  simp only [fillCell, hb, hc, hdelete, hinsert, hself, hsubst, hxget, hyget, hzget, intCost_eq,
    Option.bind_eq_bind, Option.bind_some, Dict.get?_set_self]
  rw [take_concat hc] at hx
  rw [take_concat hb] at hy
  split
  · -- the last two letters are each other's: the branch that reads two rows and two columns up
    next hswap =>
    obtain ⟨hi0, hj0, hbj, hci⟩ := hswap
    obtain ⟨w, hwget, hw⟩ := hd (i - 1) (j - 1) (by omega) (by omega) (by omega)
    have htranspose : ((i : Int) - 2, (j : Int) - 2) = cellOf (i - 1) (j - 1) :=
      Prod.ext (by show (i : Int) - 2 = (i - 1 : Nat) - 1; omega)
        (by show (j : Int) - 2 = (j - 1 : Nat) - 1; omega)
    have hne : cellOf (i - 1) (j - 1) ≠ cellOf (i + 1) (j + 1) := by
      intro heq
      have hrow : ((i - 1 : Nat) : Int) - 1 = (i + 1 : Nat) - 1 := congrArg Prod.fst heq
      omega
    rw [htranspose, Dict.get?_set_of_ne _ hne, hwget, Option.bind_some]
    have hs : s1.take i = s1.take (i - 1) ++ [c] := by
      rw [← take_concat hci, Nat.sub_add_cancel hi0]
    have ht : s2.take j = s2.take (j - 1) ++ [b] := by
      rw [← take_concat hbj.symm, Nat.sub_add_cancel hj0]
    rw [hs, ht] at hz
    rw [hs] at hx hy
    rw [ht] at hx hy
    refine ⟨_, rfl, hd.cell (n := min (min (min (x + 1) (y + 1)) (z + changed b c))
      (w + changed b c)) ?_ (fun key hkey => ?_) ?_⟩
    · rw [Dict.get?_set_self]
      exact congrArg some (by omega)
    · rw [Dict.get?_set_of_ne _ hkey, Dict.get?_set_of_ne _ hkey]
    · rw [take_concat hb, take_concat hc, hs, ht]
      exact IsEditDistance.snoc_of_swapped hx hy hz hw
  · next hswap =>
    refine ⟨_, rfl, hd.cell (n := min (min (x + 1) (y + 1)) (z + changed b c)) ?_
      (fun key hkey => Dict.get?_set_of_ne _ hkey _) ?_⟩
    · rw [Dict.get?_set_self]
      exact congrArg some (by omega)
    · rw [take_concat hb, take_concat hc]
      refine IsEditDistance.snoc hx hy hz ?_
      -- no transposition ends here, since the body's test for one has failed
      rintro ⟨s, t, hs, ht⟩
      obtain ⟨hi0, hci⟩ := (take_eq_concat_iff (Nat.le_of_lt hi)).mp ⟨s, hs⟩
      obtain ⟨hj0, hbj⟩ := (take_eq_concat_iff (Nat.le_of_lt hj)).mp ⟨t, ht⟩
      exact hswap ⟨hi0, hj0, hbj.symm, hci⟩

/-! ## The table -/

/-- A loop over a range that keeps an invariant ends, with the invariant of its end. -/
theorem foldlM_range {β : Type} {f : β → Nat → Option β} {P : Nat → β → Prop} {n : Nat}
    (hstep : ∀ k < n, ∀ b, P k b → ∃ b', f b k = some b' ∧ P (k + 1) b') {b : β} (hb : P 0 b) :
    ∃ b', (List.range n).foldlM f b = some b' ∧ P n b' := by
  induction n with
  | zero => exact ⟨b, rfl, hb⟩
  | succ n ih =>
    obtain ⟨b', hb', hP⟩ := ih fun k hk => hstep k (Nat.lt_succ_of_lt hk)
    obtain ⟨b'', hb'', hP⟩ := hstep n (Nat.lt_succ_self n) b' hP
    refine ⟨b'', ?_, hP⟩
    rw [List.range_succ, List.foldlM_append, hb']
    show (List.foldlM f b' [n] : Option β) = some b''
    rw [List.foldlM_cons, hb'']
    rfl

theorem fillRow_written (hd : Written s1 s2 i 0 d) (hi : i < s1.length) :
    ∃ d', fillRow s1 s2 d i = some d' ∧ Written s1 s2 (i + 1) 0 d' := by
  obtain ⟨d', hrow, hd'⟩ := foldlM_range (P := fun j => Written s1 s2 i j)
    (fun j hj d hd => fillCell_written hd hi hj) hd
  refine ⟨d', hrow, fun p q hp hq hpq => hd' p q hp hq ?_⟩
  omega

/-- **The table is filled**, and its last cell is the distance. -/
theorem damerauLevenshtein_distance (s1 s2 : List α) :
    ∃ n : Nat, damerauLevenshtein s1 s2 = some (n : Int) ∧ IsEditDistance s1 s2 n := by
  obtain ⟨d, hd, hwritten⟩ := foldlM_range (P := fun i => Written s1 s2 i 0)
    (fun i hi d hd => fillRow_written hd hi) (written_distanceBorders s1 s2)
  obtain ⟨n, hget, hn⟩ := hwritten s1.length s2.length (Nat.le_refl _) (Nat.le_refl _) (by omega)
  rw [List.take_length, List.take_length] at hn
  refine ⟨n, ?_, hn⟩
  rw [damerauLevenshtein, hd]
  exact hget

/-- **`damerau_levenshtein` returns the edit distance**, of all strings: the least number of
insertions, deletions, substitutions and swaps of neighbours in one script. It reads no cell that
is not there. So it is zero for equal strings only, the same either way round, and no more than
the longer string's length. -/
theorem damerau_levenshtein_is_edit_distance (s1 s2 : List α) :
    ∃ n : Nat, damerauLevenshtein s1 s2 = some (n : Int) ∧ IsEditDistance s1 s2 n ∧
      (n = 0 ↔ s1 = s2) ∧ damerauLevenshtein s2 s1 = some (n : Int) ∧
      n ≤ max s1.length s2.length := by
  obtain ⟨n, hget, hn⟩ := damerauLevenshtein_distance s1 s2
  obtain ⟨m, hget', hm⟩ := damerauLevenshtein_distance s2 s1
  have hsame : m = n := hm.unique hn.symm
  exact ⟨n, hget, hn, hn.eq_zero_iff, hsame ▸ hget', hn.le_max⟩

/-- Turned about, "ab" is one edit from "ba", but "ca" is three from "abc". -/
example : damerauLevenshtein "ab".toList "ba".toList = some 1 ∧
    damerauLevenshtein "ca".toList "abc".toList = some 3 := by decide

end

end Nyet
