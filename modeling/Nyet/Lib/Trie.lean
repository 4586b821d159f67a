import Mathlib

/-!
# Counting words with a trie

A trie is walked from its root along a text, from every place of the text, and each end it
comes by is counted. The words it knows can be read off it (`Trie.wordsFrom`), and what is
counted is how often they occur (`Trie.scan_eq_occurrences`), where a word occurs once for each
place at which it starts.

It is not required that the nodes form a tree: a table with edges that lead elsewhere, or back,
counts the words along its paths all the same.
-/

namespace Nyet.Lib

section

variable {ν α : Type*} [DecidableEq α]

/-- A table of nodes, with at most one edge for a letter, and with marks for where words end. -/
structure Trie (ν α : Type*) where
  next : ν → α → Option ν
  isEnd : ν → Bool

/-- How often words occur in a text: the pairs of a place and a word that starts there. -/
def occurrences (words : List (List α)) (s : List α) : Nat :=
  ((List.range s.length).product words).countP fun place => place.2.isPrefixOf (s.drop place.1)

/-- The ends on the way from a node along a text, as far as there are edges. -/
def Trie.walk (T : Trie ν α) : ν → List α → Nat
  | _, [] => 0
  | node, c :: s =>
    match T.next node c with
    | none => 0
    | some node => (if T.isEnd node then 1 else 0) + T.walk node s

/-- The ends that are found from all places of a text. -/
def Trie.scan (T : Trie ν α) (root : ν) (s : List α) : Nat :=
  ((List.range s.length).map fun start => T.walk root (s.drop start)).sum

/-- The words that start with a letter, from those that follow it. -/
def Trie.wordsVia (T : Trie ν α) (below : ν → List (List α)) (node : ν) (c : α) : List (List α) :=
  match T.next node c with
  | none => []
  | some node => (if T.isEnd node then [[c]] else []) ++ (below node).map (c :: ·)

/-- The words of at most so many letters that lead from a node to an end. -/
def Trie.wordsFrom (T : Trie ν α) (letters : List α) : Nat → ν → List (List α)
  | 0, _ => []
  | fuel + 1, node => letters.flatMap (T.wordsVia (T.wordsFrom letters fuel) node)

/-- There are edges for these letters only, and each is named once. -/
structure Trie.Spelled (T : Trie ν α) (letters : List α) : Prop where
  nodup : letters.Nodup
  covers : ∀ node c, (T.next node c).isSome = true → c ∈ letters

/-! ## Words -/

/-- Only one of the pieces matters. -/
theorem countP_flatMap_single {β γ : Type*} {l : List β} (hnodup : l.Nodup) {c : β} (hc : c ∈ l)
    {f : β → List γ} {p : γ → Bool} (hother : ∀ b ∈ l, b ≠ c → (f b).countP p = 0) :
    (l.flatMap f).countP p = (f c).countP p := by
  induction l with
  | nil => cases hc
  | cons b l ih =>
    obtain ⟨hb, hrest⟩ := List.nodup_cons.mp hnodup
    rw [List.flatMap_cons, List.countP_append]
    rcases List.mem_cons.mp hc with rfl | hc
    · have hzero : (l.flatMap f).countP p = 0 := by
        refine List.countP_eq_zero.mpr fun x hx => ?_
        obtain ⟨d, hd, hx⟩ := List.mem_flatMap.mp hx
        have hnone := hother d (List.mem_cons_of_mem _ hd) (ne_of_mem_of_not_mem hd hb)
        exact List.countP_eq_zero.mp hnone x hx
      rw [hzero, Nat.add_zero]
    · have hne : b ≠ c := (ne_of_mem_of_not_mem hc hb).symm
      rw [hother b List.mem_cons_self hne, Nat.zero_add]
      exact ih hrest hc fun d hd => hother d (List.mem_cons_of_mem _ hd)

/-- Words with a letter in front, at the front of a text. -/
theorem countP_map_cons (words : List (List α)) (b c : α) (s : List α) :
    (words.map (b :: ·)).countP (·.isPrefixOf (c :: s)) =
      if b = c then words.countP (·.isPrefixOf s) else 0 := by
  rw [List.countP_map]
  split
  · next heq =>
    subst heq
    exact List.countP_congr fun w _ => by simp
  · next hne =>
    refine List.countP_eq_zero.mpr fun w _ => ?_
    simp [hne]

variable {T : Trie ν α} {letters : List α}

omit [DecidableEq α] in
/-- Every word has a letter. -/
theorem Trie.nil_notMem_wordsFrom (fuel : Nat) (node : ν) : [] ∉ T.wordsFrom letters fuel node := by
  cases fuel with
  | zero => exact List.not_mem_nil
  | succ fuel =>
    intro hmem
    obtain ⟨c, -, hmem⟩ := List.mem_flatMap.mp hmem
    rw [Trie.wordsVia] at hmem
    cases hnext : T.next node c with
    | none =>
      rw [hnext] at hmem
      cases hmem
    | some node =>
      rw [hnext] at hmem
      rcases List.mem_append.mp hmem with hend | hrest
      · split at hend
        · cases List.mem_singleton.mp hend
        · cases hend
      · obtain ⟨w, -, hw⟩ := List.mem_map.mp hrest
        cases hw

/-- The words that start with another letter do not start the text, -/
theorem Trie.countP_wordsVia_ne {below : ν → List (List α)} (node : ν) {b c : α} (hbc : b ≠ c)
    (s : List α) : (T.wordsVia below node b).countP (·.isPrefixOf (c :: s)) = 0 := by
  rw [Trie.wordsVia]
  cases T.next node b with
  | none => rfl
  | some node =>
    have hend : (if T.isEnd node then [[b]] else []).countP (·.isPrefixOf (c :: s)) = 0 := by
      cases T.isEnd node <;> simp [hbc]
    show List.countP _ (_ ++ _) = 0
    rw [List.countP_append, countP_map_cons, if_neg hbc, hend]

/-- and those that start with its letter do if what follows does. -/
theorem Trie.countP_wordsVia_self {below : ν → List (List α)} {node after : ν} {c : α}
    (h : T.next node c = some after) (s : List α) :
    (T.wordsVia below node c).countP (·.isPrefixOf (c :: s)) =
      (if T.isEnd after then 1 else 0) + (below after).countP (·.isPrefixOf s) := by
  have hend : (if T.isEnd after then [[c]] else []).countP (·.isPrefixOf (c :: s)) =
      if T.isEnd after then 1 else 0 := by
    cases T.isEnd after <;> simp
  rw [Trie.wordsVia, h]
  show List.countP _ (_ ++ _) = _
  rw [List.countP_append, countP_map_cons, if_pos rfl, hend]

/-! ## What is counted -/

/-- **A walk counts the words at the front of the text.** -/
theorem Trie.walk_eq (hT : T.Spelled letters) {s : List α} {fuel : Nat} (h : s.length ≤ fuel)
    (node : ν) : T.walk node s = (T.wordsFrom letters fuel node).countP (·.isPrefixOf s) := by
  induction s generalizing fuel node with
  | nil =>
    refine (List.countP_eq_zero.mpr fun w hw => ?_).symm
    cases w with
    | nil => exact absurd hw (nil_notMem_wordsFrom fuel node)
    | cons c w => exact Bool.false_ne_true
  | cons c s ih =>
    rw [List.length_cons] at h
    obtain ⟨fuel, rfl⟩ : ∃ n, fuel = n + 1 := ⟨fuel - 1, by omega⟩
    rw [Trie.walk, Trie.wordsFrom]
    cases hnext : T.next node c with
    | none =>
      refine (List.countP_eq_zero.mpr fun w hw => ?_).symm
      obtain ⟨b, -, hw⟩ := List.mem_flatMap.mp hw
      have hbc : b ≠ c := by
        rintro rfl
        rw [Trie.wordsVia, hnext] at hw
        cases hw
      exact List.countP_eq_zero.mp (countP_wordsVia_ne node hbc s) w hw
    | some after =>
      -- of the words only those count that start with this letter
      have hc : c ∈ letters := hT.covers node c (by rw [hnext]; rfl)
      rw [countP_flatMap_single hT.nodup hc fun b _ hbc => countP_wordsVia_ne node hbc s,
        countP_wordsVia_self hnext, ← ih (Nat.le_of_succ_le_succ h)]

theorem occurrences_eq (words : List (List α)) (s : List α) :
    occurrences words s =
      ((List.range s.length).map fun start => words.countP (·.isPrefixOf (s.drop start))).sum := by
  have hplace : ∀ start, (words.map (Prod.mk start)).countP
      (fun place => place.2.isPrefixOf (s.drop place.1)) =
        words.countP (·.isPrefixOf (s.drop start)) := fun start => List.countP_map ..
  rw [occurrences, List.product, List.countP_flatMap]
  exact congrArg List.sum (List.map_congr_left fun start _ => hplace start)

/-- **A scan counts the occurrences of the words** of the trie. -/
theorem Trie.scan_eq_occurrences (hT : T.Spelled letters) {s : List α} {fuel : Nat}
    (h : s.length ≤ fuel) (root : ν) :
    T.scan root s = occurrences (T.wordsFrom letters fuel root) s := by
  rw [Trie.scan, occurrences_eq]
  refine congrArg List.sum (List.map_congr_left fun start _ => walk_eq hT ?_ root)
  rw [List.length_drop]
  omega

theorem occurrences_append (words others : List (List α)) (s : List α) :
    occurrences (words ++ others) s = occurrences words s + occurrences others s := by
  simp only [occurrences_eq, List.countP_append, List.sum_map_add]

/-- The order of the words does not matter. -/
theorem occurrences_perm {words others : List (List α)} (h : words.Perm others) (s : List α) :
    occurrences words s = occurrences others s := by
  rw [occurrences_eq, occurrences_eq]
  exact congrArg List.sum (List.map_congr_left fun start _ => h.countP_eq _)

end

end Nyet.Lib
