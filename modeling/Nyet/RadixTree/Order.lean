import Nyet.RadixTree.Node

/-!
# Label order, child search and sorting

`label_compare` is the sign of the lexicographic order on byte strings, so it is
a strict total order. On it rests the representation invariant `Node.WF`:
children have pairwise distinct labels at every node, and a node flagged sorted
has them in strictly increasing order. Under the invariant both branches of
`find_child` find the one child with the label.
-/

namespace Nyet

/-! ## `label_compare` -/

@[simp] theorem labelCompare_nil_nil : labelCompare [] [] = 0 := rfl

@[simp] theorem labelCompare_nil_cons (y : UInt8) (ys : Label) :
    labelCompare [] (y :: ys) = -1 := by simp [labelCompare, memcmp]

@[simp] theorem labelCompare_cons_nil (x : UInt8) (xs : Label) :
    labelCompare (x :: xs) [] = 1 := by simp [labelCompare, memcmp]

/-- The first byte decides unless it is the same. That the lengths are compared after `memcmp` makes
no difference: both get one shorter. -/
theorem labelCompare_cons_cons (x y : UInt8) (xs ys : Label) :
    labelCompare (x :: xs) (y :: ys) =
      if x = y then labelCompare xs ys else (x.toNat : Int) - (y.toNat : Int) := by
  unfold labelCompare
  rw [List.length_cons, List.length_cons, Nat.succ_min_succ, memcmp]
  by_cases h : x = y
  · simp only [if_pos h, Nat.succ_lt_succ_iff]
  · have hne : (x.toNat : Int) - (y.toNat : Int) ≠ 0 := by
      intro h0
      exact h (UInt8.toNat_inj.mp (by omega))
    simp only [if_neg h, if_pos hne]

/-- Below zero is below in the lexicographic order, byte by byte; a prefix comes first. -/
theorem labelCompare_neg_iff (a b : Label) : labelCompare a b < 0 ↔ a < b := by
  induction a generalizing b with
  | nil => cases b <;> simp
  | cons x xs ih =>
    cases b with
    | nil => simp
    | cons y ys =>
      rw [labelCompare_cons_cons, List.cons_lt_cons_iff]
      by_cases h : x = y
      · rw [if_pos h, ih]
        simp [h]
      · rw [if_neg h]
        have hlt : x < y ↔ x.toNat < y.toNat := UInt8.lt_iff_toNat_lt
        simp only [h, false_and, or_false, hlt]
        omega

/-- The order of the arguments turns the sign. -/
theorem labelCompare_swap (a b : Label) : labelCompare b a < 0 ↔ 0 < labelCompare a b := by
  induction a generalizing b with
  | nil => cases b <;> simp
  | cons x xs ih =>
    cases b with
    | nil => simp
    | cons y ys =>
      rw [labelCompare_cons_cons, labelCompare_cons_cons]
      by_cases h : x = y
      · rw [if_pos h, if_pos h.symm, ih]
      · rw [if_neg h, if_neg (Ne.symm h)]
        omega

/-- Zero is equality: labels are compared in full, not up to the shorter one. -/
theorem labelCompare_eq_zero (a b : Label) : labelCompare a b = 0 ↔ a = b := by
  induction a generalizing b with
  | nil => cases b <;> simp
  | cons x xs ih =>
    cases b with
    | nil => simp
    | cons y ys =>
      rw [labelCompare_cons_cons]
      by_cases h : x = y
      · rw [if_pos h, ih]
        simp [h]
      · rw [if_neg h]
        have hne : x.toNat ≠ y.toNat := fun heq => h (UInt8.toNat_inj.mp heq)
        constructor
        · intro h0
          omega
        · intro heq
          exact absurd (List.cons.inj heq).1 h

/-- Transitivity comes from the lexicographic order. -/
theorem labelCompare_trans {a b c : Label} (hab : labelCompare a b < 0)
    (hbc : labelCompare b c < 0) : labelCompare a c < 0 := by
  rw [labelCompare_neg_iff] at *
  exact List.lt_trans hab hbc

/-- **`label_compare` is a strict total order** on byte strings. -/
instance : IsStrictTotalOrder Label fun a b => labelCompare a b < 0 where
  trichotomous a b hab hba := by
    rw [labelCompare_swap] at hba
    exact (labelCompare_eq_zero a b).mp (by omega)
  irrefl a h := by
    rw [(labelCompare_eq_zero a a).mpr rfl] at h
    exact absurd h (Int.lt_irrefl 0)
  trans _ _ _ hab hbc := labelCompare_trans hab hbc

/-- Trichotomy in the form the sort needs. -/
theorem nodeLe_iff (a b : Node) :
    NodeLe a b ↔ labelCompare a.label b.label < 0 ∨ a.label = b.label := by
  rw [NodeLe]
  rw [← labelCompare_eq_zero]
  omega

instance : Std.Total NodeLe where
  total a b := by
    have h := labelCompare_swap a.label b.label
    unfold NodeLe
    omega

instance : IsTrans Node NodeLe where
  trans a b c hab hbc := by
    rw [nodeLe_iff] at *
    rcases hab with hab | hab
    · rcases hbc with hbc | hbc
      · exact Or.inl (labelCompare_trans hab hbc)
      · exact Or.inl (hbc ▸ hab)
    · rw [hab]
      exact hbc

/-! ## The representation invariant -/

/-- Children have pairwise distinct labels, a sorted flag is deserved, and both
hold all the way down. -/
inductive Node.WF : Node → Prop where
  | intro {n : Node} (distinct : (n.children.map Node.label).Nodup)
      (sorted : n.childrenSorted = true →
        n.children.Pairwise fun a b => labelCompare a.label b.label < 0)
      (children : ∀ c ∈ n.children, c.WF) : n.WF

/-- The children of a node have distinct labels. -/
theorem Node.WF.distinct {n : Node} (h : n.WF) : (n.children.map Node.label).Nodup := by
  cases h
  assumption

/-- A sorted flag can be relied on. -/
theorem Node.WF.sorted {n : Node} (h : n.WF) (hs : n.childrenSorted = true) :
    n.children.Pairwise fun a b => labelCompare a.label b.label < 0 := by
  cases h with
  | intro _ sorted _ => exact sorted hs

/-- The invariant goes down to the children. -/
theorem Node.WF.child {n c : Node} (h : n.WF) (hc : c ∈ n.children) : c.WF := by
  cases h with
  | intro _ _ children => exact children c hc

/-- A new node has no children to disagree. -/
theorem nodeCreate_wf (label : Label) : (nodeCreate label).WF :=
  .intro (by simp [nodeCreate]) (by simp [nodeCreate]) (by simp [nodeCreate])

/-- A tree whose root could not be allocated has nothing to satisfy it. -/
theorem noRoot_wf : ∀ root : Node, none = some root → root.WF
  | _, h => (Option.some_ne_none _ h.symm).elim

/-- The root that `radix_builder_init` creates. -/
theorem createdRoot_wf : ∀ root, some (nodeCreate []) = some root → root.WF
  | _, rfl => nodeCreate_wf []

/-- The child with a given label. -/
def Node.child? (n : Node) (label : Label) : Option Node :=
  n.children.find? fun c => c.label = label

/-- What is found is a child, and has the label. -/
theorem Node.child?_some {n c : Node} {label : Label} (h : n.child? label = some c) :
    c ∈ n.children ∧ c.label = label :=
  ⟨List.mem_of_find?_eq_some h, by simpa using List.find?_some h⟩

/-- Where nothing is found no child has it. -/
theorem Node.child?_none {n : Node} {label : Label} :
    n.child? label = none ↔ ∀ c ∈ n.children, c.label ≠ label := by
  simp [Node.child?, List.find?_eq_none]

/-- With distinct labels, the child with a label is the only one. -/
theorem Node.child?_of_getElem {n c : Node} {label : Label} {i : Nat}
    (hd : (n.children.map Node.label).Nodup) (hi : n.children[i]? = some c)
    (hl : c.label = label) : n.child? label = some c := by
  have hmem : c ∈ n.children := List.mem_of_getElem? hi
  cases h : n.child? label with
  | none => exact absurd hl (Node.child?_none.mp h c hmem)
  | some d =>
    obtain ⟨hd', hdl⟩ := Node.child?_some h
    rw [List.inj_on_of_nodup_map hd hd' hmem (hdl.trans hl.symm)]

/-! ## `find_child` -/

/-- Sorted children make the search key's comparison a sorted probe. -/
theorem probeSorted_of_sorted {cs : List Node} (label : Label)
    (h : cs.Pairwise fun a b => labelCompare a.label b.label < 0) :
    Lib.ProbeSorted (fun cand => labelCompare cand.label label) cs := by
  refine h.imp fun {a b} hab hge => ?_
  show 0 < labelCompare b.label label
  rw [← labelCompare_swap]
  -- what is not below the key has nothing at or below the key behind it
  rcases Int.lt_or_eq_of_le hge with hpos | hzero
  · rw [← labelCompare_swap] at hpos
    exact labelCompare_trans hpos hab
  · rw [← (labelCompare_eq_zero _ _).mp hzero.symm]
    exact hab

/-- `find_child` returns an index holding a child with the label. -/
theorem findChild_sound {n : Node} {label : Label} {i : Nat}
    (h : findChild n label = some i) : ∃ c, n.children[i]? = some c ∧ c.label = label := by
  rw [findChild] at h
  split at h
  · obtain ⟨c, hc, hzero⟩ := Lib.bsearch_sound _ _ _ _ _ h
    exact ⟨c, hc, (labelCompare_eq_zero _ _).mp hzero⟩
  · obtain ⟨hi, hl, -⟩ := List.findIdx?_eq_some_iff_getElem.mp h
    exact ⟨_, List.getElem?_eq_getElem hi, by simpa using hl⟩

/-- The binary search of `find_child`. -/
def Node.binarySearch (n : Node) (label : Label) : Option Nat :=
  Lib.bsearch (fun cand => labelCompare cand.label label) n.children n.children.length 0
    n.children.length

/-- Its linear scan. -/
def Node.linearScan (n : Node) (label : Label) : Option Nat :=
  n.children.findIdx? fun child => child.label = label

/-- `find_child` is one search or the other, by the flag. -/
theorem findChild_branches (n : Node) (label : Label) :
    findChild n label = if n.childrenSorted then n.binarySearch label else n.linearScan label :=
  rfl

/-- On sorted children both find the same. -/
theorem Node.binarySearch_eq_linearScan {n : Node}
    (h : n.children.Pairwise fun a b => labelCompare a.label b.label < 0) (label : Label) :
    n.binarySearch label = n.linearScan label := by
  rw [Node.binarySearch, Lib.bsearch_eq_findIdx? (probeSorted_of_sorted label h), Node.linearScan]
  congr 1
  funext c
  rw [decide_eq_decide]
  exact labelCompare_eq_zero _ _

/-- **Child search does not depend on the sorted flag**: whichever branch runs,
it finds what the scan finds. -/
theorem findChild_eq_linearScan {n : Node} (hn : n.WF) (label : Label) :
    findChild n label = n.linearScan label := by
  rw [findChild_branches]
  split
  · next hs => exact Node.binarySearch_eq_linearScan (hn.sorted hs) label
  · rfl

/-- That is the child with the label, if there is one. -/
theorem findChild_eq {n : Node} (hn : n.WF) (label : Label) :
    (findChild n label).bind (n.children[·]?) = n.child? label := by
  rw [findChild_eq_linearScan hn, Node.child?, List.find?_eq_bind_findIdx?_getElem?]
  rfl

/-- Nothing is found only where there is no child with the label. -/
theorem findChild_none {n : Node} (hn : n.WF) {label : Label}
    (h : findChild n label = none) : n.child? label = none := by
  rw [← findChild_eq hn, h, Option.bind_none]

/-- What is found is the child with the label, at its index. -/
theorem findChild_some {n : Node} (hn : n.WF) {label : Label} {i : Nat}
    (h : findChild n label = some i) :
    ∃ c, n.children[i]? = some c ∧ n.child? label = some c := by
  obtain ⟨c, hc, hl⟩ := findChild_sound h
  exact ⟨c, hc, Node.child?_of_getElem hn.distinct hc hl⟩

/-! ## Sorting -/

/-- The loop over the children sorts each of them. -/
theorem sortAll_eq_map (cs : List Node) : sortAll cs = cs.map sortChildrenRecursive := by
  induction cs with
  | nil => rfl
  | cons c cs ih => rw [sortAll, ih, List.map_cons]

/-- Sorting leaves the label of a node. -/
@[simp] theorem sortChildrenRecursive_label (n : Node) :
    (sortChildrenRecursive n).label = n.label := by
  cases n
  rw [sortChildrenRecursive]

/-- Sorting leaves its entry. -/
@[simp] theorem sortChildrenRecursive_entry (n : Node) :
    (sortChildrenRecursive n).entry = n.entry := by
  cases n
  rw [sortChildrenRecursive]

/-- Sorting sets the flag, children or no children. -/
@[simp] theorem sortChildrenRecursive_sorted (n : Node) :
    (sortChildrenRecursive n).childrenSorted = true := by
  cases n
  rw [sortChildrenRecursive]

/-- Its children are sorted themselves and then put in order. -/
theorem sortChildrenRecursive_children (n : Node) :
    (sortChildrenRecursive n).children =
      (n.children.map sortChildrenRecursive).insertionSort NodeLe := by
  cases n
  rw [sortChildrenRecursive, sortAll_eq_map]

/-- No child is lost in that and none comes in. -/
theorem sortChildrenRecursive_perm (n : Node) :
    (sortChildrenRecursive n).children.Perm (n.children.map sortChildrenRecursive) := by
  rw [sortChildrenRecursive_children]
  exact List.perm_insertionSort NodeLe _

/-- `qsort` may be any sorting algorithm: on distinct labels there is only one
sorted arrangement of the children. -/
theorem sorted_unique {cs ds : List Node} (hperm : cs.Perm ds)
    (hd : (cs.map Node.label).Nodup) (hc : cs.Pairwise NodeLe) (hds : ds.Pairwise NodeLe) :
    cs = ds := by
  refine hperm.eq_of_pairwise (fun a b ha hb hab hba => ?_) hc hds
  refine List.inj_on_of_nodup_map hd ha (hperm.mem_iff.mpr hb) ?_
  -- each is at or below the other, so their labels are the same
  rw [nodeLe_iff] at hab hba
  rcases hab with hab | hab
  · rcases hba with hba | hba
    · rw [labelCompare_neg_iff] at hab hba
      exact absurd (List.lt_trans hab hba) (List.lt_irrefl _)
    · exact hba.symm
  · exact hab

/-- Sorting the whole tree deserves every flag it sets. -/
theorem sortChildrenRecursive_wf {n : Node} (h : n.WF) : (sortChildrenRecursive n).WF := by
  induction h with
  | @intro n distinct _ _ ih =>
    have hperm := sortChildrenRecursive_perm n
    have hlabels : ((sortChildrenRecursive n).children.map Node.label).Nodup := by
      rw [(hperm.map Node.label).nodup_iff, List.map_map]
      simpa [Function.comp_def] using distinct
    refine .intro hlabels (fun _ => ?_) (fun c hc => ?_)
    · -- at or below, and not the same label: below
      have hsorted : (sortChildrenRecursive n).children.Pairwise NodeLe := by
        rw [sortChildrenRecursive_children]
        exact List.pairwise_insertionSort NodeLe _
      have hne := List.pairwise_map.mp hlabels
      refine (hsorted.and hne).imp fun {a b} hab => ?_
      exact ((nodeLe_iff a b).mp hab.1).resolve_right hab.2
    · obtain ⟨d, hd, rfl⟩ := List.mem_map.mp (hperm.mem_iff.mp hc)
      exact ih d hd

/-- **A child is found as before**: the one with the label, itself sorted. Labels are distinct, so
where it stands now does not matter. -/
theorem sortChildrenRecursive_child? {n : Node} (h : n.WF) (label : Label) :
    (sortChildrenRecursive n).child? label =
      (n.child? label).map sortChildrenRecursive := by
  have hw := sortChildrenRecursive_wf h
  have hperm := sortChildrenRecursive_perm n
  cases hc : n.child? label with
  | none =>
    rw [Option.map_none, Node.child?_none]
    intro c hmem
    obtain ⟨d, hd, rfl⟩ := List.mem_map.mp (hperm.mem_iff.mp hmem)
    rw [sortChildrenRecursive_label]
    exact Node.child?_none.mp hc d hd
  | some d =>
    obtain ⟨hd, hl⟩ := Node.child?_some hc
    have hmem : sortChildrenRecursive d ∈ (sortChildrenRecursive n).children :=
      hperm.mem_iff.mpr (List.mem_map_of_mem hd)
    obtain ⟨i, hi⟩ := List.getElem?_of_mem hmem
    exact Node.child?_of_getElem hw.distinct hi (by simpa using hl)

end Nyet
