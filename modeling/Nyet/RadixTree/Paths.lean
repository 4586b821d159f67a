import Nyet.RadixTree.Order

/-!
# The tree as a map from label paths to entries

`Node.get` reads a tree as a partial map from label sequences (most general
label first) to entries. A successful `insert_path` is exactly one update of
that map (`insertPath_get`), sorting is none (`sortChildrenRecursive_get`), and
every outcome of `insert_path`, allocation failures included, keeps the
representation invariant (`insertPath_wf`).
-/

namespace Nyet

/-- The entry at the end of a label path. -/
def Node.get : Node → List Label → Option Entry
  | n, [] => n.entry
  | n, l :: ls =>
    match n.child? l with
    | none => none
    | some c => c.get ls

@[simp] theorem Node.get_nil (n : Node) : n.get [] = n.entry := rfl

theorem Node.get_cons_some {n c : Node} {l : Label} (h : n.child? l = some c)
    (ls : List Label) : n.get (l :: ls) = c.get ls := by
  rw [Node.get, h]

theorem Node.get_cons_none {n : Node} {l : Label} (h : n.child? l = none)
    (ls : List Label) : n.get (l :: ls) = none := by
  rw [Node.get, h]

theorem nodeCreate_get (label : Label) (ls : List Label) : (nodeCreate label).get ls = none := by
  cases ls with
  | nil => rfl
  | cons l ls => exact Node.get_cons_none (by simp [Node.child?, nodeCreate]) ls

theorem sortChildrenRecursive_get :
    ∀ (ls : List Label) {n : Node}, n.WF → (sortChildrenRecursive n).get ls = n.get ls
  | [], n, _ => sortChildrenRecursive_entry n
  | l :: ls, n, hn => by
    have hchild := sortChildrenRecursive_child? hn l
    cases hc : n.child? l with
    | none =>
      rw [hc, Option.map_none] at hchild
      rw [Node.get_cons_none hchild, Node.get_cons_none hc]
    | some c =>
      rw [hc, Option.map_some] at hchild
      rw [Node.get_cons_some hchild, Node.get_cons_some hc]
      exact sortChildrenRecursive_get ls (hn.child (Node.child?_some hc).1)

/-! ## What one round of `insert_path` can do -/

/-- A successful append: same label and entry, the child last and room for it, flag
dropped. -/
theorem appendChild_some {p c g : Node} {a a' : Alloc} (h : appendChild p c a = (some g, a')) :
    g.label = p.label ∧ g.entry = p.entry ∧ g.childrenSorted = false ∧
      (p.children.length ≤ p.childrenCapacity → p.children.length < g.childrenCapacity) ∧
      g.children = p.children ++ [c] := by
  rw [appendChild] at h
  split at h
  · next hfull =>
    dsimp only at h
    split at h
    · cases h
      refine ⟨rfl, rfl, rfl, fun _ => ?_, rfl⟩
      show p.children.length < if p.childrenCapacity = 0 then 4 else p.childrenCapacity * 2
      split <;> omega
    · cases h
  · next hspace =>
    cases h
    exact ⟨rfl, rfl, rfl, fun hle => Nat.lt_of_le_of_ne hle hspace, rfl⟩

/-- **The outcomes of one round of `insert_path`**: descend into the child that
is there; or fail before anything was appended; or append a fresh child, build
the rest of the chain below it, and unlink it again if that failed. -/
theorem insertPath_cons {e : Entry} {n n' : Node} {l : Label} {ls : List Label}
    {a a' : Alloc} {ok : Bool} (h : insertPath e n (l :: ls) a = ((n', ok), a')) :
    (∃ i c c', findChild n l = some i ∧ n.children[i]? = some c ∧
      insertPath e c ls a = ((c', ok), a') ∧
      n' = { n with children := n.children.set i c' }) ∨
    (findChild n l = none ∧ ok = false ∧ n' = n) ∨
    (∃ c' a₁, findChild n l = none ∧ insertPath e (nodeCreate l) ls a₁ = ((c', ok), a') ∧
      n'.label = n.label ∧ n'.entry = n.entry ∧ n'.childrenSorted = false ∧
      (n.children.length ≤ n.childrenCapacity → n.children.length < n'.childrenCapacity) ∧
      n'.children = if ok then n.children ++ [c'] else n.children) := by
  rw [insertPath] at h
  split at h
  · next i hi =>
    obtain ⟨c, hc, -⟩ := findChild_sound hi
    -- the child is there: only it changes
    left
    rcases hrec : insertPath e c ls a with ⟨⟨c', ok'⟩, a₁⟩
    simp only [hc, hrec] at h
    cases h
    exact ⟨i, c, c', hi, hc, hrec, rfl⟩
  · next hi =>
    right
    -- `node_create` or growing the array may fail before anything is appended
    split at h
    · cases h
      exact Or.inl ⟨hi, rfl, rfl⟩
    · split at h
      · cases h
        exact Or.inl ⟨hi, rfl, rfl⟩
      · split at h
        · cases h
          exact Or.inl ⟨hi, rfl, rfl⟩
        · next g a₁ happ =>
          obtain ⟨hlabel, hentry, hsorted, hroom, hchildren⟩ := appendChild_some happ
          right
          split at h
          next c' ok' a₂ hrec =>
          split at h
          · next hok =>
            subst hok
            cases h
            refine ⟨c', a₁, hi, hrec, hlabel, hentry, hsorted, hroom, ?_⟩
            simp [Node.setLast, hchildren]
          -- a failure further down takes the new child off again
          · next hok =>
            rw [Bool.not_eq_true] at hok
            subst hok
            cases h
            refine ⟨c', a₁, hi, hrec, hlabel, hentry, hsorted, hroom, ?_⟩
            simp [Node.popChild, hchildren]

theorem setEntry_spec {e : Entry} {n n' : Node} {a a' : Alloc} {ok : Bool}
    (h : setEntry e n a = ((n', ok), a')) :
    n' = { n with entry := n'.entry } ∧ (ok = true → n'.entry = some e) := by
  rw [setEntry] at h
  split at h
  next noteOk a₁ _ =>
  split at h
  · split at h
    · cases h
      exact ⟨rfl, fun _ => rfl⟩
    · cases h
      exact ⟨rfl, fun hok => by cases hok⟩
  · cases h
    exact ⟨by cases n; rfl, fun hok => by cases hok⟩

/-! ## The invariant -/

theorem insertPath_label {e : Entry} {n n' : Node} {ls : List Label} {a a' : Alloc} {ok : Bool}
    (h : insertPath e n ls a = ((n', ok), a')) : n'.label = n.label := by
  cases ls with
  | nil => rw [(setEntry_spec h).1]
  | cons l ls =>
    rcases insertPath_cons h with ⟨_, _, _, _, _, _, rfl⟩ | ⟨_, _, rfl⟩ | ⟨_, _, _, _, hlabel, _⟩
    · rfl
    · rfl
    · exact hlabel

/-- Replacing a child by one with the same label changes no label. -/
theorem map_label_set {cs : List Node} {i : Nat} {c c' : Node} (hi : cs[i]? = some c)
    (hl : c'.label = c.label) : (cs.set i c').map Node.label = cs.map Node.label := by
  obtain ⟨hlen, rfl⟩ := List.getElem?_eq_some_iff.mp hi
  have hlen' : i < (cs.map Node.label).length := by simpa using hlen
  have hself := List.set_getElem_self hlen'
  rw [List.getElem_map] at hself
  rw [List.map_set, hl, hself]

theorem Node.WF.set {n c c' : Node} {i : Nat} (hn : n.WF) (hi : n.children[i]? = some c)
    (hl : c'.label = c.label) (hc' : c'.WF) :
    Node.WF { n with children := n.children.set i c' } := by
  have hlabels := map_label_set hi hl
  refine .intro ?_ (fun hs => ?_) (fun d hd => ?_)
  · rw [hlabels]
    exact hn.distinct
  · have hsorted := hn.sorted hs
    rw [← List.pairwise_map (f := Node.label)
      (R := fun a b => labelCompare a b < 0)] at hsorted ⊢
    rw [hlabels]
    exact hsorted
  · rcases List.mem_or_eq_of_mem_set hd with hd | rfl
    · exact hn.child hd
    · exact hc'

theorem Node.WF.concat {n n' c : Node} (hn : n.WF) (hchildren : n'.children = n.children ++ [c])
    (hsorted : n'.childrenSorted = false) (hnew : n.child? c.label = none) (hc : c.WF) :
    n'.WF := by
  refine .intro ?_ (fun hs => by rw [hsorted] at hs; cases hs) (fun d hd => ?_)
  · rw [hchildren, List.map_append, List.map_singleton, List.nodup_append]
    refine ⟨hn.distinct, List.nodup_singleton _, fun l hl l' hl' heq => ?_⟩
    obtain ⟨d, hd, rfl⟩ := List.mem_map.mp hl
    rw [List.mem_singleton.mp hl'] at heq
    exact Node.child?_none.mp hnew d hd heq
  · rw [hchildren] at hd
    rcases List.mem_append.mp hd with hd | hd
    · exact hn.child hd
    · rw [List.mem_singleton.mp hd]
      exact hc

/-- **`insert_path` keeps the invariant**, whatever the allocator does. -/
theorem insertPath_wf {e : Entry} :
    ∀ {ls : List Label} {n n' : Node} {a a' : Alloc} {ok : Bool}, n.WF →
      insertPath e n ls a = ((n', ok), a') → n'.WF
  | [], n, n', _, _, _, hn, h => by
    rw [(setEntry_spec h).1]
    exact .intro hn.distinct hn.sorted fun c hc => hn.child hc
  | l :: ls, n, n', a, a', ok, hn, h => by
    rcases insertPath_cons h with ⟨i, c, c', _, hc, hrec, rfl⟩ | ⟨_, _, rfl⟩ |
      ⟨c', a₁, hi, hrec, _, _, hsorted, _, hchildren⟩
    · exact hn.set hc (insertPath_label hrec)
        (insertPath_wf (hn.child (List.mem_of_getElem? hc)) hrec)
    · exact hn
    · cases ok with
      | true =>
        have hl : c'.label = l := insertPath_label hrec
        exact hn.concat hchildren hsorted (hl ▸ findChild_none hn hi)
          (insertPath_wf (nodeCreate_wf l) hrec)
      | false =>
        simp only [Bool.false_eq_true, if_false] at hchildren
        refine .intro ?_ (fun hs => by rw [hsorted] at hs; cases hs) (fun d hd => ?_)
        · rw [hchildren]
          exact hn.distinct
        · rw [hchildren] at hd
          exact hn.child hd

/-! ## The map update -/

theorem child?_set {n c c' : Node} {i : Nat} {l : Label} (hn : n.WF)
    (hi : n.children[i]? = some c) (hl : c.label = l) (hl' : c'.label = c.label) (k : Label) :
    Node.child? { n with children := n.children.set i c' } k =
      if k = l then some c' else n.child? k := by
  have hlabels := map_label_set hi hl'
  have hilen := (List.getElem?_eq_some_iff.mp hi).1
  by_cases hk : k = l
  · subst hk
    rw [if_pos rfl]
    refine Node.child?_of_getElem (i := i) ?_ ?_ (hl'.trans hl)
    · rw [hlabels]
      exact hn.distinct
    · show (n.children.set i c')[i]? = some c'
      rw [List.getElem?_set_self hilen]
  · rw [if_neg hk]
    cases hc : n.child? k with
    | none =>
      rw [Node.child?_none]
      intro d hd
      rcases List.mem_or_eq_of_mem_set hd with hd | rfl
      · exact Node.child?_none.mp hc d hd
      · rw [hl', hl]
        exact Ne.symm hk
    | some d =>
      obtain ⟨hd, hdl⟩ := Node.child?_some hc
      -- another label stands at another index
      obtain ⟨j, hj⟩ := List.getElem?_of_mem hd
      have hji : i ≠ j := by
        rintro rfl
        rw [hi] at hj
        cases hj
        exact hk (hdl.symm.trans hl)
      refine Node.child?_of_getElem (i := j) ?_ ?_ hdl
      · rw [hlabels]
        exact hn.distinct
      · show (n.children.set i c')[j]? = some d
        rw [List.getElem?_set_ne hji, hj]

theorem child?_concat {n n' c : Node} (hchildren : n'.children = n.children ++ [c])
    (hnew : n.child? c.label = none) (k : Label) :
    n'.child? k = if k = c.label then some c else n.child? k := by
  unfold Node.child? at *
  rw [hchildren, List.find?_append]
  by_cases hk : k = c.label
  · subst hk
    rw [hnew, if_pos rfl]
    simp
  · rw [if_neg hk]
    have : [c].find? (fun d => d.label = k) = none := by simp [Ne.symm hk]
    rw [this, Option.or_none]

/-- The children seen through `child?` when `insert_path` has descended into one. -/
theorem insertPath_child?_held {e : Entry} {n c c' : Node} {l : Label} {ls : List Label} {i : Nat}
    {a a' : Alloc} {ok : Bool} (hn : n.WF) (hi : findChild n l = some i)
    (hc : n.children[i]? = some c) (hrec : insertPath e c ls a = ((c', ok), a')) :
    n.child? l = some c ∧
      ∀ k, Node.child? { n with children := n.children.set i c' } k =
        if k = l then some c' else n.child? k := by
  have hl : c.label = l := by
    obtain ⟨d, hd, hdl⟩ := findChild_sound hi
    rw [hc] at hd
    cases hd
    exact hdl
  exact ⟨Node.child?_of_getElem hn.distinct hc hl, child?_set hn hc hl (insertPath_label hrec)⟩

/-- **`insert_path` touches one path only**, whatever the allocator does. -/
theorem insertPath_get_of_ne {e : Entry} :
    ∀ {ls : List Label} {n n' : Node} {a a' : Alloc} {ok : Bool}, n.WF →
      insertPath e n ls a = ((n', ok), a') → ∀ {ks}, ks ≠ ls → n'.get ks = n.get ks
  | [], n, n', _, _, _, hn, h, ks, hne => by
    obtain ⟨heq, -⟩ := setEntry_spec h
    cases ks with
    | nil => exact absurd rfl hne
    | cons k ks =>
      rw [heq]
      rfl
  | l :: ls, n, n', a, a', ok, hn, h, ks, hne => by
    rcases insertPath_cons h with ⟨i, c, c', hi, hc, hrec, rfl⟩ | ⟨_, _, rfl⟩ |
      ⟨c', a₁, hi, hrec, _, hentry, _, _, hchildren⟩
    · -- the child is there: only what is below it can change
      obtain ⟨hold, hchild⟩ := insertPath_child?_held hn hi hc hrec
      cases ks with
      | nil => rfl
      | cons k ks =>
        by_cases hk : k = l
        · subst hk
          rw [Node.get_cons_some ((hchild k).trans (if_pos rfl)), Node.get_cons_some hold]
          exact insertPath_get_of_ne (hn.child (List.mem_of_getElem? hc)) hrec
            fun hks => hne (congrArg _ hks)
        · rw [Node.get, Node.get, (hchild k).trans (if_neg hk)]
    · rfl
    · cases ks with
      | nil => exact hentry
      | cons k ks =>
        cases ok with
        | true =>
          -- a fresh child: everything below it is new
          have hl : c'.label = l := insertPath_label hrec
          have hnew : n.child? c'.label = none := hl ▸ findChild_none hn hi
          have hgrown : n'.children = n.children ++ [c'] := by simpa using hchildren
          have hchild := child?_concat hgrown hnew
          by_cases hk : k = l
          · subst hk
            have hbelow : c'.get ks = (nodeCreate k).get ks :=
              insertPath_get_of_ne (nodeCreate_wf k) hrec fun hks => hne (congrArg _ hks)
            rw [Node.get_cons_some ((hchild k).trans (if_pos hl.symm)), hbelow, nodeCreate_get,
              Node.get_cons_none (hl ▸ hnew)]
          · rw [Node.get, Node.get, (hchild k).trans (if_neg fun heq => hk (heq.trans hl))]
        | false =>
          -- the fresh child was unlinked again
          have hsame : n'.children = n.children := by simpa using hchildren
          have hchild : n'.child? k = n.child? k := by
            unfold Node.child?
            rw [hsame]
          rw [Node.get, Node.get, hchild]

theorem insertPath_get_self {e : Entry} :
    ∀ {ls : List Label} {n n' : Node} {a a' : Alloc}, n.WF →
      insertPath e n ls a = ((n', true), a') → n'.get ls = some e
  | [], _, _, _, _, _, h => (setEntry_spec h).2 rfl
  | l :: ls, n, n', a, a', hn, h => by
    rcases insertPath_cons h with ⟨i, c, c', hi, hc, hrec, rfl⟩ | ⟨_, hok, _⟩ |
      ⟨c', a₁, hi, hrec, _, _, _, _, hchildren⟩
    · obtain ⟨-, hchild⟩ := insertPath_child?_held hn hi hc hrec
      rw [Node.get_cons_some ((hchild l).trans (if_pos rfl))]
      exact insertPath_get_self (hn.child (List.mem_of_getElem? hc)) hrec
    · cases hok
    · have hl : c'.label = l := insertPath_label hrec
      have hnew : n.child? c'.label = none := hl ▸ findChild_none hn hi
      have hgrown : n'.children = n.children ++ [c'] := by simpa using hchildren
      rw [Node.get_cons_some ((child?_concat hgrown hnew l).trans (if_pos hl.symm))]
      exact insertPath_get_self (nodeCreate_wf l) hrec

/-- **A successful `insert_path` is one update of the path map.** -/
theorem insertPath_get {e : Entry} {ls : List Label} {n n' : Node} {a a' : Alloc} (hn : n.WF)
    (h : insertPath e n ls a = ((n', true), a')) (ks : List Label) :
    n'.get ks = if ks = ls then some e else n.get ks := by
  by_cases hks : ks = ls
  · rw [if_pos hks, hks]
    exact insertPath_get_self hn h
  · rw [if_neg hks]
    exact insertPath_get_of_ne hn h hks

/-! ## Inserting where there is an entry -/

/-- What `insert_path` leaves of the entry it finds at the end of its path. -/
def replaceEntry (e : Entry) (old : Option Entry) (a : Alloc) : Option Entry :=
  let (noteOk, a) := if e.note.isSome then a.next else (true, a)
  if noteOk then (if a.next.1 then some e else none) else old

theorem setEntry_entry (e : Entry) (n : Node) (a : Alloc) :
    (setEntry e n a).1.1.entry = replaceEntry e n.entry a := by
  rw [replaceEntry, setEntry]
  generalize (if e.note.isSome = true then a.next else (true, a)) = copied
  obtain ⟨noteOk, a⟩ := copied
  cases noteOk with
  | false => rfl
  | true =>
    cases hentry : a.next with
    | mk entryOk a' => cases entryOk <;> simp [hentry]

/-- With a note to copy, the old entry outlives the call exactly where that copy
fails. -/
theorem replaceEntry_note {e : Entry} (he : e.note.isSome = true) (old : Option Entry) (a : Alloc) :
    (a.next.1 = false ∧ replaceEntry e old a = old) ∨
    (a.next.1 = true ∧ (replaceEntry e old a = some e ∨ replaceEntry e old a = none)) := by
  rw [replaceEntry]
  rw [if_pos he]
  cases hnote : a.next with
  | mk noteOk a =>
    cases noteOk with
    | false => exact Or.inl ⟨rfl, rfl⟩
    | true =>
      refine Or.inr ⟨rfl, ?_⟩
      dsimp only
      cases a.next.1 with
      | true => exact Or.inl rfl
      | false => exact Or.inr rfl

/-- Without a note the old entry is freed in any case. -/
theorem replaceEntry_plain {e : Entry} (he : e.note = none) (old : Option Entry) (a : Alloc) :
    replaceEntry e old a = if a.next.1 then some e else none := by
  rw [replaceEntry]
  rw [he]
  rfl

/-- Where there is an entry the path is complete: no node has to be made. -/
theorem insertPath_get_held {e old : Entry} :
    ∀ {ls : List Label} {n n' : Node} {a a' : Alloc} {ok : Bool}, n.WF →
      insertPath e n ls a = ((n', ok), a') → n.get ls = some old →
      n'.get ls = replaceEntry e (some old) a
  | [], n, n', a, _, _, _, h, hold => by
    have hentry := setEntry_entry e n a
    rw [show setEntry e n a = _ from h] at hentry
    rw [Node.get_nil] at hold ⊢
    rw [← hold]
    exact hentry
  | l :: ls, n, n', a, a', ok, hn, h, hold => by
    rcases insertPath_cons h with ⟨i, c, c', hi, hc, hrec, rfl⟩ | ⟨hi, _, _⟩ |
      ⟨c', a₁, hi, _, _, _, _, _, _⟩
    · obtain ⟨hchild, hchild'⟩ := insertPath_child?_held hn hi hc hrec
      rw [Node.get_cons_some hchild] at hold
      rw [Node.get_cons_some ((hchild' l).trans (if_pos rfl))]
      exact insertPath_get_held (hn.child (List.mem_of_getElem? hc)) hrec hold
    · rw [Node.get_cons_none (findChild_none hn hi)] at hold
      cases hold
    · rw [Node.get_cons_none (findChild_none hn hi)] at hold
      cases hold

/-- Whatever fails, the entry is kept or dropped; it is replaced if nothing does. -/
theorem setEntry_cases {e : Entry} {n n' : Node} {a a' : Alloc} {ok : Bool}
    (h : setEntry e n a = ((n', ok), a')) :
    n'.entry = n.entry ∨ n'.entry = none ∨ (ok = true ∧ n'.entry = some e) := by
  rw [setEntry] at h
  split at h
  next noteOk a₁ _ =>
  split at h
  · split at h
    · cases h
      exact Or.inr (Or.inr ⟨rfl, rfl⟩)
    · cases h
      exact Or.inr (Or.inl rfl)
  · cases h
    exact Or.inl rfl

theorem insertPath_get_cases {e : Entry} :
    ∀ {ls : List Label} {n n' : Node} {a a' : Alloc} {ok : Bool}, n.WF →
      insertPath e n ls a = ((n', ok), a') →
      n'.get ls = n.get ls ∨ n'.get ls = none ∨ (ok = true ∧ n'.get ls = some e)
  | [], _, _, _, _, _, _, h => setEntry_cases h
  | l :: ls, n, n', a, a', ok, hn, h => by
    rcases insertPath_cons h with ⟨i, c, c', hi, hc, hrec, rfl⟩ | ⟨_, _, rfl⟩ |
      ⟨c', a₁, hi, hrec, _, _, _, _, hchildren⟩
    · obtain ⟨hchild, hchild'⟩ := insertPath_child?_held hn hi hc hrec
      rw [Node.get_cons_some hchild, Node.get_cons_some ((hchild' l).trans (if_pos rfl))]
      exact insertPath_get_cases (hn.child (List.mem_of_getElem? hc)) hrec
    · exact Or.inl rfl
    · -- a new branch is linked only if the insert succeeds
      cases ok with
      | true => exact Or.inr (Or.inr ⟨rfl, insertPath_get_self hn h⟩)
      | false =>
        have hsame : n'.children = n.children := hchildren
        left
        rw [Node.get_cons_none (findChild_none hn hi), Node.get_cons_none]
        rw [Node.child?]
        rw [hsame]
        exact findChild_none hn hi

/-! ## Allocations that succeed -/

@[simp] theorem Alloc.next_nil : Alloc.next [] = (true, []) := rfl

theorem setEntry_ok (e : Entry) (n : Node) :
    setEntry e n [] = (({ n with entry := some e }, true), []) := by
  rw [setEntry]
  cases e.note <;> rfl

theorem appendChild_ok (p c : Node) : ∃ g, appendChild p c [] = (some g, []) := by
  rw [appendChild]
  split
  · exact ⟨_, rfl⟩
  · exact ⟨_, rfl⟩

/-- With an allocator that never fails, `insert_path` returns 0. -/
theorem insertPath_ok (e : Entry) :
    ∀ (ls : List Label) (n : Node), ∃ n', insertPath e n ls [] = ((n', true), [])
  | [], n => ⟨_, setEntry_ok e n⟩
  | l :: ls, n => by
    rw [insertPath]
    cases hi : findChild n l with
    | some i =>
      obtain ⟨c, hc, -⟩ := findChild_sound hi
      obtain ⟨c', hc'⟩ := insertPath_ok e ls c
      simp only [hc, hc']
      exact ⟨_, rfl⟩
    | none =>
      obtain ⟨g, hg⟩ := appendChild_ok n (nodeCreate l)
      obtain ⟨c', hc'⟩ := insertPath_ok e ls (nodeCreate l)
      simp only [Alloc.next_nil, hg, hc', if_true]
      exact ⟨_, rfl⟩

end Nyet
