import Nyet.RadixTree.Verdict

/-!
# The tree operations as operations on a block map

Each operation of `radix_tree.c`, read through `RadixTree.map`: an accepted
insert is one update of the map, publishing hands the builder's map over, and
`radix_lookup` returns the map's verdict and changes nothing but bookkeeping
(`hit_count` and `last_seen`).
-/

namespace Nyet

/-- The map a root stands for. -/
def rootMap (root : Option Node) : BlockMap := fun ls => root.bind (·.get ls)

/-- The published blocklist. -/
def RadixTree.map (t : RadixTree) : BlockMap := rootMap t.root

/-- The blocklist under construction. -/
def RadixTreeBuilder.map (b : RadixTreeBuilder) : BlockMap := rootMap b.root

/-- The normalised labels of a domain: what every operation tokenises it to. -/
def normalise (domain : CStr) : List Label := labelsRtl maxLabels domain

/-- The domains `radix_insert` and `radix_tree_insert_live` accept: short enough
for `label_buf` and with at least one label. -/
def Insertable (domain : CStr) : Prop :=
  domain.length < labelBufSize ∧ normalise domain ≠ []

instance (domain : CStr) : Decidable (Insertable domain) :=
  inferInstanceAs (Decidable (_ ∧ _))

/-- The root name has no labels. -/
theorem normalise_nil : normalise [] = [] := by simp [normalise, labelsRtl]

/-- The tokeniser accepts what `Insertable` says, and yields its labels from the right. -/
theorem splitDomainRtl_of_insertable {domain : CStr} (h : Insertable domain) :
    splitDomainRtl domain labelBufSize maxLabels = some (normalise domain) := by
  rw [splitDomainRtl_eq, if_neg]
  · rfl
  · rintro (rfl | hlong)
    · exact h.2 normalise_nil
    · exact absurd h.1 (by omega)

/-- A domain that is not insertable is refused by the tokeniser or yields no
label. -/
theorem splitDomainRtl_of_not_insertable {domain : CStr} (h : ¬ Insertable domain) :
    splitDomainRtl domain labelBufSize maxLabels = none ∨
      splitDomainRtl domain labelBufSize maxLabels = some [] := by
  rw [splitDomainRtl_eq]
  split
  · exact Or.inl rfl
  · next hc =>
    right
    have hlen : domain.length < labelBufSize := by
      by_contra hlong
      exact hc (Or.inr (by omega))
    have hnil : normalise domain = [] := by
      by_contra hne
      exact h ⟨hlen, hne⟩
    exact congrArg some hnil

/-! ## Inserts -/

/-- With memory to spare an insert at the root succeeds, and is an update of the map. -/
theorem insertRoot_ok (root : Node) (hroot : root.WF) (labels : List Label) (e : Entry) :
    (insertRoot [] root hroot labels e).1 = 0 ∧
    (insertRoot [] root hroot labels e).2.1.isSome = true ∧
    rootMap (insertRoot [] root hroot labels e).2.1 =
      Function.update (rootMap (some root)) labels (some e) := by
  obtain ⟨root', hok⟩ := insertPath_ok e labels root
  have hget := insertPath_get hroot hok
  rw [insertRoot]
  split
  next root'' ok a h =>
  rw [hok] at h
  cases h
  refine ⟨rfl, rfl, funext fun ks => ?_⟩
  rw [Function.update_apply]
  exact hget ks

/-- `radix_insert` with memory to spare: refused without a root or without
labels, otherwise one update of the builder's map. -/
theorem radixInsert_spec (b : RadixTreeBuilder) (domain : CStr) (e : Entry) :
    (b.root.isSome = true ∧ Insertable domain →
      (radixInsert [] b domain e).1 = 0 ∧
      (radixInsert [] b domain e).2.root.isSome = true ∧
      (radixInsert [] b domain e).2.map =
        Function.update b.map (normalise domain) (some e)) ∧
    (¬ (b.root.isSome = true ∧ Insertable domain) → radixInsert [] b domain e = (-2, b)) := by
  rw [radixInsert]
  constructor
  · rintro ⟨hsome, hins⟩
    split
    · next hr =>
      rw [hr] at hsome
      cases hsome
    · next root hr =>
      obtain ⟨hrc, hroot, hmap⟩ := insertRoot_ok root (b.wf root hr) (normalise domain) e
      rw [splitDomainRtl_of_insertable hins]
      dsimp only
      rw [if_neg (by simpa using hins.2)]
      refine ⟨hrc, hroot, ?_⟩
      rw [RadixTreeBuilder.map, RadixTreeBuilder.map, hmap, hr]
  · -- both refusals come before the root is touched
    intro hno
    split
    · rfl
    · next root hr =>
      have hins : ¬ Insertable domain := fun h => hno ⟨by rw [hr]; rfl, h⟩
      rcases splitDomainRtl_of_not_insertable hins with hs | hs <;> rw [hs]
      rfl

/-- `radix_tree_insert_live` with memory to spare. -/
theorem radixTreeInsertLive_spec (t : RadixTree) (domain : CStr) (e : Entry) :
    (t.root.isSome = true ∧ Insertable domain →
      (radixTreeInsertLive [] t domain e).1 = 0 ∧
      (radixTreeInsertLive [] t domain e).2.root.isSome = true ∧
      (radixTreeInsertLive [] t domain e).2.map =
        Function.update t.map (normalise domain) (some e)) ∧
    (¬ (t.root.isSome = true ∧ Insertable domain) →
      (radixTreeInsertLive [] t domain e).1 ≠ 0 ∧ (radixTreeInsertLive [] t domain e).2 = t) := by
  rw [radixTreeInsertLive]
  constructor
  · rintro ⟨hsome, hins⟩
    rw [splitDomainRtl_of_insertable hins]
    dsimp only
    rw [if_neg (by simpa using hins.2)]
    split
    · next hr =>
      rw [hr] at hsome
      cases hsome
    · next root hr =>
      obtain ⟨hrc, hroot, hmap⟩ := insertRoot_ok root (t.wf root hr) (normalise domain) e
      refine ⟨hrc, hroot, ?_⟩
      rw [RadixTree.map, RadixTree.map, hmap, hr]
  · -- refused by the tokeniser, or there is no root to insert under
    intro hno
    by_cases hins : Insertable domain
    · rw [splitDomainRtl_of_insertable hins]
      dsimp only
      rw [if_neg (by simpa using hins.2)]
      split
      · exact ⟨show (-3 : Int) ≠ 0 by decide, rfl⟩
      · next root hr => exact absurd ⟨by rw [hr]; rfl, hins⟩ hno
    · rcases splitDomainRtl_of_not_insertable hins with hs | hs <;> rw [hs]
      · exact ⟨show (-2 : Int) ≠ 0 by decide, rfl⟩
      · exact ⟨show (-2 : Int) ≠ 0 by decide, rfl⟩

/-- A live insert, by cases: refused, or `insert_path` from the root. -/
theorem radixTreeInsertLive_cases (a : Alloc) (t : RadixTree) (domain : CStr) (e : Entry) :
    ((t.root = none ∨ ¬ Insertable domain) ∧ (radixTreeInsertLive a t domain e).1 < -1 ∧
      (radixTreeInsertLive a t domain e).2 = t) ∨
    ∃ root root' ok a', Insertable domain ∧ t.root = some root ∧
      insertPath e root (normalise domain) a = ((root', ok), a') ∧
      (radixTreeInsertLive a t domain e).1 = (if ok then 0 else -1) ∧
      (radixTreeInsertLive a t domain e).2.root = some root' := by
  rw [radixTreeInsertLive]
  by_cases hins : Insertable domain
  · rw [splitDomainRtl_of_insertable hins]
    dsimp only
    rw [if_neg (by simpa using hins.2)]
    split
    · next hr => exact Or.inl ⟨Or.inl hr, show (-3 : Int) < -1 by decide, rfl⟩
    · next root hr =>
      right
      rw [insertRoot]
      split
      next root' ok a' h => exact ⟨root, root', ok, a', hins, hr, h, rfl, rfl⟩
  · left
    rcases splitDomainRtl_of_not_insertable hins with hs | hs <;> rw [hs]
    · exact ⟨Or.inr hins, show (-2 : Int) < -1 by decide, rfl⟩
    · exact ⟨Or.inr hins, show (-2 : Int) < -1 by decide, rfl⟩

/-- The map of a tree is what its root's paths lead to. -/
theorem RadixTree.map_of_root {t : RadixTree} {root : Node} (h : t.root = some root) :
    t.map = root.get := by
  unfold RadixTree.map rootMap
  rw [h]
  rfl

/-- **A live insert touches the path of its domain only**, whatever the allocator
does. -/
theorem radixTreeInsertLive_other (a : Alloc) (t : RadixTree) {domain : CStr} (e : Entry)
    {ks : List Label} (hne : Insertable domain → ks ≠ normalise domain) :
    (radixTreeInsertLive a t domain e).2.map ks = t.map ks := by
  rcases radixTreeInsertLive_cases a t domain e with
    ⟨-, -, ht⟩ | ⟨root, root', ok, a', hins, hr, h, -, hr'⟩
  · rw [ht]
  · rw [RadixTree.map_of_root hr, RadixTree.map_of_root hr']
    exact insertPath_get_of_ne (t.wf root hr) h (hne hins)

/-- Return value 0: the entry is there. -/
theorem radixTreeInsertLive_done {a : Alloc} {t : RadixTree} {domain : CStr} {e : Entry}
    (h : (radixTreeInsertLive a t domain e).1 = 0) :
    Insertable domain ∧ (radixTreeInsertLive a t domain e).2.map (normalise domain) = some e := by
  rcases radixTreeInsertLive_cases a t domain e with
    ⟨-, hrc, -⟩ | ⟨root, root', ok, a', hins, hr, hpath, hrc, hr'⟩
  · omega
  · cases ok with
    | false =>
      rw [hrc] at h
      cases h
    | true =>
      rw [RadixTree.map_of_root hr']
      exact ⟨hins, insertPath_get_self (t.wf root hr) hpath⟩

/-- What becomes of an entry that a live insert meets. -/
theorem radixTreeInsertLive_held (a : Alloc) {t : RadixTree} {domain : CStr} (e : Entry)
    {old : Entry} (hins : Insertable domain) (hold : t.map (normalise domain) = some old) :
    (radixTreeInsertLive a t domain e).2.map (normalise domain) = replaceEntry e (some old) a := by
  rcases radixTreeInsertLive_cases a t domain e with
    ⟨hno | hno, -, -⟩ | ⟨root, root', ok, a', -, hr, hpath, -, hr'⟩
  · rw [RadixTree.map, rootMap] at hold
    rw [hno] at hold
    cases hold
  · exact absurd hins hno
  · rw [RadixTree.map_of_root hr] at hold
    rw [RadixTree.map_of_root hr']
    exact insertPath_get_held (t.wf root hr) hpath hold

/-! ## Publishing -/

/-- What a live insert leaves at its own path, whatever fails. -/
theorem radixTreeInsertLive_self (a : Alloc) (t : RadixTree) (domain : CStr) (e : Entry) :
    (radixTreeInsertLive a t domain e).2.map (normalise domain) = t.map (normalise domain) ∨
      (radixTreeInsertLive a t domain e).2.map (normalise domain) = none ∨
      ((radixTreeInsertLive a t domain e).1 = 0 ∧
        (radixTreeInsertLive a t domain e).2.map (normalise domain) = some e) := by
  rcases radixTreeInsertLive_cases a t domain e with
    ⟨-, -, ht⟩ | ⟨root, root', ok, a', -, hr, hpath, hrc, hr'⟩
  · rw [ht]
    exact Or.inl rfl
  · rw [RadixTree.map_of_root hr, RadixTree.map_of_root hr', hrc]
    refine (insertPath_get_cases (t.wf root hr) hpath).imp_right (Or.imp_right ?_)
    rintro ⟨rfl, hnew⟩
    exact ⟨rfl, hnew⟩

/-- Sorting the children changes where they stand, not what is found. -/
theorem sortedRoot_map (b : RadixTreeBuilder) : rootMap (sortedRoot b).1 = b.map := by
  funext ks
  obtain ⟨root, hwf⟩ := b
  cases root with
  | none => rfl
  | some root => exact sortChildrenRecursive_get ks (hwf root rfl)

/-- What is published is what was built. -/
@[simp] theorem radixPublish_map (t : RadixTree) (b : RadixTreeBuilder) :
    (radixPublish t b).1.map = b.map := sortedRoot_map b

/-- So is what is swapped in. -/
@[simp] theorem radixTreeSwap_map (t : RadixTree) (b : RadixTreeBuilder) :
    (radixTreeSwap t b).1.map = b.map := sortedRoot_map b

/-- Publishing loses no root and makes none. -/
@[simp] theorem radixPublish_isSome (t : RadixTree) (b : RadixTreeBuilder) :
    (radixPublish t b).1.root.isSome = b.root.isSome := by
  simp [radixPublish, sortedRoot]

/-- Nor does a swap. -/
@[simp] theorem radixTreeSwap_isSome (t : RadixTree) (b : RadixTreeBuilder) :
    (radixTreeSwap t b).1.root.isSome = b.root.isSome := by
  simp [radixTreeSwap, sortedRoot]

/-! ## Bookkeeping -/

/-- An entry without its bookkeeping (`hit_count`, `last_seen`). -/
def Entry.core (e : Entry) : Entry := { e with hitCount := 0, lastSeen := 0 }

/-- A bump touches bookkeeping only. -/
@[simp] theorem Entry.core_bump (e : Entry) (now : UInt32) : (e.bump now).core = e.core := rfl

/-- The status is part of the core. -/
@[simp] theorem Entry.core_status (e : Entry) : e.core.status = e.status := rfl

/-- A map without bookkeeping. -/
def BlockMap.core (M : BlockMap) : BlockMap := fun ks => (M ks).map Entry.core

/-- Which entry is the longest of its status does not depend on bookkeeping. -/
theorem BlockMap.longest_core (M : BlockMap) (st : Status) (ls : List Label) :
    (M.longest st ls).map Entry.core = M.core.longest st ls := by
  unfold BlockMap.longest
  have hcore : M.core = fun ks => (M ks).map Entry.core := rfl
  rw [hcore, ← List.map_filterMap, List.find?_map]
  rfl

/-- A verdict looks at nothing but cores. -/
theorem BlockMap.verdict_core (M : BlockMap) (ls : List Label) :
    (M.verdict ls).map Entry.core = M.core.verdict ls := by
  unfold BlockMap.verdict
  rw [Option.map_or, Option.map_or, longest_core, longest_core, longest_core]

/-- Maps that differ in bookkeeping only have the same outcomes. -/
theorem BlockMap.outcome_of_core {M N : BlockMap} (h : M.core = N.core) (ls : List Label) :
    M.outcome ls = N.outcome ls := by
  have hstatus : ∀ K : BlockMap, K.outcome ls = (K.core.verdict ls).map (·.status) := by
    intro K
    rw [← BlockMap.verdict_core, Option.map_map]
    rfl
  rw [hstatus, hstatus, h]

/-- Bumping an entry leaves the map alone but for bookkeeping. -/
theorem bumpAt_get (now : UInt32) :
    ∀ {ls : List Label} {n : Node}, n.WF → ∀ ks,
      ((bumpAt now n ls).get ks).map Entry.core = (n.get ks).map Entry.core
  | [], n, hn, ks => by
    cases ks with
    | nil =>
      show (n.entry.map (·.bump now)).map Entry.core = n.entry.map Entry.core
      rw [Option.map_map]
      rfl
    | cons k ks => rfl
  | l :: ls, n, hn, ks => by
    rw [bumpAt]
    split
    · rfl
    · next i hi =>
      obtain ⟨c, hc, hl⟩ := findChild_sound hi
      simp only [hc]
      cases ks with
      | nil => rfl
      | cons k ks =>
        have hchild := child?_set hn hc hl (bumpAt_label now c ls) k
        -- only the child on the path is changed
        by_cases hk : k = l
        · subst hk
          rw [Node.get_cons_some (hchild.trans (if_pos rfl)),
            Node.get_cons_some (Node.child?_of_getElem hn.distinct hc hl)]
          exact bumpAt_get now (hn.child (List.mem_of_getElem? hc)) ks
        · rw [Node.get, Node.get, hchild.trans (if_neg hk)]

/-! ## Lookup -/

/-- The three flags of a walk, recovered from the best entry it has kept. -/
def Walk.Consistent (w : Walk) : Prop :=
  match w.best with
  | none => w.allowFound = false ∧ w.blockFound = false
  | some (_, e) =>
    match e.status with
    | .allowed => w.allowFound = true
    | .blocked => w.allowFound = false ∧ w.blockFound = true
    | .review => w.allowFound = false ∧ w.blockFound = false

/-- The entry a walk has kept. -/
def Walk.kept (w : Walk) : Option Entry := w.best.map Prod.snd

/-- **The `switch` is a precedence step**: keep the newcomer unless something of
a higher rank was kept before. -/
theorem Walk.visit_spec {w : Walk} (hw : w.Consistent) (depth : Nat) (e : Entry) :
    (w.visit depth e).Consistent ∧
      (w.visit depth e).kept = Lib.keepBest (fun e => e.status.rank) w.kept e := by
  obtain ⟨af, bf, rf, best⟩ := w
  rw [Walk.Consistent] at hw
  unfold Walk.visit Walk.kept Lib.keepBest
  -- what has been kept so far, and the status of the newcomer: three flags stand for the best rank
  cases best with
  | none =>
    obtain ⟨rfl, rfl⟩ := hw
    cases he : e.status <;> simp [Walk.Consistent, he]
  | some p =>
    obtain ⟨d, b⟩ := p
    cases hb : b.status <;> simp only [hb] at hw <;>
      cases he : e.status <;> simp [Walk.Consistent, he, hb, hw, Status.rank]

/-- The entries on a path are the child's own and then those below it, in the order in which the
walk meets them. -/
theorem entriesOn_cons_some {n c : Node} {l : Label} (h : n.child? l = some c)
    (ls : List Label) :
    BlockMap.entriesOn n.get (l :: ls) = c.entry.toList ++ BlockMap.entriesOn c.get ls := by
  rw [BlockMap.entriesOn]
  rw [suffixPaths_cons, List.filterMap_cons, List.filterMap_map, Node.get_cons_some h,
    Node.get_nil]
  have hcomp : n.get ∘ List.cons l = c.get := funext fun ks => Node.get_cons_some h ks
  rw [hcomp]
  cases c.entry <;> rfl

/-- Where there is no child the walk ends, and no longer path has an entry either. -/
theorem entriesOn_cons_none {n : Node} {l : Label} (h : n.child? l = none) (ls : List Label) :
    BlockMap.entriesOn n.get (l :: ls) = [] := by
  rw [BlockMap.entriesOn]
  rw [List.filterMap_eq_nil_iff]
  intro ks hks
  obtain ⟨hne, hpre⟩ := mem_suffixPaths.mp hks
  cases ks with
  | nil => exact absurd rfl hne
  | cons k ks =>
    obtain ⟨rfl, -⟩ := List.cons_prefix_cons.mp hpre
    exact Node.get_cons_none h ks

/-- The loop scans the entries on the path, in order. -/
theorem walkLabels_kept :
    ∀ (ls : List Label) {n : Node} (i : Nat) {w : Walk}, n.WF → w.Consistent →
      (walkLabels n ls i w).kept =
        (BlockMap.entriesOn n.get ls).foldl (Lib.keepBest fun e => e.status.rank) w.kept
  | [], _, _, _, _, _ => rfl
  | l :: ls, n, i, w, hn, hw => by
    rw [walkLabels]
    split
    · next h => rw [entriesOn_cons_none (findChild_none hn h), List.foldl_nil]
    · next k h =>
      obtain ⟨c, hc, hchild⟩ := findChild_some hn h
      have hcw := hn.child (List.mem_of_getElem? hc)
      simp only [hc]
      rw [entriesOn_cons_some hchild, List.foldl_append]
      cases hentry : c.entry with
      | none => exact walkLabels_kept ls (i + 1) hcw hw
      | some e =>
        obtain ⟨hcons, hkept⟩ := Walk.visit_spec hw (i + 1) e
        rw [walkLabels_kept ls (i + 1) hcw hcons, hkept]
        rfl

/-- What a lookup reports: nothing, or the fields of an entry. -/
def LookupResult.toEntry (r : LookupResult) : Option Entry :=
  if r.matched then
    some ⟨r.status, r.ttl, r.hitCount, r.lastSeen, r.source, r.mlScore, r.note⟩
  else none

/-- **`radix_lookup` returns the verdict of the published map**, but for the
bookkeeping it bumps on the way. -/
theorem radixLookup_verdict (t : RadixTree) (now : UInt32) {domain : CStr}
    (hlen : domain.length < labelBufSize) :
    (radixLookup t now domain).1.toEntry.map Entry.core =
      (t.map.verdict (normalise domain)).map Entry.core := by
  rw [radixLookup]
  rw [splitDomainRtl_eq]
  by_cases hempty : domain = []
  · rw [if_pos (Or.inl hempty), hempty, normalise_nil]
    rfl
  · rw [if_neg (by rintro (h | h) <;> [exact hempty h; omega])]
    show _ = (t.map.verdict (labelsRtl maxLabels domain)).map Entry.core
    rw [BlockMap.verdict_eq_scan]
    dsimp only
    split
    · next hr =>
      have : t.map = fun _ => none := by
        unfold RadixTree.map rootMap
        rw [hr]
        rfl
      rw [this]
      simp [BlockMap.entriesOn, LookupResult.toEntry, LookupResult.zero]
    · next root hr =>
      have hmap : t.map = root.get := by
        unfold RadixTree.map rootMap
        rw [hr]
        rfl
      -- the walk is a scan of the entries on the path, and starts with nothing kept
      have hkept := walkLabels_kept (labelsRtl maxLabels domain) 0 (t.wf root hr)
        (show Walk.start.Consistent from ⟨rfl, rfl⟩)
      rw [hmap, ← show Walk.start.kept = none from rfl, ← hkept, Walk.kept]
      split
      · next hb => rw [hb]; rfl
      · next depth e hb => rw [hb]; rfl

/-- The status a lookup reports, if it matched. -/
def LookupResult.outcome (r : LookupResult) : Option Status := r.toEntry.map (·.status)

/-- A lookup says a status if it matched and reports it. -/
theorem LookupResult.outcome_eq_some {r : LookupResult} {st : Status} :
    r.outcome = some st ↔ r.matched = true ∧ r.status = st := by
  rw [LookupResult.outcome, LookupResult.toEntry]
  cases r.matched <;> simp

/-- **What a lookup says** is the outcome of the map at the domain's labels. -/
theorem radixLookup_outcome (t : RadixTree) (now : UInt32) {domain : CStr}
    (hlen : domain.length < labelBufSize) :
    (radixLookup t now domain).1.outcome = t.map.outcome (normalise domain) := by
  have h := congrArg (Option.map Entry.status) (radixLookup_verdict t now hlen)
  rw [Option.map_map, Option.map_map] at h
  exact h

/-- A domain the tokeniser refuses matches nothing. -/
theorem radixLookup_refused (t : RadixTree) (now : UInt32) {domain : CStr}
    (hlen : labelBufSize ≤ domain.length) :
    radixLookup t now domain = (.zero, t) := by
  rw [radixLookup]
  rw [splitDomainRtl_eq, if_pos (Or.inr hlen)]

/-- A lookup changes the map in its bookkeeping only. -/
theorem radixLookup_map (t : RadixTree) (now : UInt32) (domain : CStr) :
    (radixLookup t now domain).2.map.core = t.map.core := by
  rw [radixLookup]
  split
  · rfl
  · split
    · rfl
    · next root hr =>
      split
      · rfl
      · funext ks
        have hmap : t.map ks = root.get ks := by
          rw [RadixTree.map, rootMap]
          rw [hr, Option.bind_some]
        show _ = (t.map ks).map Entry.core
        rw [hmap]
        exact bumpAt_get now (t.wf root hr) ks

/-- A lookup loses no root. -/
theorem radixLookup_isSome (t : RadixTree) (now : UInt32) (domain : CStr) :
    (radixLookup t now domain).2.root.isSome = t.root.isSome := by
  rw [radixLookup]
  split
  · rfl
  · split
    · rfl
    · next root hr =>
      split
      · rfl
      · simp [hr]

/-- What a lookup reports depends on nothing but the cores. -/
theorem radixLookup_outcome_of_core {t t' : RadixTree} (h : t.map.core = t'.map.core)
    (now now' : UInt32) (domain : CStr) :
    (radixLookup t now domain).1.outcome = (radixLookup t' now' domain).1.outcome := by
  by_cases hlen : domain.length < labelBufSize
  · rw [radixLookup_outcome t now hlen, radixLookup_outcome t' now' hlen]
    exact BlockMap.outcome_of_core h _
  · rw [radixLookup_refused t now (Nat.le_of_not_lt hlen),
      radixLookup_refused t' now' (Nat.le_of_not_lt hlen)]

/-- The root name matches nothing. -/
theorem radixLookup_root (t : RadixTree) (now : UInt32) : radixLookup t now [] = (.zero, t) := by
  rw [radixLookup]
  rw [splitDomainRtl_eq, if_pos (Or.inl rfl)]

/-! ## Between two swaps a tree only grows -/

/-- Matching looks at nothing but cores. -/
theorem BlockMap.Matches.of_core {M N : BlockMap} (h : M.core = N.core) {ls : List Label}
    (hM : M.Matches ls) : N.Matches ls := by
  obtain ⟨ks, hne, hpre, hks⟩ := hM
  refine ⟨ks, hne, hpre, ?_⟩
  have hcore : (M ks).map Entry.core = (N ks).map Entry.core := congrFun h ks
  have hsome := congrArg Option.isSome hcore
  rw [Option.isSome_map, Option.isSome_map] at hsome
  exact hsome.symm.trans hks

/-- Statuses are part of the core. -/
theorem BlockMap.Decided.of_core {M N : BlockMap} (h : M.core = N.core) {ls : List Label}
    (hM : M.Decided ls) : N.Decided ls := by
  obtain ⟨ks, e, hne, hpre, hks, hst⟩ := hM
  have hcore : (M ks).map Entry.core = (N ks).map Entry.core := congrFun h ks
  rw [hks, Option.map_some] at hcore
  obtain ⟨e', he', heq⟩ := Option.map_eq_some_iff.mp hcore.symm
  refine ⟨ks, e', hne, hpre, he', ?_⟩
  rw [← Entry.core_status, heq]
  exact hst

/-- **When a decided domain stays decided under a live insert**: if another entry
decides it, or what becomes of the entry at the path of the insert does. -/
theorem radixTreeInsertLive_decided {a : Alloc} {t : RadixTree} {domain : CStr} {e : Entry}
    {ls : List Label} (hdec : t.map.Decided ls) :
    (radixTreeInsertLive a t domain e).2.map.Decided ls ↔
      (Insertable domain → t.map.DecidedBut (normalise domain) ls ∨
        ∃ e', replaceEntry e (t.map (normalise domain)) a = some e' ∧ e'.status ≠ .review) := by
  by_cases hins : Insertable domain
  · have hother : (radixTreeInsertLive a t domain e).2.map.DecidedBut (normalise domain) ls ↔
        t.map.DecidedBut (normalise domain) ls :=
      BlockMap.decidedBut_congr fun ks hks => radixTreeInsertLive_other a t e fun _ => hks
    rw [BlockMap.decided_split _, hother, imp_iff_right hins]
    rcases (BlockMap.decided_split (k := normalise domain) _).mp hdec with
      hbut | ⟨hne, hpre, old, hold, -⟩
    · exact iff_of_true (Or.inl hbut) (Or.inl hbut)
    · rw [radixTreeInsertLive_held a e hins hold, hold]
      refine or_congr_right ?_
      constructor
      · rintro ⟨-, -, h⟩
        exact h
      · intro h
        exact ⟨hne, hpre, h⟩
  · have hsame : (radixTreeInsertLive a t domain e).2.map = t.map :=
      funext fun ks => radixTreeInsertLive_other a t e fun h => absurd h hins
    rw [hsame]
    exact iff_of_true hdec fun h => absurd h hins

/-- `t'` has a root if `t` has one, and matches whatever `t` matches. -/
structure RadixTree.Grows (t t' : RadixTree) : Prop where
  root : t.root.isSome = true → t'.root.isSome = true
  keeps : ∀ ls, t.map.Matches ls → t'.map.Matches ls

/-- A tree that is left alone has not lost anything. -/
theorem RadixTree.Grows.refl (t : RadixTree) : t.Grows t := ⟨id, fun _ => id⟩

/-- A lookup loses no match: it only bumps. -/
theorem radixLookup_grows (t : RadixTree) (now : UInt32) (domain : CStr) :
    t.Grows (radixLookup t now domain).2 :=
  ⟨fun hroot => (radixLookup_isSome t now domain).trans hroot,
    fun _ hls => hls.of_core (radixLookup_map t now domain).symm⟩

/-- A live insert with memory to spare loses none: the entry it replaces is replaced by another. -/
theorem radixTreeInsertLive_grows (t : RadixTree) (domain : CStr) (e : Entry) :
    t.Grows (radixTreeInsertLive [] t domain e).2 := by
  obtain ⟨hdone, hrefused⟩ := radixTreeInsertLive_spec t domain e
  by_cases hins : t.root.isSome = true ∧ Insertable domain
  · obtain ⟨-, hroot, hmap⟩ := hdone hins
    refine ⟨fun _ => hroot, fun ls hls => ?_⟩
    rw [hmap]
    exact hls.update _ _
  · rw [(hrefused hins).2]
    exact .refl t

/-- What was inserted matches. -/
theorem radixTreeInsertLive_matches {t : RadixTree} (hroot : t.root.isSome = true) {domain : CStr}
    (hins : Insertable domain) (e : Entry) :
    (radixTreeInsertLive [] t domain e).2.map.Matches (normalise domain) := by
  obtain ⟨-, -, hmap⟩ := (radixTreeInsertLive_spec t domain e).1 ⟨hroot, hins⟩
  rw [hmap]
  exact BlockMap.matches_update _ hins.2 e

/-- A tree with one BLOCKED domain. -/
def oneBlocked : RadixTree :=
  (radixTreeInsertLive [] ⟨some (nodeCreate []), createdRoot_wf⟩ (cstr "ads.com")
    ⟨.blocked, 0, 0, 0, 0, 0, none⟩).2

end Nyet
