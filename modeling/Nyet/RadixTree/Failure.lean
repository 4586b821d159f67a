import Nyet.RadixTree.Refinement

/-!
# Inserts that fail

A failed `insert_path` unlinks what it had appended and leaves every other path
alone, so the one thing it can lose is the entry at the end of its own path: the
old entry is freed before the new one is allocated (`EntryFails`). Whether a
lookup can tell depends on what else stands on the path. An entry whose removal
leaves the verdict on its own domain as it is leaves every verdict as it is
(`BlockMap.verdict_erase`).

Nor do the failures disturb the order of the children: a node that is flagged sorted has
them in strictly increasing order, so the branch that `find_child` takes on the flag makes
no difference (`child_search_independent`).
-/

namespace Nyet

/-! ## Entries that decide nothing -/

/-- The map without the entry at `k`. -/
def BlockMap.erase (M : BlockMap) (k : List Label) : BlockMap := Function.update M k none

/-- The verdict on `k` is the same without the entry at `k`, but for bookkeeping. -/
def BlockMap.Redundant (M : BlockMap) (k : List Label) : Prop :=
  (M.verdict k).map Entry.core = ((M.erase k).verdict k).map Entry.core

instance (M : BlockMap) (k : List Label) : Decidable (M.Redundant k) :=
  inferInstanceAs (Decidable (_ = _))

theorem suffixPaths_append (ks ls : List Label) :
    suffixPaths (ks ++ ls) = suffixPaths ks ++ (suffixPaths ls).map (ks ++ ·) := by
  induction ks with
  | nil => simp [suffixPaths_nil]
  | cons k ks ih =>
    rw [List.cons_append, suffixPaths_cons, suffixPaths_cons, ih, List.map_append, List.map_map,
      List.cons_append]
    rfl

/-- The scan sees nothing but cores. -/
theorem foldl_keepBest_core (es : List Entry) {b b' : Option Entry}
    (h : b.map Entry.core = b'.map Entry.core) :
    (es.foldl (Lib.keepBest fun e => e.status.rank) b).map Entry.core =
      (es.foldl (Lib.keepBest fun e => e.status.rank) b').map Entry.core := by
  induction es generalizing b b' with
  | nil => exact h
  | cons e es ih =>
    refine ih ?_
    cases b with
    | none =>
      cases b' with
      | none => rfl
      | some _ => cases h
    | some x =>
      cases b' with
      | none => cases h
      | some x' =>
        have hcore : x.core = x'.core := Option.some.inj h
        have hstatus : x.status = x'.status := by
          rw [← Entry.core_status x, hcore, Entry.core_status]
        simp only [Lib.keepBest, hstatus]
        split
        · rfl
        · exact h

/-- Without the entry at `k`, the entries from below `k` on are the same. -/
theorem BlockMap.entriesOn_append (M : BlockMap) (k rest : List Label) :
    M.entriesOn (k ++ rest) =
      M.entriesOn k ++ ((suffixPaths rest).map (k ++ ·)).filterMap (M.erase k) := by
  rw [BlockMap.entriesOn, suffixPaths_append, List.filterMap_append]
  congr 1
  refine List.filterMap_congr fun ks hks => ?_
  obtain ⟨js, hjs, rfl⟩ := List.mem_map.mp hks
  have hne : k ++ js ≠ k := fun heq =>
    (mem_suffixPaths.mp hjs).1 (List.append_right_eq_self.mp heq)
  exact (Function.update_of_ne hne none M).symm

theorem BlockMap.erase_erase (M : BlockMap) (k : List Label) : (M.erase k).erase k = M.erase k :=
  Function.update_idem _ _ _

/-- **An entry that decides nothing on its own domain decides nothing.** -/
theorem BlockMap.verdict_erase {M : BlockMap} {k : List Label} (h : M.Redundant k)
    (ls : List Label) : (M.verdict ls).map Entry.core = ((M.erase k).verdict ls).map Entry.core := by
  rw [BlockMap.Redundant, BlockMap.verdict_eq_scan, BlockMap.verdict_eq_scan] at h
  rw [BlockMap.verdict_eq_scan, BlockMap.verdict_eq_scan]
  by_cases hpre : k <+: ls
  · obtain ⟨rest, rfl⟩ := hpre
    rw [BlockMap.entriesOn_append, (M.erase k).entriesOn_append, BlockMap.erase_erase,
      List.foldl_append, List.foldl_append]
    exact foldl_keepBest_core _ h
  · have hsame : M.entriesOn ls = (M.erase k).entriesOn ls := by
      refine List.filterMap_congr fun ks hks => ?_
      have hne : ks ≠ k := fun heq => hpre (heq ▸ (mem_suffixPaths.mp hks).2)
      exact (Function.update_of_ne hne none M).symm
    rw [hsame]

/-! ## What a failed insert loses -/

/-- The note, if there is one, is copied, and then the entry cannot be allocated. -/
def EntryFails (e : Entry) (a : Alloc) : Prop :=
  if e.note.isSome then a.next.1 = true ∧ a.next.2.next.1 = false else a.next.1 = false

instance (e : Entry) (a : Alloc) : Decidable (EntryFails e a) :=
  inferInstanceAs (Decidable
    (if e.note.isSome then a.next.1 = true ∧ a.next.2.next.1 = false else a.next.1 = false))

theorem replaceEntry_eq_none_iff {e old : Entry} {a : Alloc} :
    replaceEntry e (some old) a = none ↔ EntryFails e a := by
  rw [EntryFails]
  by_cases he : e.note.isSome = true
  · rw [if_pos he, replaceEntry, if_pos he]
    rcases a.next with ⟨noteOk, a⟩
    cases noteOk with
    | false => simp
    | true => cases hentry : a.next.1 <;> simp [hentry]
  · rw [if_neg he, replaceEntry_plain (Option.not_isSome_iff_eq_none.mp he)]
    cases a.next.1 <;> simp

/-- The insert meets an entry at the end of its path and loses it. -/
def LosesEntry (M : BlockMap) (labels : List Label) (e : Entry) (a : Alloc) : Prop :=
  (M labels).isSome = true ∧ EntryFails e a

instance (M : BlockMap) (labels : List Label) (e : Entry) (a : Alloc) :
    Decidable (LosesEntry M labels e a) :=
  inferInstanceAs (Decidable (_ ∧ _))

/-- Losing the entry is a failure. -/
theorem insertPath_of_loses {e : Entry} {n n' : Node} {ls : List Label} {a a' : Alloc} {ok : Bool}
    (hn : n.WF) (h : insertPath e n ls a = ((n', ok), a')) (hloses : LosesEntry n.get ls e a) :
    ok = false := by
  obtain ⟨old, hold⟩ := Option.isSome_iff_exists.mp hloses.1
  have hnone := insertPath_get_held hn h hold
  rw [replaceEntry_eq_none_iff.mpr hloses.2] at hnone
  cases ok with
  | true =>
    rw [insertPath_get_self hn h] at hnone
    cases hnone
  | false => rfl

/-- **A failed `insert_path`** leaves the map as it was, or without the entry it
met at the end of its path. -/
theorem insertPath_failed_get {e : Entry} {n n' : Node} {ls : List Label} {a a' : Alloc}
    (hn : n.WF) (h : insertPath e n ls a = ((n', false), a')) :
    n'.get = if LosesEntry n.get ls e a then BlockMap.erase n.get ls else n.get := by
  have hother : ∀ ks, ks ≠ ls → n'.get ks = n.get ks := fun ks => insertPath_get_of_ne hn h
  have hself : n'.get ls = n.get ls ∨ n'.get ls = none := by
    rcases insertPath_get_cases hn h with hkept | hnone | ⟨hok, -⟩
    · exact Or.inl hkept
    · exact Or.inr hnone
    · cases hok
  funext ks
  split
  · next hloses =>
    obtain ⟨old, hold⟩ := Option.isSome_iff_exists.mp hloses.1
    rw [BlockMap.erase, Function.update_apply]
    split
    · next hks =>
      rw [hks, insertPath_get_held hn h hold]
      exact replaceEntry_eq_none_iff.mpr hloses.2
    · next hks => exact hother ks hks
  · -- nothing was freed, so the map is what it was even if the path has been built
    next hkeeps =>
    by_cases hks : ks = ls
    · rw [hks]
      cases hold : n.get ls with
      | none => rcases hself with hsame | hnone <;> simp_all
      | some old =>
        rcases hself with hsame | hnone
        · rw [hsame, hold]
        · rw [insertPath_get_held hn h hold] at hnone
          exact absurd ⟨by rw [hold]; rfl, replaceEntry_eq_none_iff.mp hnone⟩ hkeeps
    · exact hother ks hks

/-! ## The children arrays -/

/-- No node has more children than its array has room for. -/
inductive Node.HasRoom : Node → Prop where
  | intro {n : Node} (room : n.children.length ≤ n.childrenCapacity)
      (children : ∀ c ∈ n.children, c.HasRoom) : n.HasRoom

theorem Node.HasRoom.room {n : Node} (h : n.HasRoom) :
    n.children.length ≤ n.childrenCapacity := by
  cases h with
  | intro room _ => exact room

theorem Node.HasRoom.child {n c : Node} (h : n.HasRoom) (hc : c ∈ n.children) : c.HasRoom := by
  cases h with
  | intro _ children => exact children c hc

theorem nodeCreate_hasRoom (label : Label) : (nodeCreate label).HasRoom :=
  .intro (Nat.zero_le _) fun c hc => by cases hc

/-- **`insert_path` keeps the arrays large enough**, whatever the allocator does. -/
theorem insertPath_hasRoom {e : Entry} :
    ∀ {ls : List Label} {n n' : Node} {a a' : Alloc} {ok : Bool}, n.HasRoom →
      insertPath e n ls a = ((n', ok), a') → n'.HasRoom
  | [], n, n', _, _, _, hn, h => by
    rw [(setEntry_spec h).1]
    exact .intro hn.room fun c hc => hn.child hc
  | l :: ls, n, n', a, a', ok, hn, h => by
    rcases insertPath_cons h with ⟨i, c, c', _, hc, hrec, rfl⟩ | ⟨_, _, rfl⟩ |
      ⟨c', a₁, _, hrec, _, _, _, hroom, hchildren⟩
    · refine .intro ?_ fun x hx => ?_
      · show (n.children.set i c').length ≤ n.childrenCapacity
        rw [List.length_set]
        exact hn.room
      · rcases List.mem_or_eq_of_mem_set hx with hx | rfl
        · exact hn.child hx
        · exact insertPath_hasRoom (hn.child (List.mem_of_getElem? hc)) hrec
    · exact hn
    · -- a new child: the array was grown before it is written to, and stays grown if the rest
      -- fails
      have hmore := hroom hn.room
      cases ok with
      | true =>
        rw [if_pos rfl] at hchildren
        refine .intro ?_ fun x hx => ?_
        · rw [hchildren, List.length_append]
          exact hmore
        · rw [hchildren] at hx
          rcases List.mem_append.mp hx with hx | hx
          · exact hn.child hx
          · rw [List.mem_singleton.mp hx]
            exact insertPath_hasRoom (nodeCreate_hasRoom l) hrec
      | false =>
        rw [if_neg Bool.false_ne_true] at hchildren
        exact .intro (hchildren ▸ Nat.le_of_lt hmore) fun x hx => hn.child (hchildren ▸ hx)

/-! ## The lookups before and after -/

/-- The fields of a lookup result that say what the blocklist says. -/
def LookupResult.said (r : LookupResult) :
    Bool × Status × UInt32 × UInt8 × UInt32 × Option CStr :=
  (r.matched, r.status, r.ttl, r.source, r.mlScore, r.note)

/-- Every lookup says the same in both trees. -/
def SameLookups (t t' : RadixTree) : Prop :=
  ∀ now domain, (radixLookup t now domain).1.said = (radixLookup t' now domain).1.said

/-- A lookup found nothing, or an entry. -/
theorem radixLookup_zero_or_of (t : RadixTree) (now : UInt32) (domain : CStr) :
    (radixLookup t now domain).1 = .zero ∨ ∃ e, (radixLookup t now domain).1 = .of e := by
  rw [radixLookup]
  split
  · exact Or.inl rfl
  · split
    · exact Or.inl rfl
    · split
      · exact Or.inl rfl
      · exact Or.inr ⟨_, rfl⟩

/-- What a lookup says is its entry, without the bookkeeping. -/
theorem radixLookup_said_eq_iff (t t' : RadixTree) (now : UInt32) (domain : CStr) :
    (radixLookup t now domain).1.said = (radixLookup t' now domain).1.said ↔
      (radixLookup t now domain).1.toEntry.map Entry.core =
        (radixLookup t' now domain).1.toEntry.map Entry.core := by
  rcases radixLookup_zero_or_of t now domain with h | ⟨⟨_, _, _, _, _, _, _⟩, h⟩ <;>
    rcases radixLookup_zero_or_of t' now domain with h' | ⟨⟨_, _, _, _, _, _, _⟩, h'⟩ <;>
    simp [h, h', LookupResult.said, LookupResult.toEntry, LookupResult.zero, LookupResult.of,
      Entry.core]

/-- A domain too long for `label_buf` is looked up in no tree. -/
theorem radixLookup_of_long (t : RadixTree) (now : UInt32) {domain : CStr}
    (h : ¬ domain.length < labelBufSize) : (radixLookup t now domain).1 = .zero := by
  rw [radixLookup, splitDomainRtl_eq, if_pos (Or.inr (by omega))]

theorem sameLookups_iff (t t' : RadixTree) :
    SameLookups t t' ↔ ∀ domain : CStr, domain.length < labelBufSize →
      (t.map.verdict (normalise domain)).map Entry.core =
        (t'.map.verdict (normalise domain)).map Entry.core := by
  constructor
  · intro h domain hlen
    rw [← radixLookup_verdict t 0 hlen, ← radixLookup_verdict t' 0 hlen]
    exact (radixLookup_said_eq_iff t t' 0 domain).mp (h 0 domain)
  · intro h now domain
    by_cases hlen : domain.length < labelBufSize
    · rw [radixLookup_said_eq_iff, radixLookup_verdict t now hlen, radixLookup_verdict t' now hlen]
      exact h domain hlen
    · rw [radixLookup_of_long t now hlen, radixLookup_of_long t' now hlen]

/-- A tree whose arrays have room for their children. -/
def RadixTree.HasRoom (t : RadixTree) : Prop := ∀ r, t.root = some r → r.HasRoom

/-- The tree a builder would be published as, but for the order of the children. -/
def RadixTreeBuilder.asTree (b : RadixTreeBuilder) : RadixTree := ⟨b.root, b.wf⟩

/-- **Atomicity of an insert** that took `t` to `t'` with return code `rc`: if it
failed, every lookup says what it said before, and `t'` is well formed if `t` was
(in the order and labels of the children by its type, and in their number). -/
def Atomic (rc : Int) (t t' : RadixTree) : Prop :=
  rc = -1 → SameLookups t t' ∧ (t.HasRoom → t'.HasRoom)

/-- The insert does not lose an entry that decides something: it is not the new
entry whose allocation fails, or there is no old one on the path, or that one
decides nothing on its own domain. -/
def SafeToFail (M : BlockMap) (domain : CStr) (e : Entry) (a : Alloc) : Prop :=
  Insertable domain → LosesEntry M (normalise domain) e a → M.Redundant (normalise domain)

/-- Both inserts are `insert_path` from the root, or do nothing. -/
theorem atomic_iff {t t' : RadixTree} {rc : Int} {domain : CStr} {e : Entry} {a : Alloc}
    (h : ((t.root = none ∨ ¬ Insertable domain) ∧ rc ≠ -1) ∨
      ∃ root root' ok a', Insertable domain ∧ t.root = some root ∧
        insertPath e root (normalise domain) a = ((root', ok), a') ∧
        rc = (if ok then 0 else -1) ∧ t'.root = some root') :
    Atomic rc t t' ↔ SafeToFail t.map domain e a := by
  rcases h with ⟨hno, hrc⟩ | ⟨root, root', ok, a', hins, hr, hpath, hrc, hr'⟩
  · refine ⟨fun _ hins hloses => ?_, fun _ hfail => absurd hfail hrc⟩
    rcases hno with hno | hno
    · have hheld := hloses.1
      rw [RadixTree.map, rootMap, hno] at hheld
      cases hheld
    · exact absurd hins hno
  · have hwf := t.wf root hr
    have hlen := hins.1
    constructor
    · -- an insert that fails at its own entry has freed it: the lookup of the domain itself tells
      intro hatomic _ hloses
      rw [RadixTree.map_of_root hr] at hloses ⊢
      have hok := insertPath_of_loses hwf hpath hloses
      subst hok
      have hsame := (sameLookups_iff t t').mp (hatomic hrc).1 domain hlen
      rw [RadixTree.map_of_root hr, RadixTree.map_of_root hr', insertPath_failed_get hwf hpath,
        if_pos hloses] at hsame
      exact hsame
    · -- and where its entry was no verdict's, no lookup can tell
      intro hsafe hfail
      cases ok with
      | true =>
        rw [hfail] at hrc
        cases hrc
      | false =>
        refine ⟨(sameLookups_iff t t').mpr fun d _ => ?_, fun hroom r hr'' => ?_⟩
        · have hsafe' := hsafe hins
          rw [RadixTree.map_of_root hr] at hsafe' ⊢
          rw [RadixTree.map_of_root hr', insertPath_failed_get hwf hpath]
          split
          · next hloses => exact BlockMap.verdict_erase (hsafe' hloses) _
          · rfl
        · rw [hr'] at hr''
          cases hr''
          exact insertPath_hasRoom (hroom root hr) hpath

/-- A builder insert, by cases: refused, or `insert_path` from the root. -/
theorem radixInsert_cases (a : Alloc) (b : RadixTreeBuilder) (domain : CStr) (e : Entry) :
    ((b.root = none ∨ ¬ Insertable domain) ∧ (radixInsert a b domain e).1 = -2) ∨
    ∃ root root' ok a', Insertable domain ∧ b.root = some root ∧
      insertPath e root (normalise domain) a = ((root', ok), a') ∧
      (radixInsert a b domain e).1 = (if ok then 0 else -1) ∧
      (radixInsert a b domain e).2.root = some root' := by
  rw [radixInsert]
  split
  · next hr => exact Or.inl ⟨Or.inl hr, rfl⟩
  · next root hr =>
    by_cases hins : Insertable domain
    · right
      rw [splitDomainRtl_of_insertable hins]
      dsimp only
      rw [if_neg (by simpa using hins.2), insertRoot]
      split
      next root' ok a' h => exact ⟨root, root', ok, a', hins, hr, h, rfl, rfl⟩
    · left
      rcases splitDomainRtl_of_not_insertable hins with hs | hs <;> rw [hs]
      · exact ⟨Or.inr hins, rfl⟩
      · exact ⟨Or.inr hins, rfl⟩

/-- **When a failed insert changes nothing.** For every pattern of failing
allocations, a builder insert and a live insert are atomic exactly when they do
not lose, by the allocation of the new entry, an old one that decides something. -/
theorem insert_atomic_iff (a : Alloc) (domain : CStr) (e : Entry) :
    (∀ b : RadixTreeBuilder,
      Atomic (radixInsert a b domain e).1 b.asTree (radixInsert a b domain e).2.asTree ↔
        SafeToFail b.map domain e a) ∧
    ∀ t : RadixTree,
      Atomic (radixTreeInsertLive a t domain e).1 t (radixTreeInsertLive a t domain e).2 ↔
        SafeToFail t.map domain e a := by
  constructor
  · intro b
    refine atomic_iff (t := b.asTree) ?_
    rcases radixInsert_cases a b domain e with ⟨hno, hrc⟩ | hpath
    · exact Or.inl ⟨hno, by rw [hrc]; decide⟩
    · exact Or.inr hpath
  · intro t
    refine atomic_iff ?_
    rcases radixTreeInsertLive_cases a t domain e with ⟨hno, hrc, -⟩ | hpath
    · exact Or.inl ⟨hno, by omega⟩
    · exact Or.inr hpath

/-- example.com is BLOCKED and re-inserted as ALLOWED; there is no memory for the
new entry, and the block is gone. -/
theorem failed_insert_drops_block :
    let b : RadixTreeBuilder := (radixInsert [] ⟨some (nodeCreate []), fun r hr => by
      cases hr
      exact nodeCreate_wf []⟩ (cstr "example.com") ⟨.blocked, 300, 0, 0, 1, 0, none⟩).2
    let res := radixInsert [false] b (cstr "example.com") ⟨.allowed, 0, 0, 0, 1, 0, none⟩
    ¬ Atomic res.1 b.asTree res.2.asTree := by
  intro b res hatomic
  have hsaid := (hatomic (by decide)).1 0 (cstr "example.com")
  exact absurd hsaid (by decide)

/-! ## Child search, whichever allocations fail -/

/-- The calls of `radix_tree.c`, each with the outcomes of its allocations. -/
inductive TreeCall where
  | builderInit (a : Alloc)
  | insert (a : Alloc) (domain : CStr) (e : Entry)
  | publish
  | swap
  | insertLive (a : Alloc) (domain : CStr) (e : Entry)
  | lookup (now : UInt32) (domain : CStr)

/-- One call. -/
def TreeState.call (s : TreeState) : TreeCall → TreeState
  | .builderInit a =>
    match radixBuilderInit a with
    | some b => { s with builder := b }
    | none => { s with builder := .empty }
  | .insert a domain e => { s with builder := (radixInsert a s.builder domain e).2 }
  | .publish =>
    let (tree, builder) := radixPublish s.tree s.builder
    ⟨builder, tree⟩
  | .swap =>
    let (tree, builder) := radixTreeSwap s.tree s.builder
    ⟨builder, tree⟩
  | .insertLive a domain e => { s with tree := (radixTreeInsertLive a s.tree domain e).2 }
  | .lookup now domain => { s with tree := (radixLookup s.tree now domain).2 }

/-- The parent's array holds the child. -/
def Node.HasChild (parent child : Node) : Prop := child ∈ parent.children

/-- A node of the builder or of the tree. -/
def TreeState.HasNode (s : TreeState) (n : Node) : Prop :=
  ∃ root, (s.builder.root = some root ∨ s.tree.root = some root) ∧
    Relation.ReflTransGen Node.HasChild root n

/-- **The children of a node as `find_child` relies on them.** -/
structure Node.ChildrenOrdered (n : Node) : Prop where
  distinct : (n.children.map Node.label).Nodup
  increasing : n.childrenSorted = true →
    n.children.Pairwise fun a b => labelCompare a.label b.label < 0
  binary : n.childrenSorted = true → ∀ label, n.binarySearch label = n.linearScan label
  search : ∀ label, findChild n label = n.linearScan label

/-- What holds all the way down holds of each node. -/
theorem Node.WF.descendant {root n : Node} (h : root.WF)
    (hbelow : Relation.ReflTransGen Node.HasChild root n) : n.WF := by
  induction hbelow with
  | refl => exact h
  | tail _ hchild ih => exact ih.child hchild

theorem Node.WF.childrenOrdered {n : Node} (h : n.WF) : n.ChildrenOrdered where
  distinct := h.distinct
  increasing := h.sorted
  binary hs := Node.binarySearch_eq_linearScan (h.sorted hs)
  search := findChild_eq_linearScan h

/-- The invariant of either root is a field of its structure. -/
theorem TreeState.HasNode.wf {s : TreeState} {n : Node} (h : s.HasNode n) : n.WF := by
  obtain ⟨root, hroot, hbelow⟩ := h
  rcases hroot with hroot | hroot
  · exact (s.builder.wf root hroot).descendant hbelow
  · exact (s.tree.wf root hroot).descendant hbelow

/-- **Child search does not depend on the sorted flag.** `label_compare` is a strict total order,
and after any sequence of calls, whichever allocations fail, the children of every node have
distinct labels, in strictly increasing order where the node is flagged sorted; so the binary
search finds the child that the linear scan finds. -/
theorem child_search_independent (calls : List TreeCall) :
    IsStrictTotalOrder Label (fun a b => labelCompare a b < 0) ∧
    ∀ n, (Lib.run TreeState.call .init calls).HasNode n → n.ChildrenOrdered :=
  ⟨inferInstance, fun _ h => h.wf.childrenOrdered⟩

/-- It is the flag that keeps the binary search away from children in no order. -/
example :
    let n : Node := ⟨[], none, [nodeCreate (cstr "net"), nodeCreate (cstr "com")], 4, false⟩
    n.binarySearch (cstr "net") = none ∧ n.linearScan (cstr "net") = some 0 := by decide

end Nyet
