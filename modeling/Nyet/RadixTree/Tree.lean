import Nyet.RadixTree.Paths
import Nyet.RadixTree.Split

/-!
# Builder, published tree and lookup (`radix_tree.c`)

`RadixTreeBuilder` and `RadixTree` carry the representation invariant of their
root, so every operation below hands back a well-formed tree by construction.
Each operation is atomic: the source runs it under the tree's `SRWLOCK`, or on a
builder nothing else can see.
-/

namespace Nyet

/-- `radix_tree_builder_t` -/
structure RadixTreeBuilder where
  root : Option Node
  wf : ∀ r, root = some r → r.WF

/-- `radix_tree_t`; the lock is the atomicity of the operations. -/
structure RadixTree where
  root : Option Node
  wf : ∀ r, root = some r → r.WF

/-- `char label_buf[512]` of every caller of `split_domain_rtl`. -/
def labelBufSize : Nat := 512

/-- `max_labels`, "always passed as 128 by every caller". -/
def maxLabels : Nat := 128

/-- `radix_builder_init`: `none` when `node_create` runs out of memory. -/
def radixBuilderInit (a : Alloc) : Option RadixTreeBuilder :=
  match a.next with
  | (false, _) => none
  | (true, a) =>
    match a.next with
    | (false, _) => none
    | (true, _) => some ⟨some (nodeCreate []), createdRoot_wf⟩

/-- `insert_path` from a root, with its return code. -/
def insertRoot (a : Alloc) (root : Node) (hroot : root.WF) (labels : List Label) (e : Entry) :
    Int × { r : Option Node // ∀ n, r = some n → n.WF } :=
  match h : insertPath e root labels a with
  | ((root', ok), _) =>
    (if ok then 0 else -1, ⟨some root', fun n hn => by
      cases hn
      exact insertPath_wf hroot h⟩)

/-- `radix_insert` -/
def radixInsert (a : Alloc) (b : RadixTreeBuilder) (domain : CStr) (e : Entry) :
    Int × RadixTreeBuilder :=
  match hr : b.root with
  | none => (-2, b)
  | some root =>
    match splitDomainRtl domain labelBufSize maxLabels with
    | none => (-2, b)
    | some labels =>
      if labels.length = 0 then (-2, b)
      else
        let (rc, r) := insertRoot a root (b.wf root hr) labels e
        (rc, ⟨r.1, r.2⟩)

/-- `if (builder->root) sort_children_recursive(builder->root)` -/
def sortedRoot (b : RadixTreeBuilder) : { r : Option Node // ∀ n, r = some n → n.WF } :=
  ⟨b.root.map sortChildrenRecursive, fun n hn => by
    obtain ⟨r, hr, rfl⟩ := Option.map_eq_some_iff.mp hn
    exact sortChildrenRecursive_wf (b.wf r hr)⟩

/-- A builder whose root was handed over. -/
def RadixTreeBuilder.empty : RadixTreeBuilder := ⟨none, noRoot_wf⟩

/-- `radix_tree_init` -/
def radixTreeInit : RadixTree := ⟨none, noRoot_wf⟩

/-- `radix_publish`: the builder's root becomes the tree's, sorted; the builder
is left without a root. -/
def radixPublish (_tree : RadixTree) (b : RadixTreeBuilder) : RadixTree × RadixTreeBuilder :=
  (⟨(sortedRoot b).1, (sortedRoot b).2⟩, .empty)

/-- `radix_tree_swap`: as `radix_publish`, and the old root is freed. -/
def radixTreeSwap (_tree : RadixTree) (b : RadixTreeBuilder) : RadixTree × RadixTreeBuilder :=
  (⟨(sortedRoot b).1, (sortedRoot b).2⟩, .empty)

/-- `radix_tree_insert_live` -/
def radixTreeInsertLive (a : Alloc) (t : RadixTree) (domain : CStr) (e : Entry) :
    Int × RadixTree :=
  match splitDomainRtl domain labelBufSize maxLabels with
  | none => (-2, t)
  | some labels =>
    if labels.length = 0 then (-2, t)
    else
      match hr : t.root with
      | none => (-3, t)
      | some root =>
        let (rc, r) := insertRoot a root (t.wf root hr) labels e
        (rc, ⟨r.1, r.2⟩)

/-! ## `radix_lookup` -/

/-- The local variables of the walk. `best` is `best_entry` together with
`matched_node`, which the source always sets as a pair; the node is named by its
depth on the path. -/
structure Walk where
  allowFound : Bool
  blockFound : Bool
  reviewFound : Bool
  best : Option (Nat × Entry)

/-- `bool allow_found = false; ...` -/
def Walk.start : Walk := ⟨false, false, false, none⟩

/-- The `switch` on the status of an entry met at `depth`. -/
def Walk.visit (w : Walk) (depth : Nat) (e : Entry) : Walk :=
  match e.status with
  | .allowed => { w with allowFound := true, best := some (depth, e) }
  | .blocked =>
    if !w.allowFound then { w with blockFound := true, best := some (depth, e) } else w
  | .review =>
    if !w.allowFound && !w.blockFound then
      { w with reviewFound := true, best := some (depth, e) }
    else w

/-- The loop over the labels. -/
def walkLabels : Node → List Label → Nat → Walk → Walk
  | _, [], _, w => w
  | current, label :: rest, i, w =>
    match findChild current label with
    | none => w
    | some k =>
      match current.children[k]? with
      | none => w
      | some child =>
        walkLabels child rest (i + 1)
          (match child.entry with
          | some e => w.visit (i + 1) e
          | none => w)

/-- `InterlockedIncrement(&hit_count); InterlockedExchange(&last_seen, now)` -/
def Entry.bump (e : Entry) (now : UInt32) : Entry :=
  { e with hitCount := e.hitCount + 1, lastSeen := now }

/-- Bump the entry of the node at the end of a path, in place. -/
def bumpAt (now : UInt32) : Node → List Label → Node
  | n, [] => { n with entry := n.entry.map (·.bump now) }
  | n, label :: rest =>
    match findChild n label with
    | none => n
    | some k =>
      match n.children[k]? with
      | none => n
      | some child => { n with children := n.children.set k (bumpAt now child rest) }

/-- `radix_lookup_result_t` -/
structure LookupResult where
  matched : Bool
  status : Status
  ttl : UInt32
  hitCount : UInt32
  lastSeen : UInt32
  source : UInt8
  mlScore : UInt32
  note : Option CStr
  deriving DecidableEq, Repr

/-- `radix_lookup_result_t result = {0}` -/
def LookupResult.zero : LookupResult := ⟨false, .blocked, 0, 0, 0, 0, 0, none⟩

/-- The result filled in from the winning entry. -/
def LookupResult.of (e : Entry) : LookupResult :=
  ⟨true, e.status, e.ttl, e.hitCount, e.lastSeen, e.source, e.mlScore, e.note⟩

theorem bumpAt_label (now : UInt32) (n : Node) (ls : List Label) :
    (bumpAt now n ls).label = n.label := by
  cases ls with
  | nil => rfl
  | cons l ls =>
    rw [bumpAt]
    split
    · rfl
    · split <;> rfl

theorem bumpAt_wf (now : UInt32) :
    ∀ {ls : List Label} {n : Node}, n.WF → (bumpAt now n ls).WF
  | [], n, hn => .intro hn.distinct hn.sorted fun c hc => hn.child hc
  | l :: ls, n, hn => by
    rw [bumpAt]
    split
    · exact hn
    · split
      · exact hn
      · next k child hk =>
        exact hn.set hk (bumpAt_label now child ls)
          (bumpAt_wf now (hn.child (List.mem_of_getElem? hk)))

/-- `radix_lookup` at time `now` (seconds since `RADIX_EPOCH`): the result, and
the tree with the winning entry's bookkeeping bumped. -/
def radixLookup (t : RadixTree) (now : UInt32) (domain : CStr) : LookupResult × RadixTree :=
  match splitDomainRtl domain labelBufSize maxLabels with
  | none => (.zero, t)
  | some labels =>
    match hr : t.root with
    | none => (.zero, t)
    | some root =>
      match (walkLabels root labels 0 .start).best with
      | none => (.zero, t)
      | some (depth, e) =>
        (.of (e.bump now), ⟨some (bumpAt now root (labels.take depth)), fun n hn => by
          cases hn
          exact bumpAt_wf now (t.wf root hr)⟩)

end Nyet
