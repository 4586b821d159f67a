import Nyet.Bytes
import Nyet.Lib.Search

/-!
# Radix tree nodes (`radix_tree.c`)

Nodes, child search and insertion, as `radix_tree.c` computes them. A node owns
its children, so a pointer to a child is an index into the parent's array and an
in-place update is the rebuilt path down to the changed node.

Allocation is explicit: every function that allocates takes the outcomes of the
`malloc`/`calloc`/`realloc`/`_strdup` calls it is going to make, in order
(`Alloc`). The empty list is the allocator that never fails.
-/

namespace Nyet

/-- `radix_status_t` -/
inductive Status where
  | blocked
  | allowed
  | review
  deriving DecidableEq, Repr

/-- `radix_entry_t`. `mlScore` is the 32 bits of the `float`: the tree only
copies it. -/
structure Entry where
  status : Status
  ttl : UInt32
  hitCount : UInt32
  lastSeen : UInt32
  source : UInt8
  mlScore : UInt32
  note : Option CStr
  deriving DecidableEq, Repr

/-- A label: the bytes between two dots. -/
abbrev Label := List UInt8

/-- `radix_node_t` -/
structure Node where
  label : Label
  entry : Option Entry
  children : List Node
  childrenCapacity : Nat
  childrenSorted : Bool
  deriving Repr

/-- The outcomes of the coming allocation calls; when the list runs out, every
further call succeeds. -/
abbrev Alloc := List Bool

/-- Consume the outcome of one allocation call. -/
def Alloc.next : Alloc → Bool × Alloc
  | [] => (true, [])
  | ok :: rest => (ok, rest)

/-- `node_create`: the node and its label copy, children vacuously sorted. -/
def nodeCreate (label : Label) : Node :=
  ⟨label, none, [], 0, true⟩

/-- `label_compare`: bytes first, length breaks ties. -/
def labelCompare (a b : Label) : Int :=
  let cmp := memcmp a b (min a.length b.length)
  if cmp ≠ 0 then cmp
  else if a.length < b.length then -1
  else if b.length < a.length then 1
  else 0

/-- `find_child`: binary search when the parent's array is flagged sorted,
linear scan otherwise. The result is the child's index. -/
def findChild (parent : Node) (label : Label) : Option Nat :=
  if parent.childrenSorted then
    Lib.bsearch (fun cand => labelCompare cand.label label) parent.children
      parent.children.length 0 parent.children.length
  else
    parent.children.findIdx? fun child => child.label = label

/-- The order `qsort` is given by `node_ptr_compare`. -/
def NodeLe (a b : Node) : Prop := labelCompare a.label b.label ≤ 0

instance : DecidableRel NodeLe := fun _ _ => inferInstanceAs (Decidable (_ ≤ _))

mutual

/-- `sort_children_recursive`. The children keep their labels, so sorting the
array before or after descending into them is the same. -/
def sortChildrenRecursive : Node → Node
  | ⟨label, entry, children, cap, _⟩ =>
    ⟨label, entry, (sortAll children).insertionSort NodeLe, cap, true⟩

/-- The loop of `sort_children_recursive` over a children array. -/
def sortAll : List Node → List Node
  | [] => []
  | c :: cs => sortChildrenRecursive c :: sortAll cs

end

/-- `append_child`: grow the array by doubling when it is full, append, and drop
the sorted flag. `none` when `realloc` fails. -/
def appendChild (parent child : Node) (a : Alloc) : Option Node × Alloc :=
  if parent.children.length = parent.childrenCapacity then
    let newCap := if parent.childrenCapacity = 0 then 4 else parent.childrenCapacity * 2
    match a.next with
    | (true, a) =>
      (some { parent with
        children := parent.children ++ [child]
        childrenCapacity := newCap
        childrenSorted := false }, a)
    | (false, a) => (none, a)
  else
    (some { parent with
      children := parent.children ++ [child]
      childrenSorted := false }, a)

/-- `first_new_parent->children_count--`: unlink the child appended last. -/
def Node.popChild (n : Node) : Node :=
  { n with children := n.children.dropLast }

/-- Overwrite the last child (the chain below `first_new` is built in place). -/
def Node.setLast (n c : Node) : Node :=
  { n with children := n.children.dropLast ++ [c] }

/-- The tail of `insert_path`: copy the note, free the entry that is there,
allocate the new one. A failed `_strdup` leaves the old entry alone; a failed
`malloc` comes after the old entry was freed. -/
def setEntry (e : Entry) (current : Node) (a : Alloc) : (Node × Bool) × Alloc :=
  let (noteOk, a) := if e.note.isSome then a.next else (true, a)
  if noteOk then
    match a.next with
    | (true, a) => (({ current with entry := some e }, true), a)
    | (false, a) => (({ current with entry := none }, false), a)
  else
    ((current, false), a)

/-- `insert_path` below `current`. The result is the rebuilt node and whether
the insert succeeded (return value 0). On failure everything from `first_new`
down is unlinked and freed; what was there before the call stays. -/
def insertPath (e : Entry) : Node → List Label → Alloc → (Node × Bool) × Alloc
  | current, [], a => setEntry e current a
  | current, label :: rest, a =>
    match findChild current label with
    | some i =>
      match current.children[i]? with
      | some child =>
        let ((child', ok), a) := insertPath e child rest a
        (({ current with children := current.children.set i child' }, ok), a)
      | none => ((current, false), a)
    | none =>
      -- `node_create` makes two allocations: the node, then its label
      match a.next with
      | (false, a) => ((current, false), a)
      | (true, a) =>
        match a.next with
        | (false, a) => ((current, false), a)
        | (true, a) =>
          match appendChild current (nodeCreate label) a with
          | (none, a) => ((current, false), a)
          | (some grown, a) =>
            let ((child', ok), a) := insertPath e (nodeCreate label) rest a
            if ok then ((grown.setLast child', true), a)
            else ((grown.popChild, false), a)

end Nyet
