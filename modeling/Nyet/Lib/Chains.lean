import Mathlib

/-!
# Chained hash tables

An array of buckets, each a list of nodes; the key of a node decides its bucket,
and no key has two nodes. The invariant is part of the type. A table is only ever
read through `find`, and the two ways to change one are a single update of it
(`find_push`, `find_alter`).
-/

namespace Nyet.Lib

variable {κ ι α : Type*} [DecidableEq κ]

/-- Buckets of nodes, each node in the bucket of its key. -/
structure Chains (key : α → κ) (hash : κ → ι) where
  bucket : ι → List α
  placed : ∀ i, ∀ x ∈ bucket i, hash (key x) = i
  distinct : ∀ i, ((bucket i).map key).Nodup

/-- Replace or drop the first node with the key `k`. -/
def alterFirst (key : α → κ) (k : κ) (f : α → Option α) : List α → List α
  | [] => []
  | x :: xs => if key x = k then (f x).toList ++ xs else x :: alterFirst key k f xs

section

variable {key : α → κ} {k : κ} {f : α → Option α}

/-- The keys of the new list are among the old ones, in their order: a node is replaced by one of
its own key or dropped. This is what keeps both fields of the table. -/
theorem alterFirst_sublist (hf : ∀ x y, f x = some y → key y = key x) (xs : List α) :
    ((alterFirst key k f xs).map key).Sublist (xs.map key) := by
  induction xs with
  | nil => exact .slnil
  | cons x xs ih =>
    rw [alterFirst]
    split
    · cases hfx : f x with
      | none => exact List.sublist_cons_self _ _
      | some y =>
        rw [Option.toList_some, List.singleton_append, List.map_cons, List.map_cons, hf x y hfx]
    · rw [List.map_cons, List.map_cons]
      exact ih.cons_cons _

/-- No other key notices: the node that goes was not its own, and neither is the one that comes. -/
theorem find?_alterFirst_ne (hf : ∀ x y, f x = some y → key y = key x) {j : κ} (hj : j ≠ k)
    (xs : List α) :
    (alterFirst key k f xs).find? (fun x => key x = j) = xs.find? fun x => key x = j := by
  induction xs with
  | nil => rfl
  | cons x xs ih =>
    rw [alterFirst]
    split
    · next hx =>
      have hxj : key x ≠ j := fun h => hj (h.symm.trans hx)
      rw [List.find?_cons_of_neg (by simpa using hxj)]
      cases hfx : f x with
      | none => rfl
      | some y =>
        have hyj : key y ≠ j := hf x y hfx ▸ hxj
        rw [Option.toList_some, List.singleton_append,
          List.find?_cons_of_neg (by simpa using hyj)]
    · rw [List.find?_cons, List.find?_cons, ih]

/-- The key itself finds what its first node was turned into. That it has no second one is needed
where the node is dropped, which would bring it to light. -/
theorem find?_alterFirst_self (hf : ∀ x y, f x = some y → key y = key x) {xs : List α}
    (hxs : (xs.map key).Nodup) :
    (alterFirst key k f xs).find? (fun x => key x = k) =
      (xs.find? fun x => key x = k).bind f := by
  induction xs with
  | nil => rfl
  | cons x xs ih =>
    rw [List.map_cons, List.nodup_cons] at hxs
    rw [alterFirst]
    split
    · next hx =>
      rw [List.find?_cons_of_pos (by simpa using hx), Option.bind_some]
      cases hfx : f x with
      | none =>
        -- the key does not occur a second time
        show xs.find? _ = none
        refine List.find?_eq_none.mpr fun y hy hyk => hxs.1 ?_
        rw [hx, ← of_decide_eq_true hyk]
        exact List.mem_map_of_mem hy
      | some y =>
        rw [Option.toList_some, List.singleton_append]
        exact List.find?_cons_of_pos (by simpa using (hf x y hfx).trans hx)
    · next hx =>
      rw [List.find?_cons_of_neg (by simpa using hx), List.find?_cons_of_neg (by simpa using hx)]
      exact ih hxs.2

end

namespace Chains

variable {key : α → κ} {hash : κ → ι}

/-- No nodes. -/
def empty : Chains key hash := ⟨fun _ => [], (fun _ _ h => nomatch h), fun _ => List.nodup_nil⟩

/-- The node of a key. -/
def find (c : Chains key hash) (k : κ) : Option α := (c.bucket (hash k)).find? fun x => key x = k

/-- No key has two nodes, in whatever buckets. -/
theorem nodup_keys (c : Chains key hash) {is : List ι} (h : is.Nodup) :
    ((is.flatMap c.bucket).map key).Nodup := by
  rw [List.map_flatMap, List.nodup_flatMap]
  refine ⟨fun i _ => c.distinct i, h.imp fun {i j} hij => ?_⟩
  -- a key in two buckets would hash to both
  intro k hi hj
  obtain ⟨x, hx, rfl⟩ := List.mem_map.mp hi
  obtain ⟨y, hy, hkey⟩ := List.mem_map.mp hj
  exact hij ((c.placed i x hx).symm.trans ((congrArg hash hkey).symm.trans (c.placed j y hy)))

variable [DecidableEq ι]

/-- A new node at the head of its bucket. -/
def push (c : Chains key hash) (x : α) (hx : c.find (key x) = none) : Chains key hash where
  bucket := Function.update c.bucket (hash (key x)) (x :: c.bucket (hash (key x)))
  placed i y hy := by
    by_cases hi : i = hash (key x)
    · subst hi
      rw [Function.update_self] at hy
      rcases List.mem_cons.mp hy with rfl | hy
      · rfl
      · exact c.placed _ y hy
    · rw [Function.update_of_ne hi] at hy
      exact c.placed i y hy
  distinct i := by
    by_cases hi : i = hash (key x)
    · subst hi
      rw [Function.update_self, List.map_cons, List.nodup_cons]
      refine ⟨fun hmem => ?_, c.distinct _⟩
      obtain ⟨y, hy, hkey⟩ := List.mem_map.mp hmem
      exact List.find?_eq_none.mp hx y hy (by simpa using hkey)
    · rw [Function.update_of_ne hi]
      exact c.distinct i

/-- Replace or drop the node of a key. -/
def alter (c : Chains key hash) (k : κ) (f : α → Option α)
    (hf : ∀ x y, f x = some y → key y = key x) : Chains key hash where
  bucket := Function.update c.bucket (hash k) (alterFirst key k f (c.bucket (hash k)))
  placed i y hy := by
    by_cases hi : i = hash k
    · subst hi
      rw [Function.update_self] at hy
      obtain ⟨x, hx, hkey⟩ := List.mem_map.mp
        ((alterFirst_sublist hf _).subset (List.mem_map_of_mem hy))
      rw [← hkey]
      exact c.placed _ x hx
    · rw [Function.update_of_ne hi] at hy
      exact c.placed i y hy
  distinct i := by
    by_cases hi : i = hash k
    · subst hi
      rw [Function.update_self]
      exact (alterFirst_sublist hf _).nodup (c.distinct _)
    · rw [Function.update_of_ne hi]
      exact c.distinct i

/-- A push is an update at the new key: in its own bucket the node is found first, and all others
look past it. -/
theorem find_push (c : Chains key hash) (x : α) (hx : c.find (key x) = none) (j : κ) :
    (c.push x hx).find j = if j = key x then some x else c.find j := by
  unfold find push
  dsimp only
  by_cases hj : j = key x
  · subst hj
    rw [if_pos rfl, Function.update_self, List.find?_cons_of_pos (by simp)]
  · rw [if_neg hj]
    -- another key may share the bucket
    by_cases hi : hash j = hash (key x)
    · rw [hi, Function.update_self, List.find?_cons_of_neg (by simpa using Ne.symm hj)]
    · rw [Function.update_of_ne hi]

/-- An alteration is an update at its key, the table's only other change. -/
theorem find_alter (c : Chains key hash) (k : κ) (f : α → Option α)
    (hf : ∀ x y, f x = some y → key y = key x) (j : κ) :
    (c.alter k f hf).find j = if j = k then (c.find k).bind f else c.find j := by
  unfold find alter
  dsimp only
  by_cases hj : j = k
  · subst hj
    rw [if_pos rfl, Function.update_self]
    exact find?_alterFirst_self hf (c.distinct _)
  · rw [if_neg hj]
    -- another key may share the bucket
    by_cases hi : hash j = hash k
    · rw [hi, Function.update_self]
      exact find?_alterFirst_ne hf hj _
    · rw [Function.update_of_ne hi]

end Chains

end Nyet.Lib
