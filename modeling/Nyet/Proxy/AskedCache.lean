import Nyet.Cache.DnsCache
import Nyet.Lib.Chains
import Nyet.RadixTree.Node

/-!
# Which domains the Pi has been asked about (`AskedCache`)

A chained hash set of domains, each PENDING or DONE. A claim succeeds for a
domain that has no node, and makes one; a failed check takes the node away again.
-/

namespace Nyet

/-- `ASKED_CACHE_BUCKETS` -/
def askedCacheBuckets : Nat := 4096

/-- `AskedState` -/
inductive AskedState where
  | pending
  | done
  deriving DecidableEq, Repr

/-- `AskedCacheNode` -/
structure AskedCacheNode where
  domain : CStr
  state : AskedState
  deriving DecidableEq, Repr

/-- `fnv1a(domain) % ASKED_CACHE_BUCKETS` -/
def askedBucket (domain : CStr) : Fin askedCacheBuckets :=
  ⟨(fnv1a domain).toNat % askedCacheBuckets, Nat.mod_lt _ (by decide)⟩

/-- `AskedCache` -/
abbrev AskedCache := Lib.Chains AskedCacheNode.domain askedBucket

/-- The state a domain is in. -/
def AskedCache.state (cache : AskedCache) (domain : CStr) : Option AskedState :=
  (Lib.Chains.find cache domain).map (·.state)

/-- `asked_cache_try_claim`: whether to fire, and the cache. The node and the copy
of its domain are two allocations. -/
def askedCacheTryClaim (a : Alloc) (cache : AskedCache) (domain : CStr) : Bool × AskedCache :=
  if h : Lib.Chains.find cache domain = none then
    match a.next with
    | (false, _) => (false, cache)
    | (true, a) =>
      match a.next with
      | (false, _) => (false, cache)
      | (true, _) => (true, cache.push ⟨domain, .pending⟩ h)
  else (false, cache)

/-- `asked_cache_mark_done` -/
def askedCacheMarkDone (cache : AskedCache) (domain : CStr) (succeeded : Bool) : AskedCache :=
  cache.alter domain (fun n => if succeeded then some { n with state := .done } else none)
    fun n n' h => by
      cases succeeded with
      | true =>
        have hn' := Option.some.inj h
        exact (congrArg AskedCacheNode.domain hn').symm
      | false => cases h

/-! ## The cache as a map -/

theorem AskedCache.state_eq_none {cache : AskedCache} {domain : CStr} :
    AskedCache.state cache domain = none ↔ Lib.Chains.find cache domain = none :=
  Option.map_eq_none_iff

/-- **`asked_cache_try_claim`** with memory to spare: a domain without a node is
claimed, any other is left alone. -/
theorem askedCacheTryClaim_spec (cache : AskedCache) (domain : CStr) :
    (AskedCache.state cache domain = none →
      (askedCacheTryClaim [] cache domain).1 = true ∧
      AskedCache.state (askedCacheTryClaim [] cache domain).2 =
        Function.update (AskedCache.state cache) domain (some .pending)) ∧
    (AskedCache.state cache domain ≠ none →
      askedCacheTryClaim [] cache domain = (false, cache)) := by
  constructor
  · intro hnone
    have hfind := AskedCache.state_eq_none.mp hnone
    have hclaim : askedCacheTryClaim [] cache domain =
        (true, cache.push ⟨domain, .pending⟩ hfind) := dif_pos hfind
    rw [hclaim]
    refine ⟨rfl, funext fun d => ?_⟩
    unfold AskedCache.state
    rw [Function.update_apply, Lib.Chains.find_push]
    by_cases hd : d = domain
    · rw [if_pos hd, if_pos hd]
      rfl
    · rw [if_neg hd, if_neg hd]
  · intro hsome
    exact dif_neg fun hfind => hsome (AskedCache.state_eq_none.mpr hfind)

/-- A claim is made for a domain without a node, or nothing happens. -/
theorem askedCacheTryClaim_cases (a : Alloc) (cache : AskedCache) (domain : CStr) :
    askedCacheTryClaim a cache domain = (false, cache) ∨
    (AskedCache.state cache domain = none ∧ (askedCacheTryClaim a cache domain).1 = true ∧
      AskedCache.state (askedCacheTryClaim a cache domain).2 =
        Function.update (AskedCache.state cache) domain (some .pending)) := by
  by_cases hstate : AskedCache.state cache domain = none
  · have hfind := AskedCache.state_eq_none.mp hstate
    obtain ⟨-, hpush⟩ := (askedCacheTryClaim_spec cache domain).1 hstate
    have hclaim : askedCacheTryClaim [] cache domain =
        (true, cache.push ⟨domain, .pending⟩ hfind) := dif_pos hfind
    rw [hclaim] at hpush
    rw [askedCacheTryClaim]
    rw [dif_pos hfind]
    rcases a.next with ⟨_ | _, a⟩
    · exact Or.inl rfl
    · dsimp only
      rcases a.next with ⟨_ | _, a⟩
      · exact Or.inl rfl
      · exact Or.inr ⟨hstate, rfl, hpush⟩
  · exact Or.inl (dif_neg fun hfind => hstate (AskedCache.state_eq_none.mpr hfind))

/-- **`asked_cache_mark_done`**: a success marks the node, a failure takes it away. -/
theorem askedCacheMarkDone_state (cache : AskedCache) (domain : CStr) (succeeded : Bool) :
    AskedCache.state (askedCacheMarkDone cache domain succeeded) =
      Function.update (AskedCache.state cache) domain
        (if succeeded then (AskedCache.state cache domain).map fun _ => .done else none) := by
  funext d
  unfold AskedCache.state askedCacheMarkDone
  rw [Function.update_apply, Lib.Chains.find_alter]
  by_cases hd : d = domain
  · rw [if_pos hd, if_pos hd]
    cases succeeded with
    | true => cases Lib.Chains.find cache domain <;> rfl
    | false => cases Lib.Chains.find cache domain <;> rfl
  · rw [if_neg hd, if_neg hd]

end Nyet
