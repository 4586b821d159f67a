import Nyet.Blocklist.Tsv
import Nyet.Cache.VerdictCalls
import Nyet.Packet.Answers
import Nyet.Proxy.AskedCache
import Nyet.Proxy.RateLimit

/-!
# Deciding about a domain

`check_domain`, the vetting of an unmatched domain (`run_heuristics`,
`flag_for_review`) and the gravity checks (`queue_gravity_check`,
`gravity_check_thread`), on the parts of `DNSProxy` they touch. What several
threads can run in between is a definition of its own, so that the interleaving
models are made of the same steps.

The heuristic score is a parameter: the tree stores it and nothing reads it back
to decide anything. Clock readings and the outcomes of allocations are passed in.
-/

namespace Nyet

/-! ## `check_domain` -/

/-- `QUERY_CACHE_TTL_SECONDS` -/
def queryCacheTtlSeconds : UInt32 := 300

/-- The capacity `proxy_init` gives to either cache. -/
def proxyCacheCapacity : Nat := 4096

/-- `MatchSource` -/
inductive MatchSource where
  | hashExact
  | hashSuffix
  | heuristic
  | none
  deriving DecidableEq, Repr

/-- `CheckResult` -/
structure CheckResult where
  status : Status
  matched : Bool
  matchedDomain : CStr
  source : MatchSource
  mlScore : UInt32
  ttl : UInt32
  deriving DecidableEq, Repr

/-- `CheckResult result = {0}; result.source = MATCH_NONE` -/
def CheckResult.unmatched : CheckResult := ⟨.blocked, false, [], .none, 0, 0⟩

/-- Status of a match; none if there is none. -/
def CheckResult.outcome (r : CheckResult) : Option Status :=
  if r.matched then some r.status else none

/-- `strncpy_s(dst, MAX_DOMAIN_LEN, src, _TRUNCATE)` -/
def truncated (domain : CStr) : CStr := domain.take (maxDomainLen - 1)

/-- The result of a cache hit. -/
def CheckResult.ofCache (rawDomain : CStr) (action : DnsAction) (cachedTtl : UInt32) :
    CheckResult :=
  { status := if action = .block then .blocked else .allowed
    matched := true
    matchedDomain := truncated rawDomain
    source := .hashSuffix
    mlScore := 0
    ttl := if action = .block then cachedTtl else 0 }

/-- The result of a tree lookup. -/
def CheckResult.ofTree (rawDomain : CStr) (r : LookupResult) : CheckResult :=
  if !r.matched then .unmatched
  else
    { status := r.status
      matched := true
      matchedDomain := truncated rawDomain
      source := .hashSuffix
      mlScore := r.mlScore
      ttl := r.ttl }

section

variable {capacity : Nat}

/-- `check_domain` up to a cache hit. The cache may be NULL. -/
def checkCached (cache : Option (DnsCache capacity)) (nowNs : UInt64) (rawDomain : CStr) :
    Option CheckResult × Option (DnsCache capacity) :=
  match cache with
  | none => (none, none)
  | some cache =>
    let (hit, cache) := dnsCacheLookup cache nowNs rawDomain
    (hit.map fun (action, ttl) => .ofCache rawDomain action ttl, some cache)

/-- The end of `check_domain`: a BLOCKED or ALLOWED verdict of the tree is cached. -/
def cacheVerdict (cache : Option (DnsCache capacity)) (nowNs : UInt64) (rawDomain : CStr)
    (r : LookupResult) : Option (DnsCache capacity) :=
  match cache with
  | none => none
  | some cache =>
    if r.matched && r.status ≠ .review then
      let action := if r.status = .blocked then .block else .allow
      let cacheTtl :=
        if r.status = .blocked then (if r.ttl ≠ 0 then r.ttl else defaultBlockTtlSeconds)
        else queryCacheTtlSeconds
      some (dnsCacheInsert cache nowNs rawDomain action cacheTtl).2
    else some cache

/-- `check_domain` without interruption, on the cache and the tree. -/
def checkDomain (cache : Option (DnsCache capacity)) (tree : RadixTree) (nowNs : UInt64)
    (now : UInt32) (rawDomain : CStr) : CheckResult × Option (DnsCache capacity) × RadixTree :=
  match checkCached cache nowNs rawDomain with
  | (some result, cache) => (result, cache, tree)
  | (none, cache) =>
    let (r, tree) := radixLookup tree now rawDomain
    (.ofTree rawDomain r, cacheVerdict cache nowNs rawDomain r, tree)

end

/-! ## Vetting -/

/-- `compute_heuristic_score`: the bits of the score, and the reason. -/
abbrev Scorer := CStr → UInt32 × CStr

/-- The entry `flag_for_review` inserts. -/
def reviewEntry (now mlScore : UInt32) (reason : CStr) : Entry :=
  ⟨.review, 0, 1, now, EntrySource.heuristic.toUInt8, mlScore, some reason⟩

/-- `flag_for_review`, on the tree; the return code of the insert is ignored. -/
def flagForReview (a : Alloc) (tree : RadixTree) (now : UInt32) (domain reason : CStr)
    (mlScore : UInt32) : RadixTree :=
  (radixTreeInsertLive a tree domain (reviewEntry now mlScore reason)).2

/-- `run_heuristics`, on the tree. -/
def runHeuristics (score : Scorer) (a : Alloc) (tree : RadixTree) (now : UInt32)
    (domain : CStr) : RadixTree :=
  flagForReview a tree now domain (score domain).2 (score domain).1

/-! ## Gravity checks -/

/-- `MAX_CONCURRENT_GRAVITY_CHECKS` -/
def maxConcurrentGravityChecks : Nat := 8

/-- What `query_pi_gravity` returns: 1, 0 or -1. -/
inductive GravityResult where
  | blocked
  | clean
  | unreachable
  deriving DecidableEq, Repr

/-- The claims, the semaphore's count, and the running checks by `args->domain`. -/
structure Gravity where
  asked : AskedCache
  permits : Nat
  threads : List CStr

/-- No claims, all slots free. -/
def Gravity.init : Gravity := ⟨.empty, maxConcurrentGravityChecks, []⟩

/-- `queue_gravity_check`: `malloc` of the arguments and `_beginthreadex` may
fail, which gives the slot back and nothing else. -/
def queueGravityCheck (argsOk threadOk : Bool) (g : Gravity) (domain : CStr) : Gravity :=
  if g.permits = 0 then { g with asked := askedCacheMarkDone g.asked domain false }
  else if argsOk && threadOk then
    { g with permits := g.permits - 1, threads := g.threads ++ [truncated domain] }
  else g

/-- The entry `gravity_check_thread` inserts. -/
def gravityEntry (now : UInt32) : Entry :=
  ⟨.blocked, 0, 1, now, EntrySource.piGravity.toUInt8, 0, none⟩

/-- The insert of a confirmed domain into the live tree. -/
def gravityInsert (a : Alloc) (tree : RadixTree) (now : UInt32) (domain : CStr) :
    Int × RadixTree :=
  radixTreeInsertLive a tree domain (gravityEntry now)

/-- The end of `gravity_check_thread`: mark the domain and release the slot. The
thread is given by its place among the running ones. -/
def gravityFinish (g : Gravity) (i : Nat) (domain : CStr) (result : GravityResult) : Gravity :=
  { asked := askedCacheMarkDone g.asked domain (result ≠ .unreachable)
    permits := g.permits + 1
    threads := g.threads.eraseIdx i }

/-! ## What the steps do -/

theorem queueGravityCheck_threads {argsOk threadOk : Bool} {g : Gravity} {d domain : CStr}
    (h : d ∈ (queueGravityCheck argsOk threadOk g domain).threads) :
    d ∈ g.threads ∨ d = truncated domain := by
  rw [queueGravityCheck] at h
  split at h
  · exact Or.inl h
  · split at h
    · exact (List.mem_append.mp h).imp_right List.mem_singleton.mp
    · exact Or.inl h

/-- The claim is released where no slot is free, and kept otherwise. -/
theorem queueGravityCheck_state (argsOk threadOk : Bool) (g : Gravity) (domain : CStr) :
    AskedCache.state (queueGravityCheck argsOk threadOk g domain).asked =
      if g.permits = 0 then Function.update (AskedCache.state g.asked) domain none
      else AskedCache.state g.asked := by
  rw [queueGravityCheck]
  split
  · exact askedCacheMarkDone_state g.asked domain false
  · split <;> rfl

/-- A wire name fits `args->domain` and `matched_domain`. -/
theorem WireName.truncated {domain : CStr} (h : WireName maxDomainLen domain) :
    truncated domain = domain := List.take_of_length_le h.short

theorem CheckResult.ofTree_outcome (rawDomain : CStr) (r : LookupResult) :
    (CheckResult.ofTree rawDomain r).outcome = r.outcome := by
  rw [CheckResult.ofTree, CheckResult.outcome, LookupResult.outcome, LookupResult.toEntry]
  cases r.matched <;> simp [CheckResult.unmatched]

theorem CheckResult.ofCache_outcome (rawDomain : CStr) (action : DnsAction) (ttl : UInt32) :
    (CheckResult.ofCache rawDomain action ttl).outcome =
      some (if action = .block then .blocked else .allowed) := rfl

/-- The action under which a verdict is cached. -/
def Status.cacheAction (st : Status) : DnsAction := if st = .blocked then .block else .allow

section

variable {capacity : Nat} {cache : Option (DnsCache capacity)} {nowNs : UInt64} {d domain : CStr}
  {action : DnsAction}

/-- There is a cache, and it says so. -/
def CacheSays (cache : Option (DnsCache capacity)) (domain : CStr) (action : DnsAction) : Prop :=
  ∃ c, cache = some c ∧ c.Says domain action

theorem checkCached_hit {c : DnsCache capacity} {ttl : UInt32}
    (h : (dnsCacheLookup c nowNs domain).1 = some (action, ttl)) :
    checkCached (some c) nowNs domain =
      (some (.ofCache domain action ttl), some (dnsCacheLookup c nowNs domain).2) := by
  rw [checkCached]
  dsimp only
  rw [h]
  rfl

theorem checkCached_miss {c : DnsCache capacity} (h : (dnsCacheLookup c nowNs domain).1 = none) :
    checkCached (some c) nowNs domain = (none, some (dnsCacheLookup c nowNs domain).2) := by
  rw [checkCached]
  dsimp only
  rw [h]
  rfl

/-- A hit ends the check. -/
theorem checkDomain_hit {c : DnsCache capacity} {ttl : UInt32}
    (h : (dnsCacheLookup c nowNs domain).1 = some (action, ttl)) (tree : RadixTree)
    (now : UInt32) :
    checkDomain (some c) tree nowNs now domain =
      (.ofCache domain action ttl, some (dnsCacheLookup c nowNs domain).2, tree) := by
  rw [checkDomain, checkCached_hit h]

/-- After a miss the tree decides, and its verdict is cached. -/
theorem checkDomain_miss {c : DnsCache capacity} (h : (dnsCacheLookup c nowNs domain).1 = none)
    (tree : RadixTree) (now : UInt32) :
    checkDomain (some c) tree nowNs now domain =
      (.ofTree domain (radixLookup tree now domain).1,
        cacheVerdict (some (dnsCacheLookup c nowNs domain).2) nowNs domain
          (radixLookup tree now domain).1, (radixLookup tree now domain).2) := by
  rw [checkDomain, checkCached_miss h]

theorem checkCached_some {r : CheckResult} (h : (checkCached cache nowNs domain).1 = some r) :
    ∃ action ttl, CacheSays cache domain action ∧ r = .ofCache domain action ttl := by
  unfold checkCached at h
  cases cache with
  | none => cases h
  | some c =>
    obtain ⟨⟨action, ttl⟩, hhit, hr⟩ := Option.map_eq_some_iff.mp h
    exact ⟨action, ttl, ⟨c, rfl, dnsCacheLookup_some hhit⟩, hr.symm⟩

theorem checkCached_verdicts :
    CacheSays (checkCached cache nowNs d).2 domain action ↔ CacheSays cache domain action := by
  unfold checkCached CacheSays
  cases cache with
  | none => exact Iff.rfl
  | some c =>
    constructor
    · rintro ⟨c', hc', hsays⟩
      cases hc'
      exact ⟨c, rfl, dnsCacheLookup_verdicts.mp hsays⟩
    · rintro ⟨c', hc', hsays⟩
      cases hc'
      exact ⟨_, rfl, dnsCacheLookup_verdicts.mpr hsays⟩

/-- The block TTL an entry asks for, 0 standing for the default. -/
def effectiveTtl (ttl : UInt32) : UInt32 := if ttl ≠ 0 then ttl else defaultBlockTtlSeconds

theorem effectiveTtl_ne_zero (ttl : UInt32) : effectiveTtl ttl ≠ 0 := by
  rw [effectiveTtl]
  split
  · assumption
  · decide

theorem effectiveTtl_effectiveTtl (ttl : UInt32) :
    effectiveTtl (effectiveTtl ttl) = effectiveTtl ttl :=
  if_pos (effectiveTtl_ne_zero ttl)

/-- How long a verdict may be trusted: `QUERY_CACHE_TTL_SECONDS` for ALLOWED, for BLOCKED
the block TTL. -/
def verdictTtl (r : LookupResult) : UInt32 :=
  if r.status = .blocked then effectiveTtl r.ttl else queryCacheTtlSeconds

theorem verdictTtl_ne_zero (r : LookupResult) : verdictTtl r ≠ 0 := by
  rw [verdictTtl]
  split
  · exact effectiveTtl_ne_zero r.ttl
  · decide

/-- A verdict of the tree that `dns_cache_insert` takes. -/
def insertsVerdict (cache : DnsCache capacity) (nowNs : UInt64) (domain : CStr)
    (r : LookupResult) : Bool :=
  r.matched && r.status ≠ .review &&
    (dnsCacheInsert cache nowNs domain r.status.cacheAction (verdictTtl r)).1

/-- The verdict is inserted, or the cache is left alone. -/
theorem cacheVerdict_eq (cache : DnsCache capacity) (nowNs : UInt64) (domain : CStr)
    (r : LookupResult) :
    cacheVerdict (some cache) nowNs domain r =
      some (if insertsVerdict cache nowNs domain r = true then
        (dnsCacheInsert cache nowNs domain r.status.cacheAction (verdictTtl r)).2 else cache) := by
  rw [insertsVerdict]
  by_cases hr : (r.matched && decide (r.status ≠ .review)) = true
  · have hstored : cacheVerdict (some cache) nowNs domain r =
        some (dnsCacheInsert cache nowNs domain r.status.cacheAction (verdictTtl r)).2 := if_pos hr
    rw [hstored, hr, Bool.true_and]
    by_cases hlen : dnsCacheMaxDomainLen < domain.length
    · rw [dnsCacheInsert_refused (Or.inr hlen)]
      rfl
    · rw [if_pos (dnsCacheInsert_placed cache nowNs _ (verdictTtl_ne_zero r)
        (Nat.not_lt.mp hlen)).1]
  · have hnot : cacheVerdict (some cache) nowNs domain r = some cache := if_neg hr
    rw [hnot, if_neg]
    intro hall
    rw [Bool.and_eq_true] at hall
    exact hr hall.1

/-- What a cache can say after a verdict was cached, it said before, or it is that
verdict. -/
theorem cacheVerdict_verdicts {r : LookupResult}
    (h : CacheSays (cacheVerdict cache nowNs d r) domain action) :
    CacheSays cache domain action ∨
      (domain = d ∧ d.length ≤ dnsCacheMaxDomainLen ∧
        ∃ st, r.outcome = some st ∧ st ≠ .review ∧ action = st.cacheAction) := by
  unfold cacheVerdict at h
  cases cache with
  | none => exact Or.inl h
  | some c =>
    dsimp only at h
    by_cases hr : (r.matched && decide (r.status ≠ .review)) = true
    · rw [if_pos hr] at h
      obtain ⟨c', hc', hsays⟩ := h
      cases hc'
      rw [Bool.and_eq_true, decide_eq_true_eq] at hr
      rcases dnsCacheInsert_verdicts hsays with hold | ⟨hdomain, haction, hlen⟩
      · exact Or.inl ⟨c, rfl, hold⟩
      · exact Or.inr ⟨hdomain, hlen, r.status, LookupResult.outcome_eq_some.mpr ⟨hr.1, rfl⟩, hr.2,
          haction⟩
    · rw [if_neg hr] at h
      exact Or.inl h

/-- **A verdict that was cached is served** as long as it has not expired. -/
theorem cacheVerdict_served (c : DnsCache capacity) (nowNs : UInt64) {r : LookupResult}
    {st : Status} (hr : r.outcome = some st) (hst : st ≠ .review)
    (hlen : d.length ≤ dnsCacheMaxDomainLen) :
    ∃ ttl, ∀ nowNs', expiredAt nowNs ttl nowNs' = false →
      (checkCached (cacheVerdict (some c) nowNs d r) nowNs' d).1 =
        some (.ofCache d st.cacheAction ttl) := by
  obtain ⟨hmatched, rfl⟩ := LookupResult.outcome_eq_some.mp hr
  have hstored : (r.matched && decide (r.status ≠ .review)) = true := by
    rw [hmatched, decide_eq_true hst]
    rfl
  obtain ⟨ttl, httl, heq⟩ : ∃ ttl, ttl ≠ 0 ∧ cacheVerdict (some c) nowNs d r =
      some (dnsCacheInsert c nowNs d r.status.cacheAction ttl).2 := by
    refine ⟨_, ?_, if_pos hstored⟩
    split
    · split
      · assumption
      · decide
    · decide
  refine ⟨ttl, fun nowNs' hexp => ?_⟩
  rw [heq, checkCached_hit (dnsCacheInsert_served c r.status.cacheAction httl hlen hexp)]

/-- **`check_domain`, by cases**: a cached verdict, or the verdict of the tree. -/
theorem checkDomain_cases (cache : Option (DnsCache capacity)) (tree : RadixTree) (nowNs : UInt64)
    (now : UInt32) (domain : CStr) :
    (∃ action ttl, CacheSays cache domain action ∧
      (checkDomain cache tree nowNs now domain).1 = .ofCache domain action ttl ∧
      (checkDomain cache tree nowNs now domain).2.2 = tree) ∨
    ((checkDomain cache tree nowNs now domain).1 = .ofTree domain (radixLookup tree now domain).1 ∧
      (checkDomain cache tree nowNs now domain).2.2 = (radixLookup tree now domain).2) := by
  rw [checkDomain]
  cases hcached : checkCached cache nowNs domain with
  | mk hit cache' =>
    cases hit with
    | none => exact Or.inr ⟨rfl, rfl⟩
    | some r =>
      obtain ⟨action, ttl, hsays, hr⟩ :=
        checkCached_some (congrArg Prod.fst hcached : (checkCached cache nowNs domain).1 = some r)
      exact Or.inl ⟨action, ttl, hsays, hr, rfl⟩

/-- A check adds its own domain to what the cache can say. -/
theorem checkDomain_verdicts {tree : RadixTree} {now : UInt32}
    (h : CacheSays (checkDomain cache tree nowNs now d).2.1 domain action) :
    CacheSays cache domain action ∨
      (domain = d ∧ ∃ st, (radixLookup tree now d).1.outcome = some st ∧ st ≠ .review ∧
        action = st.cacheAction) := by
  have hkeep := @checkCached_verdicts capacity cache nowNs d domain action
  rw [checkDomain] at h
  cases hcached : checkCached cache nowNs d with
  | mk hit cache' =>
    rw [hcached] at h hkeep
    cases hit with
    | some r => exact Or.inl (hkeep.mp h)
    | none =>
      rcases cacheVerdict_verdicts h with hold | ⟨hd, -, hst⟩
      · exact Or.inl (hkeep.mp hold)
      · exact Or.inr ⟨hd, hst⟩

end

end Nyet
