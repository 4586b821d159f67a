import Nyet.Proxy.Request
import Nyet.Lib.Run

/-!
# Whether a domain is vetted when it is first seen

`process_request` vets a domain that has no match in the tree. But vetting a domain
leaves a REVIEW entry behind, and a lookup matches REVIEW entries by suffix, so the
names below a vetted domain are never unmatched again. `first_sighting_vetted_iff`
says exactly when every first sighting is vetted.

All the proof needs of a run is that the verdict cache only knows domains that were
queried before (`KnowsOnlySeen`).
-/

namespace Nyet

/-- The proxy, and the domains it has decided about so far. -/
structure Sighted where
  server : Server
  seen : List CStr

/-- One event. -/
def Sighted.step (score : Scorer) (s : Sighted) (e : Event) : Sighted :=
  { server := s.server.step score e
    seen := match s.server.query e with
      | some ctx => ctx.domain :: s.seen
      | none => s.seen }

/-- Nothing was queried yet. -/
def Sighted.start (p : Proxy) : Sighted := ⟨.start p, []⟩

/-- The tree as a block map. -/
def Sighted.blocklist (s : Sighted) : BlockMap := s.server.proxy.tree.map

/-- The event queries a name other than the root for the first time, and no BLOCKED
or ALLOWED entry covers it. -/
structure FirstSighting (s : Sighted) (e : Event) (ctx : QueryContext) : Prop where
  query : s.server.query e = some ctx
  nonempty : ctx.domain ≠ []
  unseen : ctx.domain ∉ s.seen
  notBlocked : ¬ s.blocklist.Covers .blocked (normalise ctx.domain)
  notAllowed : ¬ s.blocklist.Covers .allowed (normalise ctx.domain)

/-- The heuristics ran and a gravity check was asked for. -/
def Vetted (actions : List Action) (domain : CStr) : Prop :=
  .runHeuristics domain ∈ actions ∧ ∃ won, .tryClaim domain won ∈ actions

/-- **A first sighting is vetted.** -/
def FirstSightingVetted (score : Scorer) (s : Sighted) (e : Event) : Prop :=
  ∀ ctx, FirstSighting s e ctx → Vetted (s.server.outcome score e).actions ctx.domain

/-- The condition: at a first sighting no REVIEW entry stands at the domain or above
it. -/
def NoReviewAbove (s : Sighted) (e : Event) : Prop :=
  ∀ ctx, FirstSighting s e ctx → ¬ s.blocklist.Covers .review (normalise ctx.domain)

/-! ## The invariant -/

/-- The verdict cache has verdicts on queried domains only. -/
def KnowsOnlySeen (s : Sighted) : Prop :=
  ∀ domain action, CacheSays s.server.proxy.queryCache domain action → domain ∈ s.seen

theorem KnowsOnlySeen.start (time : UInt32) (blocklist learned : Option CStr)
    (queryCacheOk answerCacheOk : Bool) (upstreamAddrs : Upstream → SockAddr) :
    KnowsOnlySeen (.start (Proxy.init time blocklist learned queryCacheOk answerCacheOk
      upstreamAddrs)) := by
  rintro domain action ⟨cache, hcache, hsays⟩
  cases queryCacheOk with
  | false => cases hcache
  | true =>
    have hinit : dnsCacheInit proxyCacheCapacity = some cache := hcache
    exact absurd hsays (dnsCacheInit_verdicts hinit)

theorem KnowsOnlySeen.step {s : Sighted} (h : KnowsOnlySeen s) (score : Scorer) (e : Event) :
    KnowsOnlySeen (s.step score e) := by
  intro domain action hsays
  change CacheSays (s.server.step score e).proxy.queryCache domain action at hsays
  rw [Server.step_proxy] at hsays
  rcases s.server.outcome_cases score e with
    ⟨w, env, clientAddr, rawQuery, ctx, rateLimiter, -, hquery, -, hout⟩ |
    ⟨i, a, now, result, thread, rfl, -, hout⟩ | ⟨hquery, hsame, -⟩
  · -- only `check_domain` writes to the cache, under the queried domain
    have hcache : (handleQuery score { s.server.proxy with rateLimiter := rateLimiter } env
        ctx).proxy.queryCache =
        (checkDomain s.server.proxy.queryCache s.server.proxy.tree env.nowNs env.now
          ctx.domain).2.1 := by
      rcases handleQuery_cases score { s.server.proxy with rateLimiter := rateLimiter } env ctx with
        ⟨-, hsame, -⟩ | ⟨-, hsame, -⟩
      · rw [hsame.queryCache, vet_fst]
        rfl
      · rw [hsame.queryCache]
        rfl
    rw [hout, hcache] at hsays
    unfold Sighted.step
    rw [hquery]
    rcases checkDomain_verdicts hsays with hold | ⟨hdomain, -⟩
    · exact List.mem_cons_of_mem _ (h domain action hold)
    · rw [hdomain]
      exact List.mem_cons_self
  · rw [hout] at hsays
    dsimp only at hsays
    rw [gravityCheckThread_eq] at hsays
    unfold Sighted.step Server.query
    exact h domain action hsays
  · rw [hsame.queryCache] at hsays
    unfold Sighted.step
    rw [hquery]
    exact h domain action hsays

/-! ## One step -/

/-- At a first sighting the verdict is that of the tree, and without a BLOCKED or
ALLOWED entry it is REVIEW or none. -/
theorem FirstSighting.outcome {s : Sighted} (h : KnowsOnlySeen s) {e : Event} {ctx : QueryContext}
    (hfirst : FirstSighting s e ctx) (hname : WireName maxDomainLen ctx.domain) (nowNs : UInt64)
    (now : UInt32) :
    (checkDomain s.server.proxy.queryCache s.server.proxy.tree nowNs now ctx.domain).1.outcome =
        none ↔ ¬ s.blocklist.Covers .review (normalise ctx.domain) := by
  have hlen := (hname.insertable hfirst.nonempty).1
  rcases checkDomain_cases s.server.proxy.queryCache s.server.proxy.tree nowNs now ctx.domain with
    ⟨action, ttl, hsays, -⟩ | ⟨hcheck, -⟩
  · exact absurd (h ctx.domain action hsays) hfirst.unseen
  · rw [hcheck, CheckResult.ofTree_outcome, radixLookup_outcome _ _ hlen]
    show s.blocklist.outcome (normalise ctx.domain) = none ↔ _
    rw [BlockMap.outcome_eq_none]
    constructor
    · intro hall
      exact hall .review
    · intro hreview st
      cases st with
      | blocked => exact hfirst.notBlocked
      | allowed => exact hfirst.notAllowed
      | review => exact hreview

theorem vet_vetted (score : Scorer) (p : Proxy) (env : Env) (domain : CStr) :
    Vetted (vet score p env domain).2 domain := by
  rw [vet, Vetted]
  dsimp only
  split
  · exact ⟨by simp, true, by simp⟩
  · exact ⟨by simp, false, by simp⟩

/-- **One step**: a first sighting is vetted exactly if there is no REVIEW entry on
the way to it. -/
theorem firstSightingVetted_iff {s : Sighted} (h : KnowsOnlySeen s) (score : Scorer) (e : Event) :
    FirstSightingVetted score s e ↔ NoReviewAbove s e := by
  refine forall₂_congr fun ctx hfirst => ?_
  rcases s.server.outcome_cases score e with
    ⟨w, env, clientAddr, rawQuery, ctx', rateLimiter, -, hquery, hname, hout⟩ |
    ⟨i, a, now, result, thread, rfl, -, -⟩ | ⟨hquery, -, -⟩
  · cases hfirst.query.symm.trans hquery
    have hiff := hfirst.outcome h hname env.nowNs env.now
    rw [hout]
    rcases handleQuery_cases score { s.server.proxy with rateLimiter := rateLimiter } env ctx with
      ⟨hnone, -, hactions⟩ | ⟨hsome, -, hactions⟩
    · obtain ⟨hscore, won, hclaim⟩ := vet_vetted score
        (checkedProxy { s.server.proxy with rateLimiter := rateLimiter } env ctx.domain) env
        ctx.domain
      refine iff_of_true ⟨?_, won, ?_⟩ (hiff.mp hnone)
      · exact (hactions (.runHeuristics ctx.domain) trivial).mpr hscore
      · exact (hactions (.tryClaim ctx.domain won) trivial).mpr hclaim
    · refine iff_of_false (fun hvetted => ?_) (fun hreview => hsome (hiff.mpr hreview))
      exact hactions _ hvetted.1 trivial
  · cases hfirst.query
  · cases hfirst.query.symm.trans hquery

/-! ## Whole runs -/

/-- **When first sightings are vetted**: over any run from any two files, every first
sighting is vetted if and only if none happens below a REVIEW entry. -/
theorem first_sighting_vetted_iff (score : Scorer) (time : UInt32)
    (blocklist learned : Option CStr) (queryCacheOk answerCacheOk : Bool)
    (upstreamAddrs : Upstream → SockAddr) (es : List Event) :
    Lib.EveryStep (Sighted.step score) (FirstSightingVetted score)
        (.start (Proxy.init time blocklist learned queryCacheOk answerCacheOk upstreamAddrs)) es ↔
      Lib.EveryStep (Sighted.step score) NoReviewAbove
        (.start (Proxy.init time blocklist learned queryCacheOk answerCacheOk upstreamAddrs)) es :=
  Lib.everyStep_congr (fun _ e h _ => h.step score e) (fun _ e h _ => firstSightingVetted_iff h score e)
    (KnowsOnlySeen.start time blocklist learned queryCacheOk answerCacheOk upstreamAddrs)
    (Lib.everyStep_of_mem (fun _ _ _ => trivial) _)

/-- `example.com` and then `ads.example.com`, each for the first time, with nothing
in the files. -/
def parentThenChild : List Event :=
  [.request 0 (.at 1700000000 0) 1 (queryPacket 1 [cstr "example", cstr "com"] 1),
    .request 1 (.at 1700000000 0) 1 (queryPacket 2 [cstr "ads", cstr "example", cstr "com"] 1)]

/-- Vetting a domain takes the names below it out of the vetting. -/
theorem child_of_vetted_not_vetted :
    ¬ Lib.EveryStep (Sighted.step fun _ => (0, [])) (FirstSightingVetted fun _ => (0, []))
      (.start (Proxy.init 1700000000 none none true true fun _ => ⟨0, 53⟩)) parentThenChild := by
  rintro ⟨-, hchild, -⟩
  -- the verdict the second query meets
  have hreview : (radixLookup (Sighted.step (fun _ => (0, []))
      (.start (Proxy.init 1700000000 none none true true fun _ => ⟨0, 53⟩))
      (.request 0 (.at 1700000000 0) 1 (queryPacket 1 [cstr "example", cstr "com"] 1))
      ).server.proxy.tree 0 (cstr "ads.example.com")).1.outcome = some .review := by
    decide +kernel
  rw [radixLookup_outcome _ _ (by decide)] at hreview
  obtain ⟨-, hblocked, hallowed⟩ := BlockMap.outcome_eq_review.mp hreview
  have hvetted := hchild ⟨1, queryPacket 2 [cstr "ads", cstr "example", cstr "com"] 1,
    cstr "ads.example.com", 1⟩ {
      query := by decide +kernel
      nonempty := by decide
      unseen := by decide +kernel
      notBlocked := hblocked
      notAllowed := hallowed }
  exact absurd hvetted.1 (by decide +kernel)

end Nyet
