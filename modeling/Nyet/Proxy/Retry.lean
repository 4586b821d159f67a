import Nyet.Proxy.Request
import Nyet.Lib.Run

/-!
# Whether a failed gravity check is retried

A check that found the Pi unreachable, or no free slot, takes its claim back so that
the next query for the domain makes a new one. But the query that made the claim
also left a REVIEW entry at the domain, and a domain with a match is not vetted
again. `released_retried_iff` says what is left: only the root name, which the tree
cannot hold, is ever retried.

The invariant `Retrying.Inv` is that every domain with a check behind it has a match
in the tree.
-/

namespace Nyet

/-- The proxy, and the domains whose claim was released and that were not queried
since. -/
structure Retrying where
  server : Server
  released : List CStr

/-- The claims some actions release. -/
def releasedBy (actions : List Action) : List CStr :=
  actions.filterMap fun
    | .markDone domain false => some domain
    | _ => none

/-- One event. A query for a domain is the occurrence that is to retry it. -/
def Retrying.step (score : Scorer) (s : Retrying) (e : Event) : Retrying :=
  { server := s.server.step score e
    released := releasedBy (s.server.outcome score e).actions ++
      match s.server.query e with
      | some ctx => s.released.filter (· ≠ ctx.domain)
      | none => s.released }

/-- No claim was made yet. -/
def Retrying.start (p : Proxy) : Retrying := ⟨.start p, []⟩

/-- The tree as a block map. -/
def Retrying.blocklist (s : Retrying) : BlockMap := s.server.proxy.tree.map

/-- The event is the next query for a domain whose claim was released, and no BLOCKED
or ALLOWED entry covers it. -/
structure DueForRetry (s : Retrying) (e : Event) (ctx : QueryContext) : Prop where
  query : s.server.query e = some ctx
  released : ctx.domain ∈ s.released
  notBlocked : ¬ s.blocklist.Covers .blocked (normalise ctx.domain)
  notAllowed : ¬ s.blocklist.Covers .allowed (normalise ctx.domain)

/-- **A released claim is made again**, and the check queued. -/
def RetriedOnceReleased (score : Scorer) (s : Retrying) (e : Event) : Prop :=
  ∀ ctx, DueForRetry s e ctx →
    .tryClaim ctx.domain true ∈ (s.server.outcome score e).actions ∧
    .queueGravityCheck ctx.domain ∈ (s.server.outcome score e).actions

/-- The condition: the query is for the root name. -/
def ReleasedIsRoot (s : Retrying) (e : Event) : Prop :=
  ∀ ctx, DueForRetry s e ctx → ctx.domain = []

/-- No allocation of the event fails. -/
def Event.MemoryToSpare : Event → Prop
  | .request _ env _ _ => env.treeAlloc = [] ∧ env.claimAlloc = [] ∧ env.argsOk = true
  | .receive _ _ _ _ _ _ => True
  | .gravity _ a _ _ => a = []

theorem mem_releasedBy {actions : List Action} {domain : CStr} :
    domain ∈ releasedBy actions ↔ .markDone domain false ∈ actions := by
  rw [releasedBy]
  rw [List.mem_filterMap]
  constructor
  · rintro ⟨a, ha, hd⟩
    split at hd
    · cases hd
      exact ha
    · cases hd
  · intro h
    exact ⟨_, h, rfl⟩

/-! ## What vetting does -/

section

variable (score : Scorer) {p : Proxy} {env : Env} {domain : CStr}

/-- Vetting makes a domain match that can be inserted. -/
theorem vet_tree (halloc : env.treeAlloc = []) :
    p.tree.Grows (vet score p env domain).1.tree ∧
      (p.tree.root.isSome = true → Insertable domain →
        (vet score p env domain).1.tree.map.Matches (normalise domain)) := by
  have htree : (vet score p env domain).1.tree =
      (radixTreeInsertLive [] p.tree domain
        (reviewEntry env.now (score domain).1 (score domain).2)).2 := by
    rw [vet_fst, ← halloc]
    rfl
  rw [htree]
  constructor
  · exact radixTreeInsertLive_grows _ _ _
  · intro hroot hins
    exact radixTreeInsertLive_matches hroot hins _

theorem vet_threads {d : CStr} (h : d ∈ (vet score p env domain).1.gravity.threads) :
    d ∈ p.gravity.threads ∨ d = truncated domain := by
  rw [vet] at h
  dsimp only at h
  split at h
  · rcases queueGravityCheck_threads h with hd | hd
    · exact Or.inl hd
    · exact Or.inr hd
  · exact Or.inl h

/-- A domain without a node is claimed and queued; a claim released on the spot leaves
no node. -/
theorem vet_unclaimed (halloc : env.claimAlloc = [])
    (hnone : AskedCache.state p.gravity.asked domain = none) :
    .tryClaim domain true ∈ (vet score p env domain).2 ∧
    .queueGravityCheck domain ∈ (vet score p env domain).2 := by
  have hwon := ((askedCacheTryClaim_spec p.gravity.asked domain).1 hnone).1
  rw [vet]
  dsimp only
  rw [halloc, if_pos hwon]
  exact ⟨by simp, by simp⟩

/-- Other domains keep their state. -/
theorem vet_state_ne (halloc : env.claimAlloc = []) {d : CStr} (hd : d ≠ domain) :
    AskedCache.state (vet score p env domain).1.gravity.asked d =
      AskedCache.state p.gravity.asked d := by
  have hclaim : AskedCache.state (askedCacheTryClaim [] p.gravity.asked domain).2 d =
      AskedCache.state p.gravity.asked d := by
    obtain ⟨hfresh, htaken⟩ := askedCacheTryClaim_spec p.gravity.asked domain
    by_cases hnone : AskedCache.state p.gravity.asked domain = none
    · rw [(hfresh hnone).2, Function.update_of_ne hd]
    · rw [htaken hnone]
  rw [vet]
  dsimp only
  rw [halloc]
  split
  · rw [queueGravityCheck_state]
    split
    · rw [Function.update_of_ne hd]
      exact hclaim
    · exact hclaim
  · exact hclaim

/-- A claim that is released on the spot leaves no node. -/
theorem vet_released {d : CStr} (h : .markDone d false ∈ (vet score p env domain).2) :
    d = domain ∧ AskedCache.state (vet score p env domain).1.gravity.asked d = none := by
  rw [vet] at h ⊢
  dsimp only at h ⊢
  split at h
  · next hwon =>
    rw [if_pos hwon, queueGravityCheck_state]
    split at h
    · next hbusy =>
      have hd : d = domain := by simpa using h
      rw [if_pos hbusy, hd, Function.update_self]
      exact ⟨rfl, rfl⟩
    · simp at h
  · simp at h

end

/-! ## The invariant -/

/-- Every domain that was released or is being checked has a match, but for the root
name, which has neither a match nor, once released, a claim. -/
structure Retrying.Inv (s : Retrying) : Prop where
  rooted : s.server.proxy.tree.root.isSome = true
  released : ∀ d ∈ s.released, d ≠ [] → s.blocklist.Matches (normalise d)
  running : ∀ d ∈ s.server.proxy.gravity.threads, d ≠ [] → s.blocklist.Matches (normalise d)
  root : [] ∈ s.released → AskedCache.state s.server.proxy.gravity.asked [] = none
  cached : ∀ action, ¬ CacheSays s.server.proxy.queryCache [] action

theorem Retrying.Inv.start (time : UInt32) (blocklist learned : Option CStr)
    (queryCacheOk answerCacheOk : Bool) (upstreamAddrs : Upstream → SockAddr) :
    (Retrying.start (Proxy.init time blocklist learned queryCacheOk answerCacheOk
      upstreamAddrs)).Inv where
  rooted := (initialTree_refines _ blocklist learned).isSome
  released d hd := by cases hd
  running d hd := by cases hd
  root h := by cases h
  cached action := by
    rintro ⟨cache, hcache, hsays⟩
    cases queryCacheOk with
    | false => cases hcache
    | true =>
      have hinit : dnsCacheInit proxyCacheCapacity = some cache := hcache
      exact dnsCacheInit_verdicts hinit hsays

theorem checkedProxy_grows (p : Proxy) (env : Env) (domain : CStr) :
    p.tree.Grows (checkedProxy p env domain).tree := by
  rw [checkedProxy]
  dsimp only
  rcases checkDomain_cases p.queryCache p.tree env.nowNs env.now domain with
    ⟨-, -, -, -, htree⟩ | ⟨-, htree⟩
  · rw [htree]
    exact .refl _
  · rw [htree]
    exact radixLookup_grows _ _ _

/-- The cache learns nothing about the root name: the tree does not match it. -/
theorem checkedProxy_cached {p : Proxy} (h : ∀ action, ¬ CacheSays p.queryCache [] action)
    (env : Env) (domain : CStr) (action : DnsAction) :
    ¬ CacheSays (checkedProxy p env domain).queryCache [] action := by
  intro hsays
  rcases checkDomain_verdicts hsays with hold | ⟨rfl, st, hst, -⟩
  · exact h action hold
  · rw [radixLookup_root] at hst
    cases hst

theorem gravityCheckThread_grows (p : Proxy) (now : UInt32) (i : Nat) (domain : CStr)
    (result : GravityResult) :
    p.tree.Grows (gravityCheckThread p [] now i domain result).tree := by
  rw [gravityCheckThread]
  dsimp only
  split
  · exact radixTreeInsertLive_grows _ _ _
  · exact .refl _

/-- More matches and fewer releases do no harm. -/
theorem Retrying.Inv.of_grows {s t : Retrying} (h : s.Inv)
    (hgrows : s.server.proxy.tree.Grows t.server.proxy.tree)
    (hreleased : ∀ d ∈ t.released, d ∈ s.released)
    (hgravity : t.server.proxy.gravity = s.server.proxy.gravity)
    (hcached : ∀ action, ¬ CacheSays t.server.proxy.queryCache [] action) : t.Inv where
  rooted := hgrows.root h.rooted
  released d hd hne := hgrows.keeps _ (h.released d (hreleased d hd) hne)
  running d hd hne := by
    rw [hgravity] at hd
    exact hgrows.keeps _ (h.running d hd hne)
  root hd := by
    rw [hgravity]
    exact h.root (hreleased [] hd)
  cached := hcached

/-- Vetting a domain that is not among the released ones. -/
theorem Retrying.Inv.vet {s t : Retrying} (h : s.Inv) {domain : CStr}
    (hname : WireName maxDomainLen domain) (hnew : domain ∉ s.released) {score : Scorer} {env : Env}
    (htree : env.treeAlloc = []) (hclaim : env.claimAlloc = [])
    (hsame : SameDecisions (Nyet.vet score s.server.proxy env domain).1 t.server.proxy)
    (hreleased : ∀ d ∈ t.released,
      .markDone d false ∈ (Nyet.vet score s.server.proxy env domain).2 ∨ d ∈ s.released) :
    t.Inv := by
  obtain ⟨hgrows, hmatch⟩ := @vet_tree score s.server.proxy env domain htree
  rw [← hsame.tree] at hgrows hmatch
  have hself : domain ≠ [] → t.blocklist.Matches (normalise domain) :=
    fun hne => hmatch h.rooted (hname.insertable hne)
  constructor
  · exact hgrows.root h.rooted
  · intro d hd hne
    rcases hreleased d hd with hdone | hold
    · obtain ⟨rfl, -⟩ := vet_released score hdone
      exact hself hne
    · exact hgrows.keeps _ (h.released d hold hne)
  · intro d hd hne
    rw [hsame.gravity] at hd
    rcases vet_threads score hd with hd | hd
    · exact hgrows.keeps _ (h.running d hd hne)
    · have hd : d = domain := hd.trans hname.truncated
      rw [hd] at hne ⊢
      exact hself hne
  · -- no entry can hold the root name, so its claim has to be free again
    intro hd
    rw [hsame.gravity]
    rcases hreleased [] hd with hdone | hold
    · exact (vet_released score hdone).2
    · rw [vet_state_ne score hclaim (ne_of_mem_of_not_mem hold hnew)]
      exact h.root hold
  · intro action
    rw [hsame.queryCache, vet_fst]
    exact h.cached action

/-- **A query keeps the invariant.** -/
theorem Retrying.Inv.query {s : Retrying} (h : s.Inv) {p : Proxy} {env : Env} {ctx : QueryContext}
    (hname : WireName maxDomainLen ctx.domain) (score : Scorer)
    (hp : SameDecisions s.server.proxy p) (htree : env.treeAlloc = [])
    (hclaim : env.claimAlloc = []) {server : Server}
    (hserver : server.proxy = (handleQuery score p env ctx).proxy) :
    (Retrying.mk server (releasedBy (handleQuery score p env ctx).actions ++
      s.released.filter (· ≠ ctx.domain))).Inv := by
  -- the check comes first, and from then on the domain no longer counts as released
  have hchecked : (Retrying.mk { s.server with proxy := checkedProxy p env ctx.domain }
      (s.released.filter (· ≠ ctx.domain))).Inv :=
    h.of_grows (hp.tree ▸ checkedProxy_grows p env ctx.domain)
      (fun d hd => (List.mem_filter.mp hd).1) hp.gravity
      (checkedProxy_cached (fun action => hp.queryCache ▸ h.cached action) env ctx.domain)
  have hnew : ctx.domain ∉ s.released.filter (· ≠ ctx.domain) := by
    intro hmem
    exact of_decide_eq_true (List.mem_filter.mp hmem).2 rfl
  rcases handleQuery_cases score p env ctx with ⟨-, hsame, hactions⟩ | ⟨-, hsame, hactions⟩
  · -- the domain is vetted
    rw [← hserver] at hsame
    refine hchecked.vet hname hnew htree hclaim hsame fun d hd => ?_
    rcases List.mem_append.mp hd with hd | hd
    · exact Or.inl ((hactions (.markDone d false) trivial).mp (mem_releasedBy.mp hd))
    · exact Or.inr hd
  · -- the domain has a match
    rw [← hserver] at hsame
    have hnone : releasedBy (handleQuery score p env ctx).actions = [] := by
      refine List.eq_nil_iff_forall_not_mem.mpr fun d hd => ?_
      exact hactions _ (mem_releasedBy.mp hd) trivial
    rw [hnone, List.nil_append]
    exact hchecked.of_grows (hsame.tree ▸ .refl _) (fun _ hd => hd) hsame.gravity
      (hsame.queryCache ▸ hchecked.cached)

/-- **The end of a gravity thread keeps the invariant.** -/
theorem Retrying.Inv.gravity {s : Retrying} (h : s.Inv) {now : UInt32} {i : Nat} {domain : CStr}
    (hi : s.server.proxy.gravity.threads[i]? = some domain) (result : GravityResult)
    {server : Server}
    (hserver : server.proxy = gravityCheckThread s.server.proxy [] now i domain result) :
    (Retrying.mk server
      (releasedBy [.markDone domain (result ≠ .unreachable)] ++ s.released)).Inv := by
  have hgrows := gravityCheckThread_grows s.server.proxy now i domain result
  have hmem : domain ∈ s.server.proxy.gravity.threads := List.mem_of_getElem? hi
  -- the claim is released only if the Pi could not be reached
  have hreleased : ∀ {d}, d ∈ releasedBy [.markDone domain (result ≠ .unreachable)] →
      d = domain ∧ result = .unreachable := by
    intro d hd
    have heq := List.mem_singleton.mp (mem_releasedBy.mp hd)
    injection heq with hdomain hresult
    exact ⟨hdomain, by simpa using hresult⟩
  have hthreads : server.proxy.gravity.threads = s.server.proxy.gravity.threads.eraseIdx i := by
    rw [hserver, gravityCheckThread_eq]
    rfl
  have hstate : AskedCache.state server.proxy.gravity.asked =
      Function.update (AskedCache.state s.server.proxy.gravity.asked) domain
        (if decide (result ≠ .unreachable) = true
          then (AskedCache.state s.server.proxy.gravity.asked domain).map fun _ => .done
          else none) := by
    rw [hserver, ← askedCacheMarkDone_state, gravityCheckThread_eq]
    rfl
  have hcache : server.proxy.queryCache = s.server.proxy.queryCache := by
    rw [hserver, gravityCheckThread_eq]
  constructor
  · show server.proxy.tree.root.isSome = true
    rw [hserver]
    exact hgrows.root h.rooted
  · intro d hd hne
    show server.proxy.tree.map.Matches _
    rw [hserver]
    rcases List.mem_append.mp hd with hd | hd
    · obtain ⟨rfl, -⟩ := hreleased hd
      exact hgrows.keeps _ (h.running d hmem hne)
    · exact hgrows.keeps _ (h.released d hd hne)
  · intro d hd hne
    change d ∈ server.proxy.gravity.threads at hd
    show server.proxy.tree.map.Matches _
    rw [hthreads] at hd
    rw [hserver]
    exact hgrows.keeps _ (h.running d (List.mem_of_mem_eraseIdx hd) hne)
  · intro hd
    show AskedCache.state server.proxy.gravity.asked [] = none
    rw [hstate, Function.update_apply]
    rcases List.mem_append.mp hd with hnew | hold
    · obtain ⟨rfl, hresult⟩ := hreleased hnew
      rw [if_pos rfl, hresult]
      rfl
    · split
      · next heq =>
        subst heq
        rw [h.root hold]
        split <;> rfl
      · exact h.root hold
  · intro action
    show ¬ CacheSays server.proxy.queryCache [] action
    rw [hcache]
    exact h.cached action

/-- **One event keeps the invariant.** -/
theorem Retrying.Inv.step {s : Retrying} (h : s.Inv) (score : Scorer) {e : Event}
    (he : e.MemoryToSpare) : (s.step score e).Inv := by
  have hproxy := s.server.step_proxy score e
  rw [Retrying.step]
  rcases s.server.outcome_cases score e with
    ⟨w, env, clientAddr, rawQuery, ctx, rateLimiter, rfl, hquery, hname, hout⟩ |
    ⟨i, a, now, result, domain, rfl, hi, hout⟩ | ⟨hquery, hsame, hactions⟩
  · rw [hquery]
    rw [hout] at hproxy ⊢
    obtain ⟨htree, hclaim, -⟩ := he
    exact h.query (p := { s.server.proxy with rateLimiter := rateLimiter }) hname score
      ⟨rfl, rfl, rfl⟩ htree hclaim hproxy
  · cases he
    rw [hout] at hproxy ⊢
    exact h.gravity hi result hproxy
  · rw [hquery]
    have hnone : releasedBy (s.server.outcome score e).actions = [] := by
      refine List.eq_nil_iff_forall_not_mem.mpr fun d hd => ?_
      exact hactions _ (mem_releasedBy.mp hd) trivial
    rw [hnone, List.nil_append]
    rw [← hproxy] at hsame
    exact h.of_grows (hsame.tree ▸ .refl _) (fun _ hd => hd) hsame.gravity
      (hsame.queryCache ▸ h.cached)

/-! ## One step -/

/-- **One step**: a released claim is made again exactly if the domain is the root
name. -/
theorem Retrying.Inv.retried_iff {s : Retrying} (h : s.Inv) (score : Scorer) {e : Event}
    (he : e.MemoryToSpare) : RetriedOnceReleased score s e ↔ ReleasedIsRoot s e := by
  refine forall₂_congr fun ctx hdue => ?_
  rcases s.server.outcome_cases score e with
    ⟨w, env, clientAddr, rawQuery, ctx', rateLimiter, rfl, hquery, hname, hout⟩ |
    ⟨i, a, now, result, thread, rfl, -, -⟩ | ⟨hquery, -, -⟩
  · cases hdue.query.symm.trans hquery
    obtain ⟨-, hclaim, -⟩ := he
    rw [hout]
    -- a released domain has a match unless it is the root name
    have hcheck : (checkDomain s.server.proxy.queryCache s.server.proxy.tree env.nowNs env.now
        ctx.domain).1.outcome = none ↔ ctx.domain = [] := by
      rcases checkDomain_cases s.server.proxy.queryCache s.server.proxy.tree env.nowNs env.now
        ctx.domain with ⟨action, ttl, hsays, hcheck, -⟩ | ⟨hcheck, -⟩
      · rw [hcheck, CheckResult.ofCache_outcome]
        refine iff_of_false (fun hnone => by cases hnone) fun hroot => ?_
        rw [hroot] at hsays
        exact h.cached action hsays
      · rw [hcheck, CheckResult.ofTree_outcome]
        constructor
        · intro hnone
          by_contra hne
          rw [radixLookup_outcome _ _ (hname.insertable hne).1] at hnone
          exact BlockMap.outcome_ne_none.mpr (h.released _ hdue.released hne) hnone
        · intro hroot
          rw [hroot, radixLookup_root]
          rfl
    rcases handleQuery_cases score { s.server.proxy with rateLimiter := rateLimiter } env ctx with
      ⟨hnone, -, hactions⟩ | ⟨hsome, -, hactions⟩
    · have hroot := hcheck.mp hnone
      refine iff_of_true ?_ hroot
      have hreleased := hdue.released
      rw [hroot] at hreleased
      obtain ⟨hwon, hqueued⟩ := @vet_unclaimed score
        (checkedProxy { s.server.proxy with rateLimiter := rateLimiter } env ctx.domain) env
        ctx.domain hclaim (by rw [hroot]; exact h.root hreleased)
      exact ⟨(hactions (.tryClaim ctx.domain true) trivial).mpr hwon,
        (hactions (.queueGravityCheck ctx.domain) trivial).mpr hqueued⟩
    · refine iff_of_false (fun hretried => ?_) (fun hroot => hsome (hcheck.mpr hroot))
      exact hactions _ hretried.1 trivial
  · cases hdue.query
  · cases hdue.query.symm.trans hquery

/-! ## Whole runs -/

/-- **What is retried**: over any run from any two files with memory to spare, every
released claim is made again by the next query for its domain if and only if that
domain is always the root name. -/
theorem released_retried_iff (score : Scorer) (time : UInt32) (blocklist learned : Option CStr)
    (queryCacheOk answerCacheOk : Bool) (upstreamAddrs : Upstream → SockAddr) {es : List Event}
    (hmem : ∀ e ∈ es, e.MemoryToSpare) :
    Lib.EveryStep (Retrying.step score) (RetriedOnceReleased score)
        (.start (Proxy.init time blocklist learned queryCacheOk answerCacheOk upstreamAddrs)) es ↔
      Lib.EveryStep (Retrying.step score) ReleasedIsRoot
        (.start (Proxy.init time blocklist learned queryCacheOk answerCacheOk upstreamAddrs)) es :=
  Lib.everyStep_congr (fun _ _ h he => h.step score he) (fun _ _ h he => h.retried_iff score he)
    (Retrying.Inv.start time blocklist learned queryCacheOk answerCacheOk upstreamAddrs)
    (Lib.everyStep_of_mem (fun _ => hmem) _)

/-- A domain is asked for, the Pi is out of reach, and the domain is asked for again. -/
def askAgain (labels : List CStr) : List Event :=
  [.request 0 (.at 1700000000 0) 1 (queryPacket 1 labels 1),
    .gravity 0 [] 189000000 .unreachable,
    .request 1 (.at 1700000000 0) 1 (queryPacket 2 labels 1)]

theorem askAgain_memoryToSpare (labels : List CStr) : ∀ e ∈ askAgain labels, e.MemoryToSpare := by
  intro e he
  simp only [askAgain, List.mem_cons, List.not_mem_nil, or_false] at he
  rcases he with rfl | rfl | rfl
  · exact ⟨rfl, rfl, rfl⟩
  · exact rfl
  · exact ⟨rfl, rfl, rfl⟩

/-- The root name is retried. -/
theorem released_retried_root :
    [] ∈ (Lib.run (Retrying.step fun _ => (0, []))
      (.start (Proxy.init 1700000000 none none true true fun _ => ⟨0, 53⟩))
      ((askAgain []).take 2)).released ∧
    Lib.EveryStep (Retrying.step fun _ => (0, [])) (RetriedOnceReleased fun _ => (0, []))
      (.start (Proxy.init 1700000000 none none true true fun _ => ⟨0, 53⟩)) (askAgain []) := by
  refine ⟨by decide +kernel, (released_retried_iff (fun _ => (0, [])) 1700000000 none none true true
    (fun _ => ⟨0, 53⟩) (askAgain_memoryToSpare [])).mpr ⟨?_, ?_, ?_, trivial⟩⟩
  · intro ctx hdue
    have hquery := hdue.released
    cases hquery
  · intro ctx hdue
    cases hdue.query
  · intro ctx hdue
    have hroot : (Server.query (Lib.run (Retrying.step fun _ => (0, []))
        (.start (Proxy.init 1700000000 none none true true fun _ => ⟨0, 53⟩))
        ((askAgain []).take 2)).server
        (.request 1 (.at 1700000000 0) 1 (queryPacket 2 [] 1))).map (·.domain) = some [] := by
      decide +kernel
    have hctx := congrArg (Option.map (·.domain)) hdue.query
    exact Option.some.inj (hctx.symm.trans hroot)

/-- Any other name is not. -/
theorem released_not_retried :
    ¬ Lib.EveryStep (Retrying.step fun _ => (0, [])) (RetriedOnceReleased fun _ => (0, []))
      (.start (Proxy.init 1700000000 none none true true fun _ => ⟨0, 53⟩))
      (askAgain [cstr "example", cstr "com"]) := by
  rintro ⟨-, -, hagain, -⟩
  -- the verdict the second query for the domain meets
  have hreview : (radixLookup (Lib.run (Retrying.step fun _ => (0, []))
      (.start (Proxy.init 1700000000 none none true true fun _ => ⟨0, 53⟩))
      ((askAgain [cstr "example", cstr "com"]).take 2)).server.proxy.tree 0
      (cstr "example.com")).1.outcome = some .review := by
    decide +kernel
  rw [radixLookup_outcome _ _ (by decide)] at hreview
  obtain ⟨-, hblocked, hallowed⟩ := BlockMap.outcome_eq_review.mp hreview
  have hretried := hagain ⟨1, queryPacket 2 [cstr "example", cstr "com"] 1,
    cstr "example.com", 1⟩ {
      query := by decide +kernel
      released := by decide +kernel
      notBlocked := hblocked
      notAllowed := hallowed }
  exact absurd hretried.1 (by decide +kernel)

end Nyet
