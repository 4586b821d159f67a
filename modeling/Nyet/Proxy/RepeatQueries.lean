import Nyet.Cache.AnswerCalls
import Nyet.Proxy.CacheTransparency
import Nyet.Proxy.Request

/-!
# Whether repeat queries are answered from memory

The reply to the first query for an unmatched domain is put into the answer cache, "so
the NEXT query for this same domain can be served straight from" there. But the same
query has left a REVIEW entry for the domain, and the gate in front of the cache turns
REVIEW away. `repeat_served_iff` says exactly which repeat queries are served: those for
domains that no REVIEW entry covers.

A run is one of the server of `Request.lean`, which has no reloads. What has been put
into the cache for an unmatched domain, and not been covered by a promotion since, is
recorded beside it.
-/

namespace Nyet

/-- `REVIEW_THRESHOLD`, the bits of `0.5f`. -/
def reviewThreshold : UInt32 := 0x3F000000

/-- `ml_score >= REVIEW_THRESHOLD`. Floats that are not negative are ordered as their bits
are; beyond infinity are the NaNs. -/
def crossesThreshold (mlScore : UInt32) : Bool :=
  reviewThreshold ≤ mlScore && mlScore ≤ 0x7F800000

/-- An answer put into `dns_answer_cache`: its key, the time and the TTL. -/
structure Fill where
  domain : CStr
  qtype : UInt16
  nowNs : UInt64
  ttlSeconds : UInt32
  deriving DecidableEq, Repr

/-- The server, which workers wait for the reply to a query without a match and with a low
score, and what the replies to such queries have put into the answer cache. Promotions
that cover a domain take it out of either. -/
structure Serving where
  server : Server
  unmatched : Nat → Bool
  fills : List Fill

/-- The domain a gravity thread promotes to BLOCKED. -/
def Server.promotes (s : Server) : Event → Option CStr
  | .gravity i a now .blocked =>
    (s.proxy.gravity.threads[i]?).bind fun d =>
      if (gravityInsert a s.proxy.tree now d).1 = 0 then some d else none
  | _ => none

/-- The promotion covers the domain. -/
def Server.promotesAbove (s : Server) (e : Event) (domain : CStr) : Bool :=
  match s.promotes e with
  | some d => decide (normalise d <+: normalise domain)
  | none => false

/-- The query has no match and its domain scores low. -/
def Server.asksUnmatched (score : Scorer) (s : Server) (env : Env) (ctx : QueryContext) : Bool :=
  decide ((checkDomain s.proxy.queryCache s.proxy.tree env.nowNs env.now ctx.domain).1.outcome = none) &&
    !crossesThreshold (score ctx.domain).1

/-- The workers that wait for the reply to an unmatched query, after an event. -/
def Serving.nextUnmatched (score : Scorer) (s : Serving) (e : Event) : Nat → Bool :=
  match e, s.server.query e with
  | .request w env _ _, some ctx =>
    Function.update s.unmatched w (s.server.asksUnmatched score env ctx)
  | _, _ => fun w => s.unmatched w && (s.server.worker w).all fun waiting =>
      !s.server.promotesAbove e waiting.ctx.domain

/-- What an event puts into the answer cache in reply to an unmatched query. -/
def Serving.newFills (score : Scorer) (s : Serving) (e : Event) : List Fill :=
  match e with
  | .receive w _ _ _ nowNs _ =>
    if s.unmatched w then
      (s.server.outcome score e).actions.filterMap fun
        | .cacheAnswer ctx _ answer =>
          if Acceptable ctx.domain answer then
            some ⟨ctx.domain, ctx.qtype, nowNs, answer.ttlSeconds⟩
          else none
        | _ => none
    else []
  | _ => []

/-- One event. -/
def Serving.step (score : Scorer) (s : Serving) (e : Event) : Serving :=
  { server := s.server.step score e
    unmatched := s.nextUnmatched score e
    fills := (s.newFills score e ++ s.fills).filter fun f => !s.server.promotesAbove e f.domain }

/-- Nothing has been asked yet. -/
def Serving.start (p : Proxy) : Serving := ⟨.start p, fun _ => false, []⟩

/-- The event is a query for what an earlier reply has put into the cache: the record is in
its slot still, and its TTL has not run out since. -/
structure RepeatQuery (s : Serving) (e : Event) (env : Env) (ctx : QueryContext) (f : Fill)
    (cache : AnswerCache proxyCacheCapacity) (i : Fin proxyCacheCapacity) : Prop where
  event : ∃ w clientAddr rawQuery, e = .request w env clientAddr rawQuery
  query : s.server.query e = some ctx
  address : ctx.qtype = 1 ∨ ctx.qtype = 28
  fill : f ∈ s.fills
  domain : ctx.domain = f.domain
  qtype : ctx.qtype = f.qtype
  cached : s.server.proxy.answerCache = some cache
  held : (cache.entries i).Holds f.domain f.qtype
  ttl : (cache.entries i).ttlSeconds = f.ttlSeconds
  within : f.nowNs.toNat ≤ env.nowNs.toNat ∧
    env.nowNs.toNat ≤ f.nowNs.toNat + f.ttlSeconds.toNat * 10 ^ 9

/-- The client is answered from `dns_answer_cache`, and no upstream is asked. -/
def AnsweredFromCache (out : Outcome) (ctx : QueryContext) : Prop :=
  (∃ response, .sendCached ctx response ∈ out.actions) ∧
    ∀ upstream query, .forward upstream query ∉ out.actions

/-- **A repeat query is served from memory.** -/
def RepeatServed (score : Scorer) (s : Serving) (e : Event) : Prop :=
  ∀ env ctx f cache i, RepeatQuery s e env ctx f cache i →
    AnsweredFromCache (s.server.outcome score e) ctx

/-- The condition: no REVIEW entry covers the domain, `entry_expired` does not take the
record for a stale one, and the response fits its buffer. -/
def NothingReviewed (s : Serving) (e : Event) : Prop :=
  ∀ env ctx f cache i, RepeatQuery s e env ctx f cache i →
    ¬ s.server.proxy.tree.map.Covers .review (normalise ctx.domain) ∧
      entryExpired (cache.entries i) env.nowNs = false ∧
      ctx.rawQuery.length + (cache.entries i).numRecords.toNat *
        (2 + 2 + 2 + 4 + 2 + (cache.entries i).recordBytes.toNat) ≤ bufferSize + 32

/-- A thread whose answer is BLOCKED and whose insert succeeds promotes everything at or below its
domain. -/
theorem Server.promotesAbove_of_blocked {s : Server} {i : Nat} {a : Alloc} {now : UInt32}
    {thread domain : CStr} (hthread : s.proxy.gravity.threads[i]? = some thread)
    (hrc : (gravityInsert a s.proxy.tree now thread).1 = 0)
    (hpre : normalise thread <+: normalise domain) :
    s.promotesAbove (.gravity i a now .blocked) domain = true := by
  have hpromotes : s.promotes (.gravity i a now .blocked) = some thread := by
    show (s.proxy.gravity.threads[i]?).bind _ = _
    rw [hthread, Option.bind_some, if_pos hrc]
  rw [Server.promotesAbove]
  rw [hpromotes]
  exact decide_eq_true hpre

/-! ## Nothing decides about the domain -/

/-- A REVIEW entry decides nothing. -/
theorem runHeuristics_decided {score : Scorer} {a : Alloc} {t : RadixTree} {now : UInt32}
    {domain : CStr} {ls : List Label}
    (h : (runHeuristics score a t now domain).map.Decided ls) : t.map.Decided ls := by
  obtain ⟨ks, e, hne, hpre, he, hst⟩ := h
  by_cases hks : Insertable domain → ks ≠ normalise domain
  · exact ⟨ks, e, hne, hpre, (radixTreeInsertLive_other a t _ hks).symm.trans he, hst⟩
  · rw [not_not.mp (not_forall.mp hks).choose_spec] at he hne hpre
    rcases radixTreeInsertLive_self a t domain (reviewEntry now (score domain).1 (score domain).2)
      with hkeep | hlost | ⟨-, hnew⟩
    · exact ⟨_, e, hne, hpre, hkeep.symm.trans he, hst⟩
    · cases hlost.symm.trans he
    · cases hnew.symm.trans he
      exact absurd rfl hst

/-- A BLOCKED entry decides what it covers. -/
theorem gravityInsert_decided {a : Alloc} {t : RadixTree} {now : UInt32} {domain : CStr}
    {ls : List Label} (h : (gravityInsert a t now domain).2.map.Decided ls) :
    t.map.Decided ls ∨ ((gravityInsert a t now domain).1 = 0 ∧ normalise domain <+: ls) := by
  obtain ⟨ks, e, hne, hpre, he, hst⟩ := h
  by_cases hks : Insertable domain → ks ≠ normalise domain
  · exact Or.inl ⟨ks, e, hne, hpre, (radixTreeInsertLive_other a t _ hks).symm.trans he, hst⟩
  · rw [not_not.mp (not_forall.mp hks).choose_spec] at he hne hpre
    rcases radixTreeInsertLive_self a t domain (gravityEntry now) with
      hkeep | hlost | ⟨hrc, -⟩
    · exact Or.inl ⟨_, e, hne, hpre, hkeep.symm.trans he, hst⟩
    · cases hlost.symm.trans he
    · exact Or.inr ⟨hrc, hpre⟩

section

variable {score : Scorer}

/-- A check leaves the tree's statuses alone; all it moves are hit counts and time stamps. -/
theorem checkDomain_core {capacity : Nat} (cache : Option (DnsCache capacity)) (tree : RadixTree)
    (nowNs : UInt64) (now : UInt32) (domain : CStr) :
    (checkDomain cache tree nowNs now domain).2.2.map.core = tree.map.core := by
  rcases checkDomain_cases cache tree nowNs now domain with ⟨-, -, -, -, htree⟩ | ⟨-, htree⟩
  · rw [htree]
  · rw [htree, radixLookup_map]

/-- What is decided after a query was before. -/
theorem handleQuery_decided {p : Proxy} {env : Env} {ctx : QueryContext} {ls : List Label}
    (h : (handleQuery score p env ctx).proxy.tree.map.Decided ls) : p.tree.map.Decided ls := by
  have hchecked : (checkedProxy p env ctx.domain).tree.map.core = p.tree.map.core :=
    checkDomain_core p.queryCache p.tree env.nowNs env.now ctx.domain
  rcases handleQuery_cases score p env ctx with ⟨-, hsame, -⟩ | ⟨-, hsame, -⟩
  · rw [hsame.tree, vet_fst] at h
    exact (runHeuristics_decided h).of_core hchecked
  · rw [hsame.tree] at h
    exact h.of_core hchecked

/-- **What is decided after an event was before, or is promoted in it.** -/
theorem Server.step_decided {s : Server} {e : Event} {domain : CStr}
    (h : (s.step score e).proxy.tree.map.Decided (normalise domain)) :
    s.proxy.tree.map.Decided (normalise domain) ∨ s.promotesAbove e domain = true := by
  rw [Server.step_proxy] at h
  rcases s.outcome_cases score e with
    ⟨w, env, clientAddr, rawQuery, ctx, rateLimiter, -, -, -, hout⟩ |
    ⟨i, a, now, result, thread, rfl, hthread, hout⟩ | ⟨-, hsame, -⟩
  · rw [hout] at h
    have hbefore := handleQuery_decided h
    exact Or.inl hbefore
  · rw [hout] at h
    rw [gravityCheckThread] at h
    cases result with
    | blocked =>
      rcases gravityInsert_decided h with hold | ⟨hrc, hpre⟩
      · exact Or.inl hold
      · exact Or.inr (Server.promotesAbove_of_blocked hthread hrc hpre)
    | clean => exact Or.inl h
    | unreachable => exact Or.inl h
  · rw [hsame.tree] at h
    exact Or.inl h

/-! ## The caches of a server -/

/-- If there is a verdict cache, it is right about the tree. -/
def Proxy.Coherent (p : Proxy) : Prop :=
  ∀ cache, p.queryCache = some cache → Nyet.Coherent ⟨p.tree, cache, p.gravity⟩

/-- If there is an answer cache, its records are where they are looked for. -/
def Proxy.Placed (p : Proxy) : Prop := ∀ cache, p.answerCache = some cache → cache.WellPlaced

/-- Coherence speaks of the tree, the verdict cache and the claims, so whatever else an event does
to the proxy does not matter for it. -/
theorem Proxy.Coherent.of_same {p q : Proxy} (h : p.Coherent) (hsame : SameDecisions p q) :
    q.Coherent := by
  intro cache hcache
  rw [hsame.tree, hsame.gravity]
  exact h cache (hsame.queryCache.symm.trans hcache)

/-- Vetting asks the Pi by one claim, whatever the score was. -/
theorem vet_gravity (p : Proxy) (env : Env) (domain : CStr) :
    (vet score p env domain).1.gravity =
      p.gravity.ask env.claimAlloc env.argsOk env.threadOk domain := by
  rw [vet, Gravity.ask]
  dsimp only
  split <;> rfl

/-- A query of the server is a query of `Deciding`. -/
theorem handleQuery_coherent {p : Proxy} (h : p.Coherent) {env : Env} {ctx : QueryContext}
    (hq : IsQuestion ctx.domain) : (handleQuery score p env ctx).proxy.Coherent := by
  intro cache' hcache'
  have hqueryCache : (handleQuery score p env ctx).proxy.queryCache =
      (checkDomain p.queryCache p.tree env.nowNs env.now ctx.domain).2.1 := by
    rcases handleQuery_cases score p env ctx with ⟨-, hsame, -⟩ | ⟨-, hsame, -⟩
    · rw [hsame.queryCache, vet_fst]
      rfl
    · exact hsame.queryCache
  rw [hqueryCache] at hcache'
  cases hcache : p.queryCache with
  | none =>
    rw [hcache] at hcache'
    cases hcache'
  | some cache =>
    -- `Deciding.query` is the same decision, on the tree, the cache and the claims alone
    have hquery := (h cache hcache).query score hq env.nowNs env.now env.now env.treeAlloc
      env.claimAlloc env.argsOk env.threadOk
    rw [hcache] at hcache'
    rw [Deciding.query] at hquery
    dsimp only at hquery
    rw [hcache', Option.getD_some] at hquery
    rcases handleQuery_cases score p env ctx with ⟨hnone, hsame, -⟩ | ⟨hsome, hsame, -⟩
    · rw [hcache] at hnone
      have hmatched : ¬ (checkDomain (some cache) p.tree env.nowNs env.now ctx.domain).1.matched =
          true := by
        intro hmatched
        rw [CheckResult.outcome] at hnone
        rw [if_pos hmatched] at hnone
        cases hnone
      rw [if_neg hmatched] at hquery
      rw [hsame.tree, hsame.gravity, vet_fst, vet_gravity]
      rw [checkedProxy]
      rw [hcache]
      exact hquery
    · rw [hcache] at hsome
      have hmatched : (checkDomain (some cache) p.tree env.nowNs env.now ctx.domain).1.matched =
          true := by
        by_contra hmatched
        exact hsome (if_neg hmatched)
      rw [if_pos hmatched] at hquery
      rw [hsame.tree, hsame.gravity]
      rw [checkedProxy]
      rw [hcache]
      exact hquery

/-- What the server decides about is a question. -/
theorem Server.query_isQuestion {s : Server} {e : Event} {ctx : QueryContext}
    (h : s.query e = some ctx) : IsQuestion ctx.domain := by
  unfold Server.query at h
  split at h
  · split at h
    · cases h
    · split at h
      · next rawQuery _ _ _ =>
        obtain ⟨⟨domain, qtype⟩, hquestion, rfl⟩ := Option.map_eq_some_iff.mp h
        exact ⟨_, qtype, hquestion⟩
      · cases h
  · cases h

/-- **Every event keeps the verdict cache right about the tree**: queries and gravity threads do, by
the same operations on the decision alone, and replies do not come near it. -/
theorem Server.step_coherent {s : Server} (h : s.proxy.Coherent) (e : Event) :
    (s.step score e).proxy.Coherent := by
  rw [Server.step_proxy]
  rcases s.outcome_cases score e with
    ⟨w, env, clientAddr, rawQuery, ctx, rateLimiter, -, hquery, -, hout⟩ |
    ⟨i, a, now, result, thread, rfl, hthread, hout⟩ | ⟨-, hsame, -⟩
  · rw [hout]
    have hlimited : Proxy.Coherent { s.proxy with rateLimiter := rateLimiter } :=
      h.of_same ⟨rfl, rfl, rfl⟩
    exact handleQuery_coherent hlimited (Server.query_isQuestion hquery)
  · rw [hout]
    intro cache hcache
    -- a gravity thread does not touch the verdict cache
    have hkept : s.proxy.queryCache = some cache := by
      dsimp only at hcache
      rw [gravityCheckThread_eq] at hcache
      exact hcache
    have hcomplete := (h cache hkept).complete (i := i) hthread result now a
    rw [Deciding.complete] at hcomplete
    rw [gravityCheckThread]
    cases result <;> exact hcomplete
  · exact h.of_same hsame

/-- Placement speaks of the answer cache only. -/
theorem Proxy.Placed.of_same {p q : Proxy} (h : p.Placed) (hsame : q.answerCache = p.answerCache) :
    q.Placed := fun cache hcache => h cache (hsame.symm.trans hcache)

/-- A lookup moves no record. -/
theorem answerFromCache_placed {p : Proxy} (h : p.Placed) (eligible : Bool) (nowNs : UInt64)
    (ctx : QueryContext) : (answerFromCache eligible p nowNs ctx).2.Placed := by
  unfold answerFromCache
  split
  · next cache hcache =>
    intro cache' hcache'
    cases hcache'
    exact (h cache hcache).lookup nowNs ctx.domain ctx.qtype
  · exact h

/-- Answering looks up, and forwarding leaves the cache alone. -/
theorem answerOrForward_placed {p : Proxy} (h : p.Placed) (env : Env) (ctx : QueryContext)
    (check : CheckResult) : (answerOrForward p env ctx check).proxy.Placed := by
  rw [answerOrForward_proxy]
  exact answerFromCache_placed h (cacheEligible ctx.qtype check) env.nowNs ctx

/-- So a query moves no record, vetted or not. -/
theorem handleQuery_placed {p : Proxy} (h : p.Placed) (env : Env) (ctx : QueryContext) :
    (handleQuery score p env ctx).proxy.Placed := by
  have hchecked : (checkedProxy p env ctx.domain).Placed := h.of_same rfl
  rcases handleQuery_after score p env ctx with ⟨-, response, hout⟩ | ⟨-, -, hout⟩ | ⟨-, hout⟩
  · rw [hout]
    exact hchecked
  · rw [hout]
    exact answerOrForward_placed hchecked env ctx _
  · rw [hout]
    refine answerOrForward_placed (hchecked.of_same ?_) env ctx _
    rw [vet_fst]

/-- A reply is put where its key is looked for. -/
theorem acceptReply_placed {p : Proxy} (h : p.Placed) (nowNs : UInt64) (parsed : Answer)
    (w : Waiting) (reply : CStr) : (acceptReply p nowNs parsed w reply).1.Placed := by
  rcases acceptReply_cases p nowNs parsed w reply with hout | ⟨cache, answer, hcache, hout⟩
  · rw [hout]
    exact h
  · rw [hout]
    intro cache' hcache'
    cases hcache'
    exact (h cache hcache).insert nowNs w.ctx.domain w.ctx.qtype answer

/-- A `recvfrom` puts one record in at most. -/
theorem receiveReply_placed {p : Proxy} (h : p.Placed) (w : Waiting) (r : Received)
    (tick restart nowNs : UInt64) (parsed : Answer) :
    (receiveReply p w r tick restart nowNs parsed).proxy.Placed := by
  rcases receiveReply_outcome p w r tick restart nowNs parsed with
    ⟨-, hout⟩ | ⟨reply, upstream, -, hout⟩ | ⟨-, hout | ⟨waiting, upstream, -, hout⟩⟩
  · rw [hout]
    exact h
  · have hpreferred : Proxy.Placed { p with preferredUpstream := upstream } := h.of_same rfl
    rw [hout]
    exact acceptReply_placed hpreferred nowNs parsed w reply
  · rw [hout]
    exact h
  · rw [hout]
    exact h

/-- A promotion takes records out, which leaves the others where they are. -/
theorem gravityCheckThread_placed {p : Proxy} (h : p.Placed) (a : Alloc) (now : UInt32) (i : Nat)
    (domain : CStr) (result : GravityResult) :
    (gravityCheckThread p a now i domain result).Placed := by
  rw [gravityCheckThread]
  cases result with
  | blocked =>
    intro cache' hcache'
    obtain ⟨cache, hcache, rfl⟩ := Option.map_eq_some_iff.mp hcache'
    exact (h cache hcache).of_wiped (answerCacheInvalidate_entries cache domain)
  | clean => exact h.of_same rfl
  | unreachable => exact h.of_same rfl

/-- **Every event keeps the records where they are looked for.** -/
theorem Server.step_placed {s : Server} (h : s.proxy.Placed) (e : Event) :
    (s.step score e).proxy.Placed := by
  rw [Server.step_proxy]
  cases e with
  | request w env clientAddr rawQuery =>
    rw [Server.outcome]
    split
    · exact h
    · -- nor do the records move when a request is rate-limited
      have hlimited : ∀ rateLimiter, Proxy.Placed { s.proxy with rateLimiter := rateLimiter } :=
        fun _ => h.of_same rfl
      rcases processRequest_cases score s.proxy env clientAddr rawQuery with
        ⟨rateLimiter, hout⟩ | ⟨rateLimiter, domain, qtype, -, -, hout⟩
      · rw [hout]
        exact hlimited rateLimiter
      · rw [hout]
        exact handleQuery_placed (hlimited rateLimiter) env _
  | receive w r tick restart nowNs parsed =>
    rw [Server.outcome]
    split
    · exact receiveReply_placed h _ _ _ _ _ _
    · exact h
  | gravity i a now result =>
    rw [Server.outcome]
    split
    · exact gravityCheckThread_placed h a now i _ result
    · exact h

/-! ## What a worker waits for -/

/-- Who starts to wait waits for the reply to its own query. -/
theorem answerOrForward_waiting {p : Proxy} {env : Env} {ctx : QueryContext} {check : CheckResult}
    {waiting : Waiting} (h : (answerOrForward p env ctx check).waiting = some waiting) :
    waiting.ctx = ctx := by
  rcases answerOrForward_cases p env ctx check with
    ⟨response, -, hout⟩ | ⟨-, waiting', upstream, hctx, hout⟩ | ⟨-, hout⟩
  · rw [hout] at h
    cases h
  · rw [hout] at h
    cases h
    exact hctx
  · rw [hout] at h
    cases h

/-- The same of a whole query. -/
theorem handleQuery_waiting {p : Proxy} {env : Env} {ctx : QueryContext} {waiting : Waiting}
    (h : (handleQuery score p env ctx).waiting = some waiting) : waiting.ctx = ctx := by
  rcases handleQuery_after score p env ctx with ⟨-, response, hout⟩ | ⟨-, -, hout⟩ | ⟨-, hout⟩
  · rw [hout] at h
    cases h
  · rw [hout] at h
    exact answerOrForward_waiting h
  · rw [hout] at h
    exact answerOrForward_waiting h

/-- Who goes on waiting waits for the same reply as before. -/
theorem receiveReply_waiting {p : Proxy} {w waiting : Waiting} {r : Received}
    {tick restart nowNs : UInt64} {parsed : Answer}
    (h : (receiveReply p w r tick restart nowNs parsed).waiting = some waiting) :
    waiting.ctx = w.ctx := by
  rcases receiveReply_outcome p w r tick restart nowNs parsed with
    ⟨-, hout⟩ | ⟨reply, upstream, -, hout⟩ | ⟨-, hout | ⟨waiting', upstream, hctx, hout⟩⟩
  · rw [hout] at h
    cases h
    rfl
  · rw [hout] at h
    cases h
  · rw [hout] at h
    cases h
  · rw [hout] at h
    cases h
    exact hctx

/-- **What a worker waits for after an event**: what it waited for before, or the reply to
the query it has taken on. -/
theorem Server.step_waiting {s : Server} {e : Event} {w : Nat} {waiting : Waiting}
    (h : (s.step score e).worker w = some waiting) :
    (∃ old, s.worker w = some old ∧ waiting.ctx = old.ctx) ∨
      ∃ env clientAddr rawQuery, e = .request w env clientAddr rawQuery ∧
        s.query e = some waiting.ctx := by
  rw [Server.step_worker] at h
  split at h
  · next hw =>
    cases e with
    | request w' env clientAddr rawQuery =>
      obtain rfl : w' = w := Option.some.inj hw
      unfold Server.outcome at h
      dsimp only at h
      cases hworker : s.worker w' with
      | some old =>
        rw [hworker] at h
        exact Or.inl ⟨old, rfl, congrArg Waiting.ctx (Option.some.inj h).symm⟩
      | none =>
        rw [hworker] at h
        refine Or.inr ⟨env, clientAddr, rawQuery, rfl, ?_⟩
        -- only a query within the rate that can be parsed leaves the worker waiting
        rcases processRequest_cases score s.proxy env clientAddr rawQuery with
          ⟨rateLimiter, hout⟩ | ⟨rateLimiter, domain, qtype, hrate, hparse, hout⟩
        · rw [hout] at h
          cases h
        · rw [hout] at h
          rw [Server.query, question]
          dsimp only
          rw [hworker, hrate, hparse]
          exact congrArg some (handleQuery_waiting h).symm
    | receive w' r tick restart nowNs parsed =>
      obtain rfl : w' = w := Option.some.inj hw
      unfold Server.outcome at h
      dsimp only at h
      cases hworker : s.worker w' with
      | some old =>
        rw [hworker] at h
        exact Or.inl ⟨old, rfl, receiveReply_waiting h⟩
      | none =>
        rw [hworker] at h
        cases h
    | gravity i a now result => cases hw
  · exact Or.inl ⟨waiting, h, rfl⟩

/-- A busy worker decides about nothing. -/
theorem Server.query_busy {s : Server} {w : Nat} {env : Env} {clientAddr : UInt32}
    {rawQuery : CStr} {waiting : Waiting} (h : s.worker w = some waiting) :
    s.query (.request w env clientAddr rawQuery) = none := by
  rw [Server.query]
  dsimp only
  rw [h]
  rfl

/-- A reply that is cached is cached under the question of its query. -/
theorem receiveReply_cacheAnswer {p : Proxy} {w : Waiting} {r : Received}
    {tick restart nowNs : UInt64} {parsed : Answer} {ctx : QueryContext} {reply : CStr}
    {answer : Answer}
    (h : .cacheAnswer ctx reply answer ∈ (receiveReply p w r tick restart nowNs parsed).actions) :
    ctx = w.ctx := by
  rcases receiveReply_outcome p w r tick restart nowNs parsed with
    ⟨-, hout⟩ | ⟨reply', upstream, -, hout⟩ | ⟨-, hout | ⟨waiting, upstream, -, hout⟩⟩
  · rw [hout] at h
    cases h
  · rw [hout] at h
    rcases mem_acceptReply h with heq | ⟨answer', heq⟩
    · cases heq
    · cases heq
      rfl
  · rw [hout] at h
    cases h
  · rw [hout] at h
    cases List.mem_singleton.mp h

/-! ## The invariant -/

/-- Nothing decides about the domains of the fills and of the unmatched queries. -/
structure Serving.Undecided (s : Serving) : Prop where
  coherent : s.server.proxy.Coherent
  placed : s.server.proxy.Placed
  fills : ∀ f ∈ s.fills, ¬ s.server.proxy.tree.map.Decided (normalise f.domain)
  waiting : ∀ w waiting, s.unmatched w = true → s.server.worker w = some waiting →
    ¬ s.server.proxy.tree.map.Decided (normalise waiting.ctx.domain)

/-- At the start nobody waits and nothing has been filled in. -/
theorem Serving.Undecided.start {p : Proxy} (hcoherent : p.Coherent) (hplaced : p.Placed) :
    (Serving.start p).Undecided :=
  ⟨hcoherent, hplaced, fun _ hf => (nomatch hf), fun _ _ hw => (nomatch hw)⟩

/-- Where a check finds no match, nothing decides. -/
theorem checkOf_none {p : Proxy} {env : Env} {ctx : QueryContext}
    (hlen : ctx.domain.length < labelBufSize) (h : (checkOf p env ctx).outcome = none) :
    ¬ p.tree.map.Decided (normalise ctx.domain) := by
  have hnone : p.tree.map.outcome (normalise ctx.domain) = none := by
    rcases checkDomain_cases p.queryCache p.tree env.nowNs env.now ctx.domain with
      ⟨action, ttl, -, hcheck, -⟩ | ⟨hcheck, -⟩
    · rw [checkOf] at h
      rw [hcheck, CheckResult.ofCache_outcome] at h
      cases h
    · rw [checkOf] at h
      rw [hcheck, CheckResult.ofTree_outcome, radixLookup_outcome _ _ hlen] at h
      exact h
  rw [BlockMap.decided_iff_covers]
  have hcovers := BlockMap.outcome_eq_none.mp hnone
  exact not_or.mpr ⟨hcovers .blocked, hcovers .allowed⟩

/-- What is put into the cache is put there for the domain of an unmatched query. -/
theorem Serving.newFills_domain {s : Serving} {e : Event} {f : Fill} (h : f ∈ s.newFills score e) :
    ∃ w waiting, s.unmatched w = true ∧ s.server.worker w = some waiting ∧
      f.domain = waiting.ctx.domain := by
  unfold Serving.newFills at h
  split at h
  · next w r tick restart nowNs parsed =>
    split at h
    · next hw =>
      obtain ⟨action, haction, hf⟩ := List.mem_filterMap.mp h
      split at hf
      · next ctx reply answer =>
        split at hf
        · cases hf
          -- the answer is that of the worker's own wait
          unfold Server.outcome at haction
          dsimp only at haction
          cases hworker : s.server.worker w with
          | none =>
            rw [hworker] at haction
            cases haction
          | some waiting =>
            rw [hworker] at haction
            exact ⟨w, waiting, hw, hworker,
              congrArg QueryContext.domain (receiveReply_cacheAnswer haction)⟩
        · cases hf
      · cases hf
    · cases h
  · cases h

/-- A busy worker that waits for the reply to an unmatched query did so before, and no
promotion covers the domain. -/
theorem Serving.nextUnmatched_busy {s : Serving} {e : Event} {w : Nat} {old : Waiting}
    (h : s.nextUnmatched score e w = true) (hold : s.server.worker w = some old) :
    s.unmatched w = true ∧ s.server.promotesAbove e old.ctx.domain = false := by
  have hother : (s.unmatched w && (s.server.worker w).all fun waiting =>
      !s.server.promotesAbove e waiting.ctx.domain) = true →
      s.unmatched w = true ∧ s.server.promotesAbove e old.ctx.domain = false := by
    intro hall
    rw [hold, Bool.and_eq_true] at hall
    exact ⟨hall.1, (Bool.not_eq_true' _).mp hall.2⟩
  cases e with
  | request w' env clientAddr rawQuery =>
    unfold Serving.nextUnmatched at h
    cases hquery : s.server.query (.request w' env clientAddr rawQuery) with
    | none =>
      rw [hquery] at h
      exact hother h
    | some ctx =>
      -- the worker is busy, so the query is another's
      have hne : w ≠ w' := by
        rintro rfl
        rw [Server.query_busy hold] at hquery
        cases hquery
      rw [hquery] at h
      dsimp only at h
      rw [Function.update_of_ne hne] at h
      exact ⟨h, rfl⟩
  | receive w' r tick restart nowNs parsed => exact hother h
  | gravity i a now result => exact hother h

/-- **One event**: a domain that was undecided is decided only by a promotion at or above it, and
what a promotion covers is struck off both records. -/
theorem Serving.Undecided.step {s : Serving} (h : s.Undecided) (e : Event) :
    (s.step score e).Undecided := by
  -- unless a promotion covers it
  have hkeep : ∀ {domain}, ¬ s.server.proxy.tree.map.Decided (normalise domain) →
      s.server.promotesAbove e domain = false →
      ¬ (s.server.step score e).proxy.tree.map.Decided (normalise domain) := by
    intro domain hundecided hpromotes hdecided
    rcases Server.step_decided hdecided with hbefore | habove
    · exact hundecided hbefore
    · rw [hpromotes] at habove
      cases habove
  refine ⟨Server.step_coherent h.coherent e, Server.step_placed h.placed e, fun f hf => ?_,
    fun w waiting hw hworker => ?_⟩
  · obtain ⟨hmem, hpromotes⟩ := List.mem_filter.mp hf
    rw [Bool.not_eq_true'] at hpromotes
    refine hkeep ?_ hpromotes
    rcases List.mem_append.mp hmem with hnew | hold
    · obtain ⟨w, waiting, hw, hworker, hdomain⟩ := Serving.newFills_domain hnew
      rw [hdomain]
      exact h.waiting w waiting hw hworker
    · exact h.fills f hold
  · rcases Server.step_waiting hworker with ⟨old, hold, hctx⟩ | ⟨env, clientAddr, rawQuery, rfl, hquery⟩
    · rw [hctx]
      obtain ⟨hbefore, hpromotes⟩ := Serving.nextUnmatched_busy hw hold
      exact hkeep (h.waiting w old hbefore hold) hpromotes
    · change s.nextUnmatched score (.request w env clientAddr rawQuery) w = true at hw
      unfold Serving.nextUnmatched at hw
      rw [hquery] at hw
      dsimp only at hw
      rw [Function.update_self] at hw
      rw [Server.asksUnmatched] at hw
      rw [Bool.and_eq_true, decide_eq_true_eq] at hw
      refine hkeep ?_ rfl
      exact checkOf_none (p := s.server.proxy) (Server.query_isQuestion hquery).short hw.1

/-! ## One repeat query -/

/-- For an undecided domain the verdict cache says nothing. -/
theorem CachesDecisions.lookup_undecided {capacity : Nat} {cache : DnsCache capacity}
    {M : BlockMap} (h : CachesDecisions cache M) {domain : CStr}
    (hundecided : ¬ M.Decided (normalise domain)) (nowNs : UInt64) :
    (dnsCacheLookup cache nowNs domain).1 = none := by
  rcases dnsCacheLookup_slots cache nowNs domain with ⟨hnone, -⟩ | ⟨i, hfind, -⟩
  · exact hnone
  · obtain ⟨hvalid, hdomain⟩ := dnsCacheFind_some hfind
    obtain ⟨st, ttl, hdecision, hst, -, -⟩ := h i hvalid
    rw [hdomain] at hdecision
    refine absurd (BlockMap.decided_iff_outcome.mpr fun hallowed => ?_) hundecided
    have houtcome := BlockMap.decision_outcome hdecision
    cases st with
    | blocked => exact houtcome
    | allowed => exact absurd (BlockMap.outcome_eq_allowed.mp houtcome) hallowed
    | review => exact absurd rfl hst

/-- For an undecided domain a check says what the tree says. -/
theorem checkOf_undecided {p : Proxy} (h : p.Coherent) {env : Env} {ctx : QueryContext}
    (hlen : ctx.domain.length < labelBufSize)
    (hundecided : ¬ p.tree.map.Decided (normalise ctx.domain)) :
    (checkOf p env ctx).outcome = p.tree.map.outcome (normalise ctx.domain) := by
  have htree : checkOf p env ctx = .ofTree ctx.domain (radixLookup p.tree env.now ctx.domain).1 := by
    rw [checkOf]
    cases hcache : p.queryCache with
    | none => rfl
    | some cache =>
      rw [checkDomain_miss ((h cache hcache).cached.lookup_undecided hundecided env.nowNs)]
  rw [htree, CheckResult.ofTree_outcome, radixLookup_outcome _ _ hlen]

/-- What the cache has is sent, and otherwise nothing from it. -/
theorem answerOrForward_answered (p : Proxy) (env : Env) (ctx : QueryContext)
    (check : CheckResult) :
    AnsweredFromCache (answerOrForward p env ctx check) ctx ↔
      (answerFromCache (cacheEligible ctx.qtype check) p env.nowNs ctx).1.isSome = true := by
  rcases answerOrForward_cases p env ctx check with
    ⟨response, hfound, hout⟩ | ⟨hfound, waiting, upstream, -, hout⟩ | ⟨hfound, hout⟩
  · rw [hout, hfound]
    refine iff_of_true ⟨⟨response, List.mem_singleton.mpr rfl⟩, fun upstream query hmem => ?_⟩ rfl
    cases List.mem_singleton.mp hmem
  · rw [hout, hfound]
    refine iff_of_false ?_ Bool.false_ne_true
    rintro ⟨⟨response, hmem⟩, -⟩
    cases List.mem_singleton.mp hmem
  · rw [hout, hfound]
    refine iff_of_false ?_ Bool.false_ne_true
    rintro ⟨⟨response, hmem⟩, -⟩
    cases hmem

/-- A response is made if the query and the records fit the buffer together. -/
theorem createCachedAnswerResponse_isSome {request : CStr} {outCapacity : Nat} {qtype : UInt16}
    {answer : Answer} :
    (createCachedAnswerResponse request outCapacity qtype answer).isSome = true ↔
      request.length + answer.numRecords.toNat * (2 + 2 + 2 + 4 + 2 + answer.recordBytes.toNat) ≤
        outCapacity := by
  rw [createCachedAnswerResponse]
  dsimp only
  split
  · next hlarge => exact iff_of_false Bool.false_ne_true (Nat.not_le.mpr hlarge)
  · next hfits => exact iff_of_true rfl (Nat.not_lt.mp hfits)

/-- **When the cache answers** with a record it holds: the record is fresh and the response
fits. -/
theorem answerFromCache_held {p : Proxy} {cache : AnswerCache proxyCacheCapacity}
    (hcache : p.answerCache = some cache) (hplaced : cache.WellPlaced) {ctx : QueryContext}
    {i : Fin proxyCacheCapacity} (hheld : (cache.entries i).Holds ctx.domain ctx.qtype)
    (nowNs : UInt64) :
    (answerFromCache true p nowNs ctx).1.isSome = true ↔
      entryExpired (cache.entries i) nowNs = false ∧
        ctx.rawQuery.length + (cache.entries i).numRecords.toNat *
          (2 + 2 + 2 + 4 + 2 + (cache.entries i).recordBytes.toNat) ≤ bufferSize + 32 := by
  have hanswer : (answerFromCache true p nowNs ctx).1 =
      (answerCacheLookup cache nowNs ctx.domain ctx.qtype).1.bind
        (createCachedAnswerResponse ctx.rawQuery (bufferSize + 32) ctx.qtype) := by
    rw [answerFromCache]
    rw [hcache]
  rw [hanswer]
  cases hexp : entryExpired (cache.entries i) nowNs with
  | false =>
    rw [answerCacheLookup_serves hplaced hheld hexp, Option.bind_some,
      createCachedAnswerResponse_isSome]
    exact (and_iff_right rfl).symm
  | true =>
    -- the probe stops at this very record, and an expired one is dropped
    have hnone : (answerCacheLookup cache nowNs ctx.domain ctx.qtype).1 = none := by
      by_contra hsome
      obtain ⟨j, hprobe, hfresh⟩ :=
        answerCacheLookup_isSome (Option.ne_none_iff_isSome.mp hsome)
      cases (hplaced.probe_eq hheld).symm.trans hprobe
      rw [hexp] at hfresh
      cases hfresh
    rw [hnone]
    exact iff_of_false Bool.false_ne_true fun h => nomatch h.1

/-- Vetting comes in front of the answer and is no answer itself. -/
theorem vet_answered {p : Proxy} {env : Env} {domain : CStr} {ctx : QueryContext} {out : Outcome} :
    AnsweredFromCache { out with actions := (vet score p env domain).2 ++ out.actions } ctx ↔
      AnsweredFromCache out ctx := by
  have hvetting : ∀ a ∈ (vet score p env domain).2, a.IsVetting := fun _ => vet_isVetting
  have hmem : ∀ a : Action, ¬ a.IsVetting →
      (a ∈ (vet score p env domain).2 ++ out.actions ↔ a ∈ out.actions) := by
    intro a ha
    rw [List.mem_append]
    exact or_iff_right fun hleft => ha (hvetting a hleft)
  rw [AnsweredFromCache]
  refine and_congr (exists_congr fun response => hmem _ id) (forall₂_congr fun upstream query => ?_)
  exact not_congr (hmem _ id)

/-- The gate in front of the answer cache, by the outcome of the check. -/
theorem cacheEligible_eq (qtype : UInt16) (check : CheckResult) :
    cacheEligible qtype check = true ↔
      (qtype = 1 ∨ qtype = 28) ∧ (check.outcome = some .allowed ∨ check.outcome = none) := by
  rw [cacheEligible, CheckResult.outcome]
  cases check.matched <;> simp

/-- **A query for a domain that nothing decides about** and whose answer is held. -/
theorem handleQuery_answered {p : Proxy} (hcoherent : p.Coherent)
    {cache : AnswerCache proxyCacheCapacity} (hcache : p.answerCache = some cache)
    (hplaced : cache.WellPlaced) {env : Env} {ctx : QueryContext} {i : Fin proxyCacheCapacity}
    (hheld : (cache.entries i).Holds ctx.domain ctx.qtype)
    (hlen : ctx.domain.length < labelBufSize) (haddress : ctx.qtype = 1 ∨ ctx.qtype = 28)
    (hundecided : ¬ p.tree.map.Decided (normalise ctx.domain)) :
    AnsweredFromCache (handleQuery score p env ctx) ctx ↔
      ¬ p.tree.map.Covers .review (normalise ctx.domain) ∧
        entryExpired (cache.entries i) env.nowNs = false ∧
        ctx.rawQuery.length + (cache.entries i).numRecords.toNat *
          (2 + 2 + 2 + 4 + 2 + (cache.entries i).recordBytes.toNat) ≤ bufferSize + 32 := by
  have hcheck := @checkOf_undecided p hcoherent env ctx hlen hundecided
  obtain ⟨hblocked, hallowed⟩ := not_or.mp (mt BlockMap.decided_iff_covers.mpr hundecided)
  rcases handleQuery_after score p env ctx with ⟨hout, -⟩ | ⟨-, hmatched, hout⟩ | ⟨hnone, hout⟩
  · rw [hcheck, BlockMap.outcome_eq_blocked] at hout
    exact absurd hout.1 hblocked
  · -- the domain is in REVIEW, and the gate is shut
    have hgate : cacheEligible ctx.qtype (checkOf p env ctx) = false := by
      rw [← Bool.not_eq_true, cacheEligible_eq, hcheck, BlockMap.outcome_eq_allowed]
      rintro ⟨-, hcovers | hnone⟩
      · exact hallowed hcovers
      · exact hmatched (hcheck.trans hnone)
    have hreview : p.tree.map.Covers .review (normalise ctx.domain) := by
      by_contra hreview
      refine hmatched (hcheck.trans (BlockMap.outcome_eq_none.mpr fun st => ?_))
      cases st with
      | blocked => exact hblocked
      | allowed => exact hallowed
      | review => exact hreview
    rw [hout, answerOrForward_answered, hgate]
    exact iff_of_false Bool.false_ne_true fun h => h.1 hreview
  · have hgate : cacheEligible ctx.qtype (checkOf p env ctx) = true :=
      (cacheEligible_eq ctx.qtype (checkOf p env ctx)).mpr ⟨haddress, Or.inr hnone⟩
    have hreview : ¬ p.tree.map.Covers .review (normalise ctx.domain) :=
      BlockMap.outcome_eq_none.mp (hcheck.symm.trans hnone) .review
    have hvetted : (vet score (checkedProxy p env ctx.domain) env ctx.domain).1.answerCache =
        some cache := by
      rw [vet_fst]
      exact hcache
    rw [hout]
    dsimp only
    rw [vet_answered, answerOrForward_answered, hgate,
      answerFromCache_held hvetted hplaced hheld env.nowNs]
    exact (and_iff_right hreview).symm

/-- **One step**: a repeat query is answered from memory exactly if no REVIEW entry covers
its domain, its record is fresh and the response fits. -/
theorem Serving.Undecided.served_iff {s : Serving} (h : s.Undecided) (e : Event) :
    RepeatServed score s e ↔ NothingReviewed s e := by
  refine forall_congr' fun env => forall_congr' fun ctx => forall_congr' fun f =>
    forall_congr' fun cache => forall₂_congr fun i hrepeat => ?_
  obtain ⟨w', clientAddr', rawQuery', he⟩ := hrepeat.event
  rcases s.server.outcome_cases score e with
    ⟨w, env', clientAddr, rawQuery, ctx', rateLimiter, he', hquery, -, hout⟩ |
    ⟨_, _, _, _, _, he', -⟩ | ⟨hquery, -⟩
  · obtain rfl : env' = env := by
      cases he'.symm.trans he
      rfl
    obtain rfl : ctx' = ctx := Option.some.inj (hquery.symm.trans hrepeat.query)
    have hheld : (cache.entries i).Holds ctx'.domain ctx'.qtype := by
      rw [hrepeat.domain, hrepeat.qtype]
      exact hrepeat.held
    have hplaced : cache.WellPlaced := h.placed cache hrepeat.cached
    have hundecided : ¬ s.server.proxy.tree.map.Decided (normalise ctx'.domain) := by
      rw [hrepeat.domain]
      exact h.fills f hrepeat.fill
    -- the rate limiter is no part of what the caches rest on
    have hlimited : Proxy.Coherent { s.server.proxy with rateLimiter := rateLimiter } :=
      h.coherent.of_same ⟨rfl, rfl, rfl⟩
    rw [hout]
    exact handleQuery_answered hlimited hrepeat.cached hplaced hheld
      (Server.query_isQuestion hquery).short hrepeat.address hundecided
  · cases he.symm.trans he'
  · cases hquery.symm.trans hrepeat.query

/-! ## Whole runs -/

/-- A proxy that has just been started, with or without memory for its caches. -/
theorem Serving.Undecided.init (time : UInt32) (blocklist learned : Option CStr)
    (queryCacheOk answerCacheOk : Bool) (upstreamAddrs : Upstream → SockAddr) :
    (Serving.start (Proxy.init time blocklist learned queryCacheOk answerCacheOk
      upstreamAddrs)).Undecided := by
  refine .start (fun cache hcache => ?_) (fun cache hcache => ?_)
  · cases queryCacheOk with
    | false => cases hcache
    | true =>
      refine ⟨fun i hi => ?_, .of_idle rfl _⟩
      have hinit : dnsCacheInit proxyCacheCapacity = some cache := hcache
      have hzero : cache.entries i = .zero := (dnsCacheInit_zero hinit).1 i
      cases (congrArg DnsCacheEntry.valid hzero).symm.trans hi
  · cases answerCacheOk with
    | false => cases hcache
    | true =>
      have hinit : answerCacheInit proxyCacheCapacity = some cache := hcache
      exact .of_empty (answerCacheInit_zero hinit)

/-- **Which repeat queries are answered from memory**: over any run from any two files,
every repeat query is if and only if none comes while a REVIEW entry covers its domain, or
finds its record counted as stale, or is too long for the response to fit. -/
theorem repeat_served_iff (score : Scorer) (time : UInt32) (blocklist learned : Option CStr)
    (queryCacheOk answerCacheOk : Bool) (upstreamAddrs : Upstream → SockAddr) (es : List Event) :
    Lib.EveryStep (Serving.step score) (RepeatServed score)
        (.start (Proxy.init time blocklist learned queryCacheOk answerCacheOk upstreamAddrs)) es ↔
      Lib.EveryStep (Serving.step score) NothingReviewed
        (.start (Proxy.init time blocklist learned queryCacheOk answerCacheOk upstreamAddrs)) es :=
  Lib.everyStep_congr (fun _ e h _ => h.step e) (fun _ e h _ => h.served_iff e)
    (Serving.Undecided.init time blocklist learned queryCacheOk answerCacheOk upstreamAddrs)
    (Lib.everyStep_of_mem (fun _ _ _ => trivial) _)

end

/-- `example.com` is asked for, answered with a TTL of 300 seconds, and asked for again at
once. -/
def askedTwice : List Event :=
  [.request 0 (.at 1700000000 0) 1 (queryPacket 1 [cstr "example", cstr "com"] 1),
    .receive 0 (.datagram ⟨0, 53⟩
      (overwrite (overwrite (queryPacket 1 [cstr "example", cstr "com"] 1) 2 responseFlags) 6
        (wire16 1) ++ recordHeader 1 300 4 ++ [93, 184, 216, 34])) 1 0 0
      ⟨List.replicate 8 [], 0, 0, 0⟩,
    .request 0 (.at 1700000000 1) 1 (queryPacket 2 [cstr "example", cstr "com"] 1)]

/-- The proxy before the second query. -/
def answeredOnce : Serving :=
  Lib.run (Serving.step fun _ => (0, []))
    (.start (Proxy.init 1700000000 none none true true fun _ => ⟨0, 53⟩)) (askedTwice.take 2)

/-- It had the memory for an answer cache. -/
theorem answeredOnce_cache : answeredOnce.server.proxy.answerCache.isSome = true := by
  decide +kernel

/-- The second query asks for what the first reply has put into the cache. -/
theorem askedTwice_repeat :
    RepeatQuery answeredOnce
      (.request 0 (.at 1700000000 1) 1 (queryPacket 2 [cstr "example", cstr "com"] 1))
      (.at 1700000000 1)
      ⟨1, queryPacket 2 [cstr "example", cstr "com"] 1, cstr "example.com", 1⟩
      ⟨cstr "example.com", 1, 0, 300⟩ (answeredOnce.server.proxy.answerCache.get answeredOnce_cache)
      ⟨3621, by decide⟩ where
  event := ⟨0, 1, _, rfl⟩
  query := by decide +kernel
  address := Or.inl rfl
  fill := by decide +kernel
  domain := rfl
  qtype := rfl
  cached := (Option.some_get answeredOnce_cache).symm
  held := ⟨by decide +kernel, by decide +kernel, by decide +kernel⟩
  ttl := by decide +kernel
  within := by decide +kernel

/-- The first query has put its domain in REVIEW, so the second one is forwarded too. -/
theorem second_query_forwarded :
    ¬ Lib.EveryStep (Serving.step fun _ => (0, [])) (RepeatServed fun _ => (0, []))
      (.start (Proxy.init 1700000000 none none true true fun _ => ⟨0, 53⟩)) askedTwice := by
  rintro ⟨-, -, hserved, -⟩
  have hanswered := hserved _ _ _ _ _ askedTwice_repeat
  exact hanswered.2 ⟨0, 53⟩ (queryPacket 2 [cstr "example", cstr "com"] 1) (by decide +kernel)

end Nyet
