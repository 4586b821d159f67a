import Nyet.Proxy.Decision

/-!
# Handling a query (`process_request`)

`processRequest` runs from the receipt of a query to its reply, or to the first
`recvfrom` on the worker's upstream socket; `receiveReply` is one round of the loop
of `recv_matching_reply` and what follows it. Between the two a worker is `Waiting`.

What is sent and which modules are called upon is the list of `Action`s, in order.
-/

namespace Nyet

/-- `DNS_EPOCH` -/
def dnsEpoch : UInt32 := 1577836800

/-- `UPSTREAM_TIMEOUT_MS` -/
def upstreamTimeoutMs : UInt64 := 2000

/-- `UPSTREAM_FALLBACK_TIMEOUT_MS` -/
def upstreamFallbackTimeoutMs : UInt64 := 300

/-- `sin_addr` and `sin_port` of a `struct sockaddr_in`. -/
structure SockAddr where
  addr : UInt32
  port : UInt16
  deriving DecidableEq, Repr

/-- An index into `upstream_addrs`: `UPSTREAM_WG` or `UPSTREAM_HOME`. -/
inductive Upstream where
  | wg
  | home
  deriving DecidableEq, Repr

/-- `1 - primary` -/
def Upstream.other : Upstream → Upstream
  | .wg => .home
  | .home => .wg

/-- `DNSProxy`, with the rate limiter and the semaphore. -/
structure Proxy where
  rateLimiter : RateLimiter (Fin rlBuckets)
  tree : RadixTree
  queryCache : Option (DnsCache proxyCacheCapacity)
  answerCache : Option (AnswerCache proxyCacheCapacity)
  gravity : Gravity
  upstreamAddrs : Upstream → SockAddr
  preferredUpstream : Upstream

/-- `QueryContext`, filled in. -/
structure QueryContext where
  clientAddr : UInt32
  rawQuery : CStr
  domain : CStr
  qtype : UInt16
  deriving DecidableEq, Repr

/-- What a request meets outside the proxy: `time(NULL)`, the nanosecond and the
tick clock, and whether allocations, thread and socket creation succeed. -/
structure Env where
  time : UInt32
  nowNs : UInt64
  tick : UInt64
  treeAlloc : Alloc
  claimAlloc : Alloc
  argsOk : Bool
  threadOk : Bool
  socketOk : Bool

/-- `(uint32_t)(time(NULL) - DNS_EPOCH)` -/
def Env.now (env : Env) : UInt32 := env.time - dnsEpoch

/-- An instant at which nothing fails. -/
def Env.at (time : UInt32) (tick : UInt64) : Env := ⟨time, 0, tick, [], [], true, true, true⟩

/-- What `process_request` does, as seen from outside. -/
inductive Action where
  | sendBlocked (ctx : QueryContext) (response : CStr)
  | runHeuristics (domain : CStr)
  | tryClaim (domain : CStr) (won : Bool)
  | queueGravityCheck (domain : CStr)
  | markDone (domain : CStr) (succeeded : Bool)
  | sendCached (ctx : QueryContext) (response : CStr)
  | forward (upstream : SockAddr) (query : CStr)
  | relay (ctx : QueryContext) (reply : CStr)
  | cacheAnswer (ctx : QueryContext) (reply : CStr) (answer : Answer)
  deriving DecidableEq, Repr

/-- A request between `sendto` and the return of `recv_matching_reply`. -/
structure Waiting where
  ctx : QueryContext
  cacheEligible : Bool
  primary : Upstream
  onFallback : Bool
  deadline : UInt64

/-- Where the request was sent last. -/
def Waiting.upstream (w : Waiting) : Upstream := if w.onFallback then w.primary.other else w.primary

/-- The proxy, what was done, and the request if it waits for an upstream. -/
structure Outcome where
  proxy : Proxy
  actions : List Action
  waiting : Option Waiting

/-! ## Until the query is sent upstream -/

/-- The branch on `!check.matched`: score the domain, then ask for a gravity check
unless it was asked for before. -/
def vet (score : Scorer) (p : Proxy) (env : Env) (domain : CStr) : Proxy × List Action :=
  let tree := runHeuristics score env.treeAlloc p.tree env.now domain
  let (won, asked) := askedCacheTryClaim env.claimAlloc p.gravity.asked domain
  let gravity := { p.gravity with asked := asked }
  if won then
    -- `queue_gravity_check` releases the claim if all slots are busy
    let released := if gravity.permits = 0 then [.markDone domain false] else []
    ({ p with tree := tree, gravity := queueGravityCheck env.argsOk env.threadOk gravity domain },
      [.runHeuristics domain, .tryClaim domain true, .queueGravityCheck domain] ++ released)
  else
    ({ p with tree := tree, gravity := gravity }, [.runHeuristics domain, .tryClaim domain false])

/-- `cache_eligible` -/
def cacheEligible (qtype : UInt16) (check : CheckResult) : Bool :=
  (qtype = 1 || qtype = 28) && (check.matched && check.status = .allowed || !check.matched)

/-- The response `dns_answer_cache` has for an eligible query, and the proxy. -/
def answerFromCache (eligible : Bool) (p : Proxy) (nowNs : UInt64) (ctx : QueryContext) :
    Option CStr × Proxy :=
  match eligible, p.answerCache with
  | true, some cache =>
    let (cached, cache) := answerCacheLookup cache nowNs ctx.domain ctx.qtype
    (cached.bind (createCachedAnswerResponse ctx.rawQuery (bufferSize + 32) ctx.qtype),
      { p with answerCache := some cache })
  | _, _ => (none, p)

/-- From "4b. Answer cache" to the first `recvfrom`. -/
def answerOrForward (p : Proxy) (env : Env) (ctx : QueryContext) (check : CheckResult) : Outcome :=
  let eligible := cacheEligible ctx.qtype check
  match answerFromCache eligible p env.nowNs ctx with
  | (some response, p) => ⟨p, [.sendCached ctx response], none⟩
  | (none, p) =>
    if env.socketOk then
      let primary := p.preferredUpstream
      ⟨p, [.forward (p.upstreamAddrs primary) ctx.rawQuery],
        some ⟨ctx, eligible, primary, false, env.tick + upstreamTimeoutMs⟩⟩
    else ⟨p, [], none⟩

/-- `process_request` from `check_domain` on. -/
def handleQuery (score : Scorer) (p : Proxy) (env : Env) (ctx : QueryContext) : Outcome :=
  let (check, queryCache, tree) := checkDomain p.queryCache p.tree env.nowNs env.now ctx.domain
  let p := { p with queryCache := queryCache, tree := tree }
  if check.matched && check.status = .blocked then
    let ttlSeconds := if check.ttl ≠ 0 then check.ttl else defaultBlockTtlSeconds
    ⟨p, [.sendBlocked ctx (createBlockedResponse ctx.rawQuery ttlSeconds)], none⟩
  else
    let (p, vetting) := if check.matched then (p, []) else vet score p env ctx.domain
    let out := answerOrForward p env ctx check
    { out with actions := vetting ++ out.actions }

/-- `process_request`. A query that is over the rate or cannot be parsed gets no
reply; nor does the model say more where a refill overflows. -/
def processRequest (score : Scorer) (p : Proxy) (env : Env) (clientAddr : UInt32)
    (rawQuery : CStr) : Outcome :=
  match rateLimitAllow p.rateLimiter clientAddr env.time with
  | none => ⟨p, [], none⟩
  | some (false, rateLimiter) => ⟨{ p with rateLimiter := rateLimiter }, [], none⟩
  | some (true, rateLimiter) =>
    let p := { p with rateLimiter := rateLimiter }
    match parseQuery rawQuery maxDomainLen with
    | none => ⟨p, [], none⟩
    | some (domain, qtype) => handleQuery score p env ⟨clientAddr, rawQuery, domain, qtype⟩

/-! ## Waiting for the reply -/

/-- What `recvfrom` brings: `SOCKET_ERROR`, or a datagram and its sender. -/
inductive Received where
  | socketError
  | datagram (source : SockAddr) (bytes : CStr)
  deriving DecidableEq, Repr

/-- How a round of the loop of `recv_matching_reply` ends. -/
inductive Round where
  | again
  | gaveUp
  | matched (reply : CStr)
  deriving DecidableEq, Repr

/-- `if (GetTickCount64() >= deadline) return SOCKET_ERROR; continue;` -/
def retryUntil (deadline tick : UInt64) : Round := if deadline ≤ tick then .gaveUp else .again

/-- One round: the sender is compared, then the first two bytes. A datagram larger
than the buffer is a socket error. -/
def recvRound (expectedId : CStr) (expectedUpstream : SockAddr) (deadline tick : UInt64) :
    Received → Round
  | .socketError => retryUntil deadline tick
  | .datagram source bytes =>
    if bufferSize < bytes.length then retryUntil deadline tick
    else if source ≠ expectedUpstream then retryUntil deadline tick
    else if 2 ≤ bytes.length ∧ messageId bytes = expectedId then .matched bytes
    else retryUntil deadline tick

/-- What follows a reply: it is relayed, and its answer cached if the query was
eligible. `parsed` is the stack slot `parse_answer_records` writes to. -/
def acceptReply (p : Proxy) (nowNs : UInt64) (parsed : Answer) (w : Waiting) (reply : CStr) :
    Proxy × List Action :=
  match w.cacheEligible, p.answerCache with
  | true, some cache =>
    match parseAnswerRecords reply w.ctx.qtype parsed with
    | (true, answer) =>
      let (_, cache) := answerCacheInsert cache nowNs w.ctx.domain w.ctx.qtype answer
      ({ p with answerCache := some cache }, [.relay w.ctx reply, .cacheAnswer w.ctx reply answer])
    | (false, _) => (p, [.relay w.ctx reply])
  | _, _ => (p, [.relay w.ctx reply])

/-- One `recvfrom` of a waiting request. When the primary upstream times out the
query goes to the other one, with a deadline counted from `restart`; when that one
answers it becomes the preferred upstream. -/
def receiveReply (p : Proxy) (w : Waiting) (r : Received) (tick restart nowNs : UInt64)
    (parsed : Answer) : Outcome :=
  match recvRound (messageId w.ctx.rawQuery) (p.upstreamAddrs w.upstream) w.deadline tick r with
  | .again => ⟨p, [], some w⟩
  | .matched reply =>
    let p := if w.onFallback then { p with preferredUpstream := w.upstream } else p
    let (p, actions) := acceptReply p nowNs parsed w reply
    ⟨p, actions, none⟩
  | .gaveUp =>
    if w.onFallback then ⟨p, [], none⟩
    else
      ⟨p, [.forward (p.upstreamAddrs w.primary.other) w.ctx.rawQuery],
        some { w with onFallback := true, deadline := restart + upstreamFallbackTimeoutMs }⟩

/-! ## The gravity thread -/

/-- `gravity_check_thread` in one go, on the tree and the caches. -/
def gravityCheckThread (p : Proxy) (a : Alloc) (now : UInt32) (i : Nat) (domain : CStr)
    (result : GravityResult) : Proxy :=
  let p :=
    if result = .blocked then
      { p with
        tree := (gravityInsert a p.tree now domain).2
        answerCache := p.answerCache.map fun cache => (answerCacheInvalidate cache domain).2 }
    else p
  { p with gravity := gravityFinish p.gravity i domain result }

/-! ## The running proxy -/

/-- The proxy with its workers. `sent` is a record of what each worker's upstream
socket has sent, newest last. -/
structure Server where
  proxy : Proxy
  worker : Nat → Option Waiting
  sent : Nat → List (SockAddr × CStr)

/-- What can happen next. An event is taken in one go: a request up to its reply or its first wait,
a gravity thread from the answer of the Pi to its end. What other threads do in between, and what a
reload does, is not among the events but among the moves of `Threads`. -/
inductive Event where
  | request (w : Nat) (env : Env) (clientAddr : UInt32) (rawQuery : CStr)
  | receive (w : Nat) (r : Received) (tick restart nowNs : UInt64) (parsed : Answer)
  | gravity (i : Nat) (a : Alloc) (now : UInt32) (result : GravityResult)

/-- The sends among some actions. -/
def forwarded (actions : List Action) : List (SockAddr × CStr) :=
  actions.filterMap fun
    | .forward upstream query => some (upstream, query)
    | _ => none

/-- What an event leads to. A busy worker takes no request and an idle one
receives nothing; there is no thread past the last one. -/
def Server.outcome (score : Scorer) (s : Server) : Event → Outcome
  | .request w env clientAddr rawQuery =>
    match s.worker w with
    | some waiting => ⟨s.proxy, [], some waiting⟩
    | none => processRequest score s.proxy env clientAddr rawQuery
  | .receive w r tick restart nowNs parsed =>
    match s.worker w with
    | some waiting => receiveReply s.proxy waiting r tick restart nowNs parsed
    | none => ⟨s.proxy, [], none⟩
  | .gravity i a now result =>
    match s.proxy.gravity.threads[i]? with
    | some domain =>
      ⟨gravityCheckThread s.proxy a now i domain result,
        [.markDone domain (result ≠ .unreachable)], none⟩
    | none => ⟨s.proxy, [], none⟩

/-- The worker an event is about. -/
def Event.worker : Event → Option Nat
  | .request w _ _ _ => some w
  | .receive w _ _ _ _ _ => some w
  | .gravity _ _ _ _ => none

/-- One event. -/
def Server.step (score : Scorer) (s : Server) (e : Event) : Server :=
  let out := s.outcome score e
  match e.worker with
  | none => { s with proxy := out.proxy }
  | some w =>
    { proxy := out.proxy
      worker := Function.update s.worker w out.waiting
      sent := Function.update s.sent w (s.sent w ++ forwarded out.actions) }

/-- The proxy as `proxy_init` leaves it, both files loaded. Either cache may have
failed to initialise. -/
def Proxy.init (time : UInt32) (blocklist learned : Option CStr) (queryCacheOk answerCacheOk : Bool)
    (upstreamAddrs : Upstream → SockAddr) : Proxy where
  rateLimiter := rateLimiterInit (Fin rlBuckets) time
  tree := initialTree (time - dnsEpoch) blocklist learned
  queryCache := if queryCacheOk then dnsCacheInit proxyCacheCapacity else none
  answerCache := if answerCacheOk then answerCacheInit proxyCacheCapacity else none
  gravity := .init
  upstreamAddrs := upstreamAddrs
  preferredUpstream := .wg

/-- All workers idle, their sockets not used yet. -/
def Server.start (p : Proxy) : Server := ⟨p, fun _ => none, fun _ => []⟩

/-- The query an event makes the proxy decide about: a request to an idle worker,
within the rate, that can be parsed. -/
def Server.query (s : Server) : Event → Option QueryContext
  | .request w env clientAddr rawQuery =>
    if (s.worker w).isSome then none
    else
      match rateLimitAllow s.proxy.rateLimiter clientAddr env.time with
      | some (true, _) =>
        (question rawQuery).map fun (domain, qtype) => ⟨clientAddr, rawQuery, domain, qtype⟩
      | _ => none
  | _ => none

/-! ## What an event can do -/

/-- What decisions rest on is the same in both. -/
structure SameDecisions (p q : Proxy) : Prop where
  queryCache : q.queryCache = p.queryCache
  tree : q.tree = p.tree
  gravity : q.gravity = p.gravity

theorem SameDecisions.refl (p : Proxy) : SameDecisions p p := ⟨rfl, rfl, rfl⟩

/-- The actions of `vet` and of a gravity thread. -/
def Action.IsVetting : Action → Prop
  | .runHeuristics _ => True
  | .tryClaim _ _ => True
  | .queueGravityCheck _ => True
  | .markDone _ _ => True
  | _ => False

/-- What vetting leaves alone: all but the tree and what gravity checks go by. -/
theorem vet_fst (score : Scorer) (p : Proxy) (env : Env) (domain : CStr) :
    (vet score p env domain).1 =
      { p with
        tree := runHeuristics score env.treeAlloc p.tree env.now domain
        gravity := (vet score p env domain).1.gravity } := by
  rw [vet]
  dsimp only
  split <;> rfl

/-- The claim, and the check if it was won. -/
theorem mem_vet {score : Scorer} {p : Proxy} {env : Env} {domain : CStr} {a : Action}
    (ha : a ∈ (vet score p env domain).2) :
    a = .runHeuristics domain ∨ (∃ won, a = .tryClaim domain won) ∨
      a = .queueGravityCheck domain ∨ a = .markDone domain false := by
  rw [vet] at ha
  dsimp only at ha
  split at ha
  · rcases List.mem_append.mp ha with hasked | hreleased
    · simp only [List.mem_cons, List.not_mem_nil, or_false] at hasked
      rcases hasked with rfl | rfl | rfl
      · exact Or.inl rfl
      · exact Or.inr (Or.inl ⟨true, rfl⟩)
      · exact Or.inr (Or.inr (Or.inl rfl))
    · split at hreleased
      · exact Or.inr (Or.inr (Or.inr (List.mem_singleton.mp hreleased)))
      · cases hreleased
  · simp only [List.mem_cons, List.not_mem_nil, or_false] at ha
    rcases ha with rfl | rfl
    · exact Or.inl rfl
    · exact Or.inr (Or.inl ⟨false, rfl⟩)

theorem vet_isVetting {score : Scorer} {p : Proxy} {env : Env} {domain : CStr} {a : Action}
    (ha : a ∈ (vet score p env domain).2) : a.IsVetting := by
  rcases mem_vet ha with rfl | ⟨won, rfl⟩ | rfl | rfl <;> trivial

/-- A look into the answer cache leaves all else alone. -/
theorem answerFromCache_snd (eligible : Bool) (p : Proxy) (nowNs : UInt64) (ctx : QueryContext) :
    (answerFromCache eligible p nowNs ctx).2 =
      { p with answerCache := (answerFromCache eligible p nowNs ctx).2.answerCache } := by
  unfold answerFromCache
  split <;> rfl

/-- **The answer cache, or the upstream**: what the cache has is sent; without an answer the
query is sent on, or given up for lack of a socket. -/
theorem answerOrForward_cases (p : Proxy) (env : Env) (ctx : QueryContext) (check : CheckResult) :
    let found := answerFromCache (cacheEligible ctx.qtype check) p env.nowNs ctx
    (∃ response, found.1 = some response ∧
      answerOrForward p env ctx check = ⟨found.2, [.sendCached ctx response], none⟩) ∨
    (found.1 = none ∧ ∃ waiting upstream, waiting.ctx = ctx ∧
      answerOrForward p env ctx check =
        ⟨found.2, [.forward upstream ctx.rawQuery], some waiting⟩) ∨
    (found.1 = none ∧ answerOrForward p env ctx check = ⟨found.2, [], none⟩) := by
  rw [answerOrForward]
  dsimp only
  split
  · next response _ heq =>
    rw [heq]
    exact Or.inl ⟨response, rfl, rfl⟩
  · next heq =>
    rw [heq]
    split
    · exact Or.inr (Or.inl ⟨rfl, ⟨ctx, _, _, _, _⟩, _, rfl, rfl⟩)
    · exact Or.inr (Or.inr ⟨rfl, rfl⟩)

theorem answerOrForward_proxy (p : Proxy) (env : Env) (ctx : QueryContext) (check : CheckResult) :
    (answerOrForward p env ctx check).proxy =
      (answerFromCache (cacheEligible ctx.qtype check) p env.nowNs ctx).2 := by
  rcases answerOrForward_cases p env ctx check with
    ⟨response, -, hout⟩ | ⟨-, waiting, upstream, -, hout⟩ | ⟨-, hout⟩ <;> rw [hout]

theorem answerOrForward_same (p : Proxy) (env : Env) (ctx : QueryContext) (check : CheckResult) :
    SameDecisions p (answerOrForward p env ctx check).proxy ∧
      ∀ a ∈ (answerOrForward p env ctx check).actions, ¬ a.IsVetting := by
  constructor
  · rw [answerOrForward_proxy, answerFromCache_snd]
    exact ⟨rfl, rfl, rfl⟩
  · intro a ha
    rcases answerOrForward_cases p env ctx check with
      ⟨response, -, hout⟩ | ⟨-, waiting, upstream, -, hout⟩ | ⟨-, hout⟩
    · rw [hout] at ha
      rw [List.mem_singleton.mp ha]
      exact id
    · rw [hout] at ha
      rw [List.mem_singleton.mp ha]
      exact id
    · rw [hout] at ha
      cases ha

/-- The proxy once `check_domain` is through. -/
def checkedProxy (p : Proxy) (env : Env) (domain : CStr) : Proxy :=
  { p with
    queryCache := (checkDomain p.queryCache p.tree env.nowNs env.now domain).2.1
    tree := (checkDomain p.queryCache p.tree env.nowNs env.now domain).2.2 }

/-- The check of a query. -/
def checkOf (p : Proxy) (env : Env) (ctx : QueryContext) : CheckResult :=
  (checkDomain p.queryCache p.tree env.nowNs env.now ctx.domain).1

/-- **What follows the check**: a BLOCKED response, or the answer cache, for an unmatched
domain after the vetting. -/
theorem handleQuery_after (score : Scorer) (p : Proxy) (env : Env) (ctx : QueryContext) :
    ((checkOf p env ctx).outcome = some .blocked ∧ ∃ response, handleQuery score p env ctx =
      ⟨checkedProxy p env ctx.domain, [.sendBlocked ctx response], none⟩) ∨
    ((checkOf p env ctx).outcome ≠ some .blocked ∧ (checkOf p env ctx).outcome ≠ none ∧
      handleQuery score p env ctx =
        answerOrForward (checkedProxy p env ctx.domain) env ctx (checkOf p env ctx)) ∨
    ((checkOf p env ctx).outcome = none ∧ handleQuery score p env ctx =
      let vetted := vet score (checkedProxy p env ctx.domain) env ctx.domain
      let out := answerOrForward vetted.1 env ctx (checkOf p env ctx)
      { out with actions := vetted.2 ++ out.actions }) := by
  rw [handleQuery, checkedProxy, checkOf, CheckResult.outcome]
  obtain ⟨check, queryCache, tree⟩ := checkDomain p.queryCache p.tree env.nowNs env.now ctx.domain
  dsimp only
  -- no match at all, and of the matches BLOCKED apart from the rest
  cases hmatched : check.matched with
  | false => exact Or.inr (Or.inr ⟨rfl, rfl⟩)
  | true =>
    by_cases hblocked : check.status = .blocked
    · refine Or.inl ⟨congrArg some hblocked, createBlockedResponse ctx.rawQuery
        (if check.ttl ≠ 0 then check.ttl else defaultBlockTtlSeconds), ?_⟩
      rw [Bool.true_and, if_pos (decide_eq_true hblocked)]
    · refine Or.inr (Or.inl
        ⟨fun h => hblocked (Option.some.inj h), Option.some_ne_none check.status, ?_⟩)
      rw [Bool.true_and, if_neg (by simpa using hblocked)]
      rfl

/-- **A query, by cases**: an unmatched domain is vetted; for any other nothing but
`check_domain` touches what decisions rest on. -/
theorem handleQuery_cases (score : Scorer) (p : Proxy) (env : Env) (ctx : QueryContext) :
    ((checkDomain p.queryCache p.tree env.nowNs env.now ctx.domain).1.outcome = none ∧
      SameDecisions (vet score (checkedProxy p env ctx.domain) env ctx.domain).1
        (handleQuery score p env ctx).proxy ∧
      ∀ a, a.IsVetting → (a ∈ (handleQuery score p env ctx).actions ↔
        a ∈ (vet score (checkedProxy p env ctx.domain) env ctx.domain).2)) ∨
    ((checkDomain p.queryCache p.tree env.nowNs env.now ctx.domain).1.outcome ≠ none ∧
      SameDecisions (checkedProxy p env ctx.domain) (handleQuery score p env ctx).proxy ∧
      ∀ a ∈ (handleQuery score p env ctx).actions, ¬ a.IsVetting) := by
  -- only the last of the three ways passes through the vetting
  rcases handleQuery_after score p env ctx with
    ⟨hblocked, response, hout⟩ | ⟨-, hmatched, hout⟩ | ⟨hnone, hout⟩
  · right
    refine ⟨?_, ?_, fun a ha => ?_⟩
    · intro hnone
      cases hnone.symm.trans hblocked
    · rw [hout]
      exact .refl _
    · rw [hout] at ha
      rw [List.mem_singleton.mp ha]
      exact id
  · right
    rw [hout]
    exact ⟨hmatched, answerOrForward_same _ env ctx _⟩
  · left
    obtain ⟨hsame, hactions⟩ := answerOrForward_same
      (vet score (checkedProxy p env ctx.domain) env ctx.domain).1 env ctx (checkOf p env ctx)
    rw [hout]
    refine ⟨hnone, hsame, fun a ha => ?_⟩
    rw [List.mem_append]
    exact or_iff_left fun hmem => hactions a hmem ha

/-- **A reply that is accepted** is relayed, and may be cached. -/
theorem acceptReply_cases (p : Proxy) (nowNs : UInt64) (parsed : Answer) (w : Waiting)
    (reply : CStr) :
    acceptReply p nowNs parsed w reply = (p, [.relay w.ctx reply]) ∨
    ∃ cache answer, p.answerCache = some cache ∧ acceptReply p nowNs parsed w reply =
      ({ p with
          answerCache := some (answerCacheInsert cache nowNs w.ctx.domain w.ctx.qtype answer).2 },
        [.relay w.ctx reply, .cacheAnswer w.ctx reply answer]) := by
  rw [acceptReply]
  split
  · next cache _ hcache =>
    split
    · exact Or.inr ⟨cache, _, hcache, rfl⟩
    · exact Or.inl rfl
  · exact Or.inl rfl

theorem acceptReply_fst (p : Proxy) (nowNs : UInt64) (parsed : Answer) (w : Waiting)
    (reply : CStr) : (acceptReply p nowNs parsed w reply).1 =
      { p with answerCache := (acceptReply p nowNs parsed w reply).1.answerCache } := by
  rcases acceptReply_cases p nowNs parsed w reply with hout | ⟨cache, answer, -, hout⟩ <;> rw [hout]

theorem mem_acceptReply {p : Proxy} {nowNs : UInt64} {parsed : Answer} {w : Waiting} {reply : CStr}
    {a : Action} (ha : a ∈ (acceptReply p nowNs parsed w reply).2) :
    a = .relay w.ctx reply ∨ ∃ answer, a = .cacheAnswer w.ctx reply answer := by
  rcases acceptReply_cases p nowNs parsed w reply with hout | ⟨cache, answer, -, hout⟩
  · rw [hout] at ha
    exact Or.inl (List.mem_singleton.mp ha)
  · rw [hout] at ha
    rcases List.mem_cons.mp ha with rfl | ha
    · exact Or.inl rfl
    · exact Or.inr ⟨answer, List.mem_singleton.mp ha⟩

/-- **A `recvfrom`**: the worker waits on, accepts the reply, or asks the other upstream or
gives up. -/
theorem receiveReply_outcome (p : Proxy) (w : Waiting) (r : Received) (tick restart nowNs : UInt64)
    (parsed : Answer) :
    let round := recvRound (messageId w.ctx.rawQuery) (p.upstreamAddrs w.upstream) w.deadline tick r
    let out := receiveReply p w r tick restart nowNs parsed
    (round = .again ∧ out = ⟨p, [], some w⟩) ∨
    (∃ reply upstream, round = .matched reply ∧
      let accepted := acceptReply { p with preferredUpstream := upstream } nowNs parsed w reply
      out = ⟨accepted.1, accepted.2, none⟩) ∨
    (round = .gaveUp ∧ (out = ⟨p, [], none⟩ ∨ ∃ waiting upstream, waiting.ctx = w.ctx ∧
      out = ⟨p, [.forward upstream w.ctx.rawQuery], some waiting⟩)) := by
  dsimp only
  rw [receiveReply]
  split
  · next hround => exact Or.inl ⟨hround, rfl⟩
  · next reply hround =>
    refine Or.inr (Or.inl ⟨reply, if w.onFallback then w.upstream else p.preferredUpstream,
      hround, ?_⟩)
    cases w.onFallback <;> rfl
  · next hround =>
    refine Or.inr (Or.inr ⟨hround, ?_⟩)
    split
    · exact Or.inl rfl
    · exact Or.inr ⟨{ w with onFallback := true, deadline := _ }, _, rfl, rfl⟩

theorem receiveReply_same (p : Proxy) (w : Waiting) (r : Received) (tick restart nowNs : UInt64)
    (parsed : Answer) :
    SameDecisions p (receiveReply p w r tick restart nowNs parsed).proxy ∧
      ∀ a ∈ (receiveReply p w r tick restart nowNs parsed).actions, ¬ a.IsVetting := by
  rcases receiveReply_outcome p w r tick restart nowNs parsed with
    ⟨-, hout⟩ | ⟨reply, upstream, -, hout⟩ | ⟨-, hout | ⟨waiting, upstream, -, hout⟩⟩
  · rw [hout]
    exact ⟨.refl p, fun a ha => by cases ha⟩
  · rw [hout, acceptReply_fst]
    refine ⟨⟨rfl, rfl, rfl⟩, fun a ha => ?_⟩
    rcases mem_acceptReply ha with rfl | ⟨answer, rfl⟩ <;> exact id
  · rw [hout]
    exact ⟨.refl p, fun a ha => by cases ha⟩
  · rw [hout]
    refine ⟨.refl p, fun a ha => ?_⟩
    rw [List.mem_singleton.mp ha]
    exact id

/-- **A request**: it is dropped, with nothing but the rate limiter changed, or handled. -/
theorem processRequest_cases (score : Scorer) (p : Proxy) (env : Env) (clientAddr : UInt32)
    (rawQuery : CStr) :
    (∃ rateLimiter, processRequest score p env clientAddr rawQuery =
      ⟨{ p with rateLimiter := rateLimiter }, [], none⟩) ∨
    ∃ rateLimiter domain qtype,
      rateLimitAllow p.rateLimiter clientAddr env.time = some (true, rateLimiter) ∧
      parseQuery rawQuery maxDomainLen = some (domain, qtype) ∧
      processRequest score p env clientAddr rawQuery =
        handleQuery score { p with rateLimiter := rateLimiter } env
          ⟨clientAddr, rawQuery, domain, qtype⟩ := by
  rw [processRequest]
  split
  · exact Or.inl ⟨p.rateLimiter, rfl⟩
  · exact Or.inl ⟨_, rfl⟩
  · next rateLimiter hrate =>
    dsimp only
    split
    · exact Or.inl ⟨_, rfl⟩
    · next domain qtype hparse =>
      exact Or.inr ⟨rateLimiter, domain, qtype, hrate, hparse, rfl⟩

/-- A gravity thread leaves all alone but the tree, the answer cache and what gravity checks
go by. -/
theorem gravityCheckThread_eq (p : Proxy) (a : Alloc) (now : UInt32) (i : Nat) (domain : CStr)
    (result : GravityResult) : gravityCheckThread p a now i domain result =
      { p with
        tree := (gravityCheckThread p a now i domain result).tree
        answerCache := (gravityCheckThread p a now i domain result).answerCache
        gravity := gravityFinish p.gravity i domain result } := by
  rw [gravityCheckThread]
  cases result <;> rfl

/-- **What an event can do to decisions**: the proxy decides about a query, or a
gravity thread finishes, or nothing that decisions rest on changes. -/
theorem Server.outcome_cases (score : Scorer) (s : Server) (e : Event) :
    (∃ w env clientAddr rawQuery ctx rateLimiter, e = .request w env clientAddr rawQuery ∧
      s.query e = some ctx ∧ WireName maxDomainLen ctx.domain ∧
      s.outcome score e = handleQuery score { s.proxy with rateLimiter := rateLimiter } env ctx) ∨
    (∃ i a now result domain, e = .gravity i a now result ∧
      s.proxy.gravity.threads[i]? = some domain ∧
      s.outcome score e = ⟨gravityCheckThread s.proxy a now i domain result,
        [.markDone domain (result ≠ .unreachable)], none⟩) ∨
    (s.query e = none ∧ SameDecisions s.proxy (s.outcome score e).proxy ∧
      ∀ a ∈ (s.outcome score e).actions, ¬ a.IsVetting) := by
  cases e with
  | request w env clientAddr rawQuery =>
    unfold Server.outcome Server.query processRequest question
    dsimp only
    cases hw : s.worker w with
    | some waiting => exact Or.inr (Or.inr ⟨rfl, .refl _, fun a ha => by cases ha⟩)
    | none =>
      simp only [Option.isSome_none, Bool.false_eq_true, if_false]
      -- a request is dropped over the rate or where it does not parse
      cases hrate : rateLimitAllow s.proxy.rateLimiter clientAddr env.time with
      | none => exact Or.inr (Or.inr ⟨rfl, .refl _, fun a ha => by cases ha⟩)
      | some limited =>
        obtain ⟨allow, rateLimiter⟩ := limited
        cases allow with
        | false => exact Or.inr (Or.inr ⟨rfl, ⟨rfl, rfl, rfl⟩, fun a ha => by cases ha⟩)
        | true =>
          cases hparse : parseQuery rawQuery maxDomainLen with
          | none => exact Or.inr (Or.inr ⟨rfl, ⟨rfl, rfl, rfl⟩, fun a ha => by cases ha⟩)
          | some parsed =>
            obtain ⟨domain, qtype⟩ := parsed
            exact Or.inl ⟨w, env, clientAddr, rawQuery, ⟨clientAddr, rawQuery, domain, qtype⟩,
              rateLimiter, rfl, rfl, parseQuery_wireName hparse, rfl⟩
  | receive w r tick restart nowNs parsed =>
    unfold Server.outcome Server.query
    dsimp only
    cases hw : s.worker w with
    | none => exact Or.inr (Or.inr ⟨rfl, .refl _, fun a ha => by cases ha⟩)
    | some waiting =>
      obtain ⟨hsame, hactions⟩ := receiveReply_same s.proxy waiting r tick restart nowNs parsed
      exact Or.inr (Or.inr ⟨rfl, hsame, hactions⟩)
  | gravity i a now result =>
    unfold Server.outcome Server.query
    dsimp only
    cases hi : s.proxy.gravity.threads[i]? with
    | none => exact Or.inr (Or.inr ⟨rfl, .refl _, fun a ha => by cases ha⟩)
    | some domain => exact Or.inr (Or.inl ⟨i, a, now, result, domain, rfl, hi, rfl⟩)

theorem Server.step_proxy (score : Scorer) (s : Server) (e : Event) :
    (s.step score e).proxy = (s.outcome score e).proxy := by
  rw [Server.step]
  cases e.worker <;> rfl

/-- An event touches no worker but its own. -/
theorem Server.step_worker (score : Scorer) (s : Server) (e : Event) (w : Nat) :
    (s.step score e).worker w =
      if e.worker = some w then (s.outcome score e).waiting else s.worker w := by
  rw [Server.step]
  cases he : e.worker with
  | none => rfl
  | some w' =>
    show Function.update s.worker w' (s.outcome score e).waiting w = _
    by_cases hw : w' = w
    · subst hw
      rw [Function.update_self, if_pos rfl]
    · rw [Function.update_of_ne (Ne.symm hw), if_neg (fun h => hw (Option.some.inj h))]

theorem Server.step_sent (score : Scorer) (s : Server) (e : Event) (w : Nat) :
    (s.step score e).sent w =
      if e.worker = some w then s.sent w ++ forwarded (s.outcome score e).actions
      else s.sent w := by
  rw [Server.step]
  cases he : e.worker with
  | none => rfl
  | some w' =>
    show Function.update s.sent w' (s.sent w' ++ forwarded (s.outcome score e).actions) w = _
    by_cases hw : w' = w
    · subst hw
      rw [Function.update_self, if_pos rfl]
    · rw [Function.update_of_ne (Ne.symm hw), if_neg (fun h => hw (Option.some.inj h))]

theorem answerOrForward_upstreamAddrs (p : Proxy) (env : Env) (ctx : QueryContext)
    (check : CheckResult) :
    (answerOrForward p env ctx check).proxy.upstreamAddrs = p.upstreamAddrs := by
  rw [answerOrForward_proxy, answerFromCache_snd]

theorem handleQuery_upstreamAddrs (score : Scorer) (p : Proxy) (env : Env) (ctx : QueryContext) :
    (handleQuery score p env ctx).proxy.upstreamAddrs = p.upstreamAddrs := by
  rcases handleQuery_after score p env ctx with ⟨-, response, hout⟩ | ⟨-, -, hout⟩ | ⟨-, hout⟩
  · rw [hout]
    rfl
  · rw [hout, answerOrForward_upstreamAddrs]
    rfl
  · rw [hout]
    dsimp only
    rw [answerOrForward_upstreamAddrs, vet_fst]
    rfl

theorem receiveReply_upstreamAddrs (p : Proxy) (w : Waiting) (r : Received)
    (tick restart nowNs : UInt64) (parsed : Answer) :
    (receiveReply p w r tick restart nowNs parsed).proxy.upstreamAddrs = p.upstreamAddrs := by
  rcases receiveReply_outcome p w r tick restart nowNs parsed with
    ⟨-, hout⟩ | ⟨reply, upstream, -, hout⟩ | ⟨-, hout | ⟨waiting, upstream, -, hout⟩⟩
  · rw [hout]
  · rw [hout, acceptReply_fst]
  · rw [hout]
  · rw [hout]

/-- The addresses of the upstreams never change. -/
theorem Server.step_upstreamAddrs (score : Scorer) (s : Server) (e : Event) :
    (s.step score e).proxy.upstreamAddrs = s.proxy.upstreamAddrs := by
  rw [Server.step_proxy]
  cases e with
  | request w env clientAddr rawQuery =>
    rw [Server.outcome]
    split
    · rfl
    · rcases processRequest_cases score s.proxy env clientAddr rawQuery with
        ⟨rateLimiter, hout⟩ | ⟨rateLimiter, domain, qtype, -, -, hout⟩
      · rw [hout]
      · rw [hout, handleQuery_upstreamAddrs]
  | receive w r tick restart nowNs parsed =>
    rw [Server.outcome]
    split
    · exact receiveReply_upstreamAddrs _ _ _ _ _ _ _
    · rfl
  | gravity i a now result =>
    rw [Server.outcome]
    split
    · dsimp only
      rw [gravityCheckThread_eq]
    · rfl

end Nyet
