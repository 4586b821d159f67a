import Nyet.Cache.AnswerMap
import Nyet.Proxy.RepeatQueries
import Nyet.Proxy.Upstream

/-!
# Where an answer from memory comes from

What a client gets out of `dns_answer_cache` was in a reply once, to somebody else perhaps and
long ago. `Remembering` records for each name and type the reply that was stored last, until a
promotion takes the name's answers out. Every response from memory is made of that reply and of
no other (`cached_answer_from_reply`): the slots of the table, what they evict and how they hash
make no difference to what is said, in any interleaving of the workers and the gravity threads.
-/

namespace Nyet

/-- A reply whose answer went into the cache, and the request it was taken for. -/
structure Stored where
  ctx : QueryContext
  reply : CStr
  answer : Answer

def Stored.key (x : Stored) : AnswerKey := (x.ctx.domain, x.ctx.qtype)

/-- What an action puts into the cache. -/
def Action.stored : Action → Option Stored
  | .cacheAnswer ctx reply answer =>
    if Acceptable ctx.domain answer then some ⟨ctx, reply, answer⟩ else none
  | _ => none

def Outcome.stored (out : Outcome) : List Stored := out.actions.filterMap Action.stored

/-- The domain whose answers a gravity thread takes out. -/
def Server.forgets (s : Server) : Event → Option CStr
  | .gravity i _ _ .blocked => s.proxy.gravity.threads[i]?
  | _ => none

/-- The reply stored last for each name and type. -/
abbrev LatestReplies := AnswerKey → Option Stored

def LatestReplies.put (latest : LatestReplies) (x : Stored) : LatestReplies :=
  Function.update latest x.key (some x)

/-- Without the answers of a domain. -/
def LatestReplies.without (latest : LatestReplies) (domain : Option CStr) : LatestReplies :=
  fun key => if domain = some key.1 then none else latest key

/-- The proxy, and the reply that was stored last for each name and type and has not been taken
out since. -/
structure Remembering where
  server : Server
  latest : LatestReplies

/-- One event. -/
def Remembering.step (score : Scorer) (s : Remembering) (e : Event) : Remembering where
  server := s.server.step score e
  latest := (s.server.outcome score e).stored.foldl LatestReplies.put
    (s.latest.without (s.server.forgets e))

/-- Nothing stored yet. -/
def Remembering.start (p : Proxy) : Remembering := ⟨.start p, fun _ => none⟩

/-- The reply has the ID of its request, and its addresses are the answer. -/
structure Stored.Genuine (x : Stored) : Prop where
  id : messageId x.reply = messageId x.ctx.rawQuery
  read : ∃ parsed, parseAnswerRecords x.reply x.ctx.qtype parsed = (true, x.answer)

/-- **A response from memory** is sent about a domain that is ALLOWED or has no match, and is
made of the reply stored last for its name and type. -/
def AnswersFromReplies (score : Scorer) (s : Remembering) (e : Event) : Prop :=
  ∀ ctx response, .sendCached ctx response ∈ (s.server.outcome score e).actions →
    (∃ w env clientAddr rawQuery, e = .request w env clientAddr rawQuery ∧
      ((checkOf s.server.proxy env ctx).outcome = none ∨
        (checkOf s.server.proxy env ctx).outcome = some .allowed)) ∧
    ∃ x, s.latest (ctx.domain, ctx.qtype) = some x ∧
      x.ctx.domain = ctx.domain ∧ x.ctx.qtype = ctx.qtype ∧ x.Genuine ∧
      createCachedAnswerResponse ctx.rawQuery (bufferSize + 32) ctx.qtype x.answer = some response

/-! ## What is sent from memory -/

/-- Who may be answered from memory: an address query, about a domain that is ALLOWED or has no
match. A BLOCKED or REVIEW verdict closes the cache. -/
theorem cacheEligible_eq_true {qtype : UInt16} {check : CheckResult}
    (h : cacheEligible qtype check = true) :
    (qtype = 1 ∨ qtype = 28) ∧ (check.outcome = none ∨ check.outcome = some .allowed) := by
  rw [cacheEligible, Bool.and_eq_true] at h
  obtain ⟨hqtype, hcheck⟩ := h
  refine ⟨by simpa using hqtype, ?_⟩
  rw [CheckResult.outcome]
  cases hmatched : check.matched with
  | false => exact Or.inl rfl
  | true =>
    rw [hmatched] at hcheck
    right
    have hstatus : check.status = .allowed := by simpa using hcheck
    rw [hstatus]
    rfl

/-- The cache has the answer, and a response can be made of it. -/
def FromMemory (p : Proxy) (nowNs : UInt64) (ctx : QueryContext) (response : CStr) : Prop :=
  ∃ cache answer, p.answerCache = some cache ∧
    (answerCacheLookup cache nowNs ctx.domain ctx.qtype).1 = some answer ∧
    createCachedAnswerResponse ctx.rawQuery (bufferSize + 32) ctx.qtype answer = some response

/-- A response comes out of the cache only for an eligible query, and only if the lookup hits and
the response fits. -/
theorem answerFromCache_found {eligible : Bool} {p : Proxy} {nowNs : UInt64} {ctx : QueryContext}
    {response : CStr} (h : (answerFromCache eligible p nowNs ctx).1 = some response) :
    eligible = true ∧ FromMemory p nowNs ctx response := by
  unfold answerFromCache at h
  split at h
  · next cache hcache =>
    obtain ⟨answer, hanswer, hresponse⟩ := Option.bind_eq_some_iff.mp h
    exact ⟨rfl, cache, answer, hcache, hanswer, hresponse⟩
  · cases h

/-- Of the two ways on from a check only the first sends a response from memory, and to the query
itself. -/
theorem answerOrForward_sendCached {p : Proxy} {env : Env} {ctx ctx' : QueryContext}
    {check : CheckResult} {response : CStr}
    (h : .sendCached ctx' response ∈ (answerOrForward p env ctx check).actions) :
    ctx' = ctx ∧ cacheEligible ctx.qtype check = true ∧ FromMemory p env.nowNs ctx response := by
  rcases answerOrForward_cases p env ctx check with
    ⟨response', hfound, hout⟩ | ⟨-, waiting, upstream, -, hout⟩ | ⟨-, hout⟩
  · rw [hout] at h
    cases List.mem_singleton.mp h
    exact ⟨rfl, answerFromCache_found hfound⟩
  · rw [hout] at h
    cases List.mem_singleton.mp h
  · rw [hout] at h
    cases h

/-- Vetting comes in between for an unmatched domain, and it neither sends anything nor touches the
answer cache. -/
theorem handleQuery_sendCached {score : Scorer} {p : Proxy} {env : Env} {ctx ctx' : QueryContext}
    {response : CStr} (h : .sendCached ctx' response ∈ (handleQuery score p env ctx).actions) :
    ctx' = ctx ∧ cacheEligible ctx.qtype (checkOf p env ctx) = true ∧
      FromMemory p env.nowNs ctx response := by
  rcases handleQuery_after score p env ctx with ⟨-, response', hout⟩ | ⟨-, -, hout⟩ | ⟨-, hout⟩
  · rw [hout] at h
    cases List.mem_singleton.mp h
  · rw [hout] at h
    obtain ⟨hctx, heligible, hfound⟩ := answerOrForward_sendCached h
    exact ⟨hctx, heligible, hfound⟩
  · rw [hout] at h
    rcases List.mem_append.mp h with hvet | h
    · exact (vet_isVetting hvet).elim
    · obtain ⟨hctx, heligible, hfound⟩ := answerOrForward_sendCached h
      rw [vet_fst] at hfound
      exact ⟨hctx, heligible, hfound⟩

/-- What a reply brings is relayed or stored, never answered from memory. -/
theorem receiveReply_sendCached {p : Proxy} {w : Waiting} {r : Received}
    {tick restart nowNs : UInt64} {parsed : Answer} {ctx : QueryContext} {response : CStr} :
    .sendCached ctx response ∉ (receiveReply p w r tick restart nowNs parsed).actions := by
  intro h
  rcases receiveReply_outcome p w r tick restart nowNs parsed with
    ⟨-, hout⟩ | ⟨reply, upstream, -, hout⟩ | ⟨-, hout | ⟨waiting, upstream, -, hout⟩⟩
  · rw [hout] at h
    cases h
  · rw [hout] at h
    rcases mem_acceptReply h with heq | ⟨answer, heq⟩ <;> cases heq
  · rw [hout] at h
    cases h
  · rw [hout] at h
    cases List.mem_singleton.mp h

/-- **A response from memory**: the event is a request, and the cache has the answer. -/
theorem Server.outcome_sendCached {score : Scorer} {s : Server} {e : Event} {ctx : QueryContext}
    {response : CStr} (h : .sendCached ctx response ∈ (s.outcome score e).actions) :
    ∃ w env clientAddr rawQuery, e = .request w env clientAddr rawQuery ∧
      cacheEligible ctx.qtype (checkOf s.proxy env ctx) = true ∧
      FromMemory s.proxy env.nowNs ctx response := by
  cases e with
  | request w env clientAddr rawQuery =>
    unfold Server.outcome at h
    dsimp only at h
    -- a worker that waits already takes no request
    split at h
    · cases h
    · rcases processRequest_cases score s.proxy env clientAddr rawQuery with
        ⟨rateLimiter, hout⟩ | ⟨rateLimiter, domain, qtype, -, -, hout⟩
      · rw [hout] at h
        cases h
      · rw [hout] at h
        obtain ⟨rfl, heligible, hfound⟩ := handleQuery_sendCached h
        exact ⟨w, env, clientAddr, rawQuery, rfl, heligible, hfound⟩
  | receive w r tick restart nowNs parsed =>
    unfold Server.outcome at h
    dsimp only at h
    split at h
    · exact (receiveReply_sendCached h).elim
    · cases h
  | gravity i a now result =>
    unfold Server.outcome at h
    dsimp only at h
    split at h
    · cases List.mem_singleton.mp h
    · cases h

/-! ## What the cache holds -/

/-- Every record in the cache is of the reply stored last for its key. -/
def Serves (answerCache : Option (AnswerCache proxyCacheCapacity)) (latest : LatestReplies) :
    Prop :=
  ∀ cache, answerCache = some cache → Maps cache fun key => (latest key).map Stored.answer

/-- The cache is as it was, or has been looked into. -/
def LookedInto (before after : Option (AnswerCache proxyCacheCapacity)) : Prop :=
  after = before ∨ ∃ cache nowNs domain qtype,
    before = some cache ∧ after = some (answerCacheLookup cache nowNs domain qtype).2

/-- A lookup moves time stamps and may free a slot that has expired; what the cache serves stays
what it was. -/
theorem LookedInto.serves {before after : Option (AnswerCache proxyCacheCapacity)}
    {latest : LatestReplies} (hlooked : LookedInto before after) (h : Serves before latest) :
    Serves after latest := by
  rcases hlooked with rfl | ⟨cache, nowNs, domain, qtype, hbefore, rfl⟩
  · exact h
  · intro cache' hcache'
    cases hcache'
    exact (h cache hbefore).lookup nowNs domain qtype

/-- To flag a domain or to ask the Pi about it stores nothing. -/
theorem Action.IsVetting.stored_eq_none {a : Action} (h : a.IsVetting) : a.stored = none := by
  cases a <;> first | rfl | exact h.elim

/-- Answering looks into the cache at most and stores nothing. -/
theorem answerOrForward_looks (p : Proxy) (env : Env) (ctx : QueryContext) (check : CheckResult) :
    LookedInto p.answerCache (answerOrForward p env ctx check).proxy.answerCache ∧
      (answerOrForward p env ctx check).stored = [] := by
  constructor
  · rw [answerOrForward_proxy]
    unfold answerFromCache
    split
    · next cache _ hcache => exact Or.inr ⟨cache, _, _, _, hcache, rfl⟩
    · exact Or.inl rfl
  · rcases answerOrForward_cases p env ctx check with
      ⟨response, -, hout⟩ | ⟨-, waiting, upstream, -, hout⟩ | ⟨-, hout⟩ <;>
    · rw [hout]
      rfl

/-- So does a whole query: its check, its vetting and its answer. -/
theorem handleQuery_looks (score : Scorer) (p : Proxy) (env : Env) (ctx : QueryContext) :
    LookedInto p.answerCache (handleQuery score p env ctx).proxy.answerCache ∧
      (handleQuery score p env ctx).stored = [] := by
  rcases handleQuery_after score p env ctx with ⟨-, response, hout⟩ | ⟨-, -, hout⟩ | ⟨-, hout⟩
  · rw [hout]
    exact ⟨Or.inl rfl, rfl⟩
  · rw [hout]
    exact answerOrForward_looks (checkedProxy p env ctx.domain) env ctx _
  · have hlooks := answerOrForward_looks
      (vet score (checkedProxy p env ctx.domain) env ctx.domain).1 env ctx (checkOf p env ctx)
    rw [hout]
    refine ⟨?_, ?_⟩
    · have hcache := hlooks.1
      rw [show (vet score (checkedProxy p env ctx.domain) env ctx.domain).1.answerCache =
        p.answerCache by rw [vet_fst]; rfl] at hcache
      exact hcache
    · rw [Outcome.stored]
      dsimp only
      have hvetting : (vet score (checkedProxy p env ctx.domain) env ctx.domain).2.filterMap
          Action.stored = [] :=
        List.filterMap_eq_nil_iff.mpr fun a ha => (vet_isVetting ha).stored_eq_none
      rw [List.filterMap_append, hvetting]
      exact hlooks.2

/-- **A reply that is accepted**: nothing is stored, or what has been read from it. -/
theorem acceptReply_stores (p : Proxy) (nowNs : UInt64) (parsed : Answer) (w : Waiting)
    (reply : CStr) :
    let accepted := acceptReply p nowNs parsed w reply
    (accepted.1.answerCache = p.answerCache ∧ accepted.2.filterMap Action.stored = []) ∨
    ∃ cache answer, w.cacheEligible = true ∧ p.answerCache = some cache ∧
      parseAnswerRecords reply w.ctx.qtype parsed = (true, answer) ∧
      accepted.1.answerCache =
        some (answerCacheInsert cache nowNs w.ctx.domain w.ctx.qtype answer).2 ∧
      accepted.2.filterMap Action.stored =
        if Acceptable w.ctx.domain answer then [⟨w.ctx, reply, answer⟩] else [] := by
  dsimp only
  rw [acceptReply]
  split
  · next cache heligible hcache =>
    split
    · next answer hparse =>
      refine Or.inr ⟨cache, answer, heligible, hcache, hparse, rfl, ?_⟩
      cases hacceptable : Acceptable w.ctx.domain answer <;>
        simp [List.filterMap_cons, Action.stored, hacceptable]
    · exact Or.inl ⟨rfl, rfl⟩
  · exact Or.inl ⟨rfl, rfl⟩

/-- A waiting request that may be answered from the cache asks for an address. -/
def Waiting.Address (w : Waiting) : Prop :=
  w.cacheEligible = true → w.ctx.qtype = 1 ∨ w.ctx.qtype = 28

/-- **A reply that is stored** becomes the last one of its key in the table and in the record alike;
one that is refused changes neither. -/
theorem Serves.accept {p : Proxy} {latest : LatestReplies} (h : Serves p.answerCache latest)
    (nowNs : UInt64) (parsed : Answer) {w : Waiting} (hw : w.Address) {reply : CStr}
    (hid : messageId reply = messageId w.ctx.rawQuery) :
    let accepted := acceptReply p nowNs parsed w reply
    Serves accepted.1.answerCache
        ((accepted.2.filterMap Action.stored).foldl LatestReplies.put latest) ∧
      ∀ x ∈ accepted.2.filterMap Action.stored, x.Genuine := by
  dsimp only
  rcases acceptReply_stores p nowNs parsed w reply with
    ⟨hcache, hstored⟩ | ⟨cache, answer, heligible, hcache, hparse, hafter, hstored⟩
  · rw [hcache, hstored]
    exact ⟨h, fun x hx => by cases hx⟩
  · rw [hafter, hstored]
    -- an eligible request asks for an address, and of those types the table is a map
    have hmaps := (h cache hcache).insert nowNs w.ctx.domain (hw heligible) answer
    rcases answerCacheInsert_cases cache nowNs w.ctx.domain w.ctx.qtype answer with
      ⟨hrefused, heq⟩ | ⟨hacceptable, htrue, -⟩
    · rw [hrefused, heq]
      refine ⟨fun cache' hcache' => ?_, fun x hx => by cases hx⟩
      cases hcache'
      exact h cache hcache
    · rw [if_pos hacceptable]
      rw [if_pos htrue] at hmaps
      refine ⟨fun cache' hcache' => ?_, fun x hx => ?_⟩
      · cases hcache'
        convert hmaps using 1
        exact Function.comp_update (Option.map Stored.answer) latest
          (w.ctx.domain, w.ctx.qtype) (some ⟨w.ctx, reply, answer⟩)
      · rw [List.mem_singleton.mp hx]
        exact ⟨hid, parsed, hparse⟩

/-- The answers of a domain are taken out of the table and of the record. -/
theorem Serves.forget {answerCache : Option (AnswerCache proxyCacheCapacity)}
    {latest : LatestReplies} (h : Serves answerCache latest) (domain : CStr) :
    Serves (answerCache.map fun cache => (answerCacheInvalidate cache domain).2)
      (latest.without (some domain)) := by
  intro cache' hcache'
  obtain ⟨cache, hcache, rfl⟩ := Option.map_eq_some_iff.mp hcache'
  convert (h cache hcache).invalidate domain using 1
  funext key
  show (if some domain = some key.1 then none else latest key).map Stored.answer = _
  by_cases hkey : key.1 = domain
  · rw [if_pos hkey, if_pos (congrArg some hkey.symm)]
    rfl
  · rw [if_neg hkey, if_neg fun heq => hkey (Option.some.inj heq).symm]

/-- **A `recvfrom`**: only a matching reply is stored. -/
theorem Serves.receive {p : Proxy} {latest : LatestReplies} (h : Serves p.answerCache latest)
    {w : Waiting} (hw : w.Address) (r : Received) (tick restart nowNs : UInt64) (parsed : Answer) :
    let out := receiveReply p w r tick restart nowNs parsed
    Serves out.proxy.answerCache (out.stored.foldl LatestReplies.put latest) ∧
      ∀ x ∈ out.stored, x.Genuine := by
  dsimp only
  rcases receiveReply_outcome p w r tick restart nowNs parsed with
    ⟨-, hout⟩ | ⟨reply, upstream, hround, hout⟩ | ⟨-, hout | ⟨waiting, upstream, -, hout⟩⟩
  · rw [hout]
    exact ⟨h, fun x hx => by cases hx⟩
  · have hid := (recvRound_eq_matched.mp hround).2.2.2
    have hserves : Serves { p with preferredUpstream := upstream }.answerCache latest := h
    rw [hout]
    exact hserves.accept nowNs parsed hw hid
  · rw [hout]
    exact ⟨h, fun x hx => by cases hx⟩
  · rw [hout]
    exact ⟨h, fun x hx => by cases hx⟩

/-- Where no promotion takes place nothing is forgotten. -/
theorem LatestReplies.without_none (latest : LatestReplies) : latest.without none = latest :=
  funext fun _ => if_neg nofun

section Outcome

variable {score : Scorer} {s : Server} {latest : LatestReplies}

/-- **One event**: the cache holds what it should, and what is stored is genuine. -/
theorem Serves.outcome (h : Serves s.proxy.answerCache latest)
    (hwaiting : ∀ w waiting, s.worker w = some waiting → waiting.Address) (e : Event) :
    Serves (s.outcome score e).proxy.answerCache
        ((s.outcome score e).stored.foldl LatestReplies.put (latest.without (s.forgets e))) ∧
      ∀ x ∈ (s.outcome score e).stored, x.Genuine := by
  -- most events look into the cache at most
  have hnothing : ∀ out : Outcome, LookedInto s.proxy.answerCache out.proxy.answerCache →
      out.stored = [] →
      Serves out.proxy.answerCache (out.stored.foldl LatestReplies.put (latest.without none)) ∧
        ∀ x ∈ out.stored, x.Genuine := by
    intro out hlooks hstored
    rw [hstored, LatestReplies.without_none]
    exact ⟨hlooks.serves h, fun x hx => by cases hx⟩
  cases e with
  | request w env clientAddr rawQuery =>
    unfold Server.outcome
    dsimp only
    split
    · exact hnothing _ (Or.inl rfl) rfl
    · rcases processRequest_cases score s.proxy env clientAddr rawQuery with
        ⟨rateLimiter, hout⟩ | ⟨rateLimiter, domain, qtype, -, -, hout⟩
      · rw [hout]
        exact hnothing _ (Or.inl rfl) rfl
      · rw [hout]
        obtain ⟨hlooks, hstored⟩ := handleQuery_looks score
          { s.proxy with rateLimiter := rateLimiter } env ⟨clientAddr, rawQuery, domain, qtype⟩
        exact hnothing _ hlooks hstored
  | receive w r tick restart nowNs parsed =>
    unfold Server.outcome
    dsimp only
    split
    · next waiting hworker =>
      have hreceive := h.receive (hwaiting w waiting hworker) r tick restart nowNs parsed
      rw [← LatestReplies.without_none latest] at hreceive
      exact hreceive
    · exact hnothing _ (Or.inl rfl) rfl
  | gravity i a now result =>
    unfold Server.outcome
    dsimp only
    split
    · next domain hthread =>
      cases result with
      | blocked =>
        refine ⟨?_, fun x hx => by cases hx⟩
        rw [Server.forgets]
        dsimp only
        rw [hthread]
        exact h.forget domain
      | clean => exact hnothing _ (Or.inl rfl) rfl
      | unreachable => exact hnothing _ (Or.inl rfl) rfl
    · next hthread =>
      have hforgets : s.forgets (.gravity i a now result) = none := by
        cases result with
        | blocked => exact hthread
        | clean => rfl
        | unreachable => rfl
      rw [hforgets]
      exact hnothing ⟨s.proxy, [], none⟩ (Or.inl rfl) rfl

/-! ## What a worker waits for -/

/-- Who waits and may be answered from memory later was eligible when it was forwarded. -/
theorem answerOrForward_address {p : Proxy} {env : Env} {ctx : QueryContext} {check : CheckResult}
    {waiting : Waiting} (h : (answerOrForward p env ctx check).waiting = some waiting) :
    waiting.Address := by
  rw [answerOrForward] at h
  dsimp only at h
  split at h
  · cases h
  · split at h
    · cases h
      exact fun heligible => (cacheEligible_eq_true heligible).1
    · cases h

/-- A query starts to wait only where it is forwarded. -/
theorem handleQuery_address {p : Proxy} {env : Env} {ctx : QueryContext} {waiting : Waiting}
    (h : (handleQuery score p env ctx).waiting = some waiting) : waiting.Address := by
  rcases handleQuery_after score p env ctx with ⟨-, response, hout⟩ | ⟨-, -, hout⟩ | ⟨-, hout⟩
  · rw [hout] at h
    cases h
  · rw [hout] at h
    exact answerOrForward_address h
  · rw [hout] at h
    exact answerOrForward_address h

/-- Whoever goes on waiting waits for the same. -/
theorem receiveReply_address {p : Proxy} {w waiting : Waiting} (hw : w.Address) {r : Received}
    {tick restart nowNs : UInt64} {parsed : Answer}
    (h : (receiveReply p w r tick restart nowNs parsed).waiting = some waiting) :
    waiting.Address := by
  rw [receiveReply] at h
  split at h
  · cases h
    exact hw
  · cases h
  · split at h
    · cases h
    · cases h
      exact hw

/-- A worker that waits has started to in this event, or goes on. -/
theorem Server.step_address (h : ∀ w waiting, s.worker w = some waiting → waiting.Address)
    (e : Event) {w : Nat} {waiting : Waiting}
    (hwaiting : (s.step score e).worker w = some waiting) : waiting.Address := by
  rw [Server.step_worker] at hwaiting
  split at hwaiting
  · next hw =>
    cases e with
    | request w' env clientAddr rawQuery =>
      unfold Server.outcome at hwaiting
      dsimp only at hwaiting
      split at hwaiting
      · next old hworker =>
        cases hwaiting
        exact h w' _ hworker
      · rcases processRequest_cases score s.proxy env clientAddr rawQuery with
          ⟨rateLimiter, hout⟩ | ⟨rateLimiter, domain, qtype, -, -, hout⟩
        · rw [hout] at hwaiting
          cases hwaiting
        · rw [hout] at hwaiting
          exact handleQuery_address hwaiting
    | receive w' r tick restart nowNs parsed =>
      unfold Server.outcome at hwaiting
      dsimp only at hwaiting
      split at hwaiting
      · next old hworker => exact receiveReply_address (h w' old hworker) hwaiting
      · cases hwaiting
    | gravity i a now result => cases hw
  · exact h w waiting hwaiting

end Outcome

/-! ## Runs -/

/-- Every reply stands under the name and type it was asked for, and is genuine. -/
def LatestReplies.Genuine (latest : LatestReplies) : Prop :=
  ∀ key x, latest key = some x → x.key = key ∧ x.Genuine

/-- Forgetting leaves genuine what it leaves. -/
theorem LatestReplies.Genuine.without {latest : LatestReplies} (h : latest.Genuine)
    (domain : Option CStr) : (latest.without domain).Genuine := by
  intro key x hx
  rw [LatestReplies.without] at hx
  split at hx
  · cases hx
  · exact h key x hx

/-- What is recorded in an event goes under its own key, one reply after another. -/
theorem LatestReplies.Genuine.puts {latest : LatestReplies} (h : latest.Genuine) {xs : List Stored}
    (hxs : ∀ x ∈ xs, x.Genuine) : LatestReplies.Genuine (xs.foldl LatestReplies.put latest) := by
  induction xs generalizing latest with
  | nil => exact h
  | cons y ys ih =>
    refine ih (fun key x hx => ?_) fun x hx => hxs x (List.mem_cons_of_mem y hx)
    rw [LatestReplies.put] at hx
    by_cases hkey : key = y.key
    · rw [hkey, Function.update_self] at hx
      cases hx
      exact ⟨hkey.symm, hxs y List.mem_cons_self⟩
    · rw [Function.update_of_ne hkey] at hx
      exact h key x hx

/-- What is true in every state. -/
structure Remembering.Kept (s : Remembering) : Prop where
  serves : Serves s.server.proxy.answerCache s.latest
  address : ∀ w waiting, s.server.worker w = some waiting → waiting.Address
  genuine : s.latest.Genuine

/-- At the start the cache is empty, nobody waits, and nothing is recorded. -/
theorem Remembering.Kept.init (time : UInt32) (blocklist learned : Option CStr)
    (queryCacheOk answerCacheOk : Bool) (upstreamAddrs : Upstream → SockAddr) :
    Remembering.Kept (.start
      (Proxy.init time blocklist learned queryCacheOk answerCacheOk upstreamAddrs)) where
  serves cache hcache := by
    cases answerCacheOk with
    | false => cases hcache
    | true =>
      have hinit : answerCacheInit proxyCacheCapacity = some cache := hcache
      exact Maps.init (answerCacheInit_zero hinit)
  address _ _ hworker := by cases hworker
  genuine _ _ hx := by cases hx

/-- **Every event keeps it**, by what one event does to each of the three. -/
theorem Remembering.Kept.step {s : Remembering} (h : s.Kept) (score : Scorer) (e : Event) :
    (s.step score e).Kept := by
  obtain ⟨hserves, hgenuine⟩ := @Serves.outcome score _ _ h.serves h.address e
  refine ⟨?_, fun w waiting => Server.step_address h.address e, (h.genuine.without _).puts hgenuine⟩
  show Serves (s.server.step score e).proxy.answerCache _
  rw [Server.step_proxy]
  exact hserves

/-- In such a state what is answered from memory is the record's reply. -/
theorem Remembering.Kept.answers {s : Remembering} (h : s.Kept) (score : Scorer) (e : Event) :
    AnswersFromReplies score s e := by
  intro ctx response hsent
  obtain ⟨w, env, clientAddr, rawQuery, he, heligible, cache, answer, hcache, hfound, hresponse⟩ :=
    Server.outcome_sendCached hsent
  refine ⟨⟨w, env, clientAddr, rawQuery, he, (cacheEligible_eq_true heligible).2⟩, ?_⟩
  -- the lookup returns the binding of the key, and that is the last reply
  have hlatest := (h.serves cache hcache).servesLatest (s := ⟨cache, _⟩)
    ⟨env.nowNs, .lookup ctx.domain ctx.qtype⟩ answer hfound
  obtain ⟨x, hx, rfl⟩ := Option.map_eq_some_iff.mp hlatest
  obtain ⟨hkey, hgenuine⟩ := h.genuine _ x hx
  exact ⟨x, hx, congrArg Prod.fst hkey, congrArg Prod.snd hkey, hgenuine, hresponse⟩

/-- **Every response from memory is an earlier reply**: in any run of the proxy, what is sent out
of the answer cache is about a domain that is ALLOWED or has no match, and is made of the reply
that was stored last for its name and type and that no promotion has taken out since. -/
theorem cached_answer_from_reply (score : Scorer) (time : UInt32) (blocklist learned : Option CStr)
    (queryCacheOk answerCacheOk : Bool) (upstreamAddrs : Upstream → SockAddr) (es : List Event) :
    Lib.EveryStep (Remembering.step score) (AnswersFromReplies score)
      (.start (Proxy.init time blocklist learned queryCacheOk answerCacheOk upstreamAddrs)) es := by
  have hstep : ∀ (s : Remembering) (e : Event), s.Kept → True → (s.step score e).Kept :=
    fun _ e h _ => h.step score e
  have hstart :=
    Remembering.Kept.init time blocklist learned queryCacheOk answerCacheOk upstreamAddrs
  exact .of_invariant hstep (fun _ e h _ => h.answers score e) hstart
    (Lib.everyStep_of_mem (fun _ _ _ => trivial) _)

/-- An answer to a query for `example.com`. -/
def addressReply (id : UInt16) : CStr :=
  overwrite (overwrite (queryPacket id [cstr "example", cstr "com"] 1) 2 responseFlags) 6
      (wire16 1) ++
    recordHeader 1 300 4 ++ [93, 184, 216, 34]

/-- One client asks for it and is answered; there is no memory for the REVIEW entry. -/
def askedOnce : List Event :=
  [.request 0 { Env.at 1700000000 0 with treeAlloc := [false] } 1
      (queryPacket 1 [cstr "example", cstr "com"] 1),
    .receive 0 (.datagram ⟨0, 53⟩ (addressReply 1)) 1 0 0 ⟨List.replicate 8 [], 0, 0, 0⟩]

/-- Another client asks for it. -/
def askedByOther : Event :=
  .request 1 (.at 1700000001 1000) 2 (queryPacket 2 [cstr "example", cstr "com"] 1)

/-- The second query is answered out of the cache, under the second client's ID. -/
theorem askedByOther_sent :
    Action.sendCached ⟨2, queryPacket 2 [cstr "example", cstr "com"] 1, cstr "example.com", 1⟩
      (addressReply 2) ∈
    ((Lib.run (Remembering.step fun _ => (0, [])) (.start (Proxy.init 1700000000 none none true true
      fun _ => ⟨0, 53⟩)) askedOnce).server.outcome (fun _ => (0, [])) askedByOther).actions := by
  decide +kernel

/-- The other client is told what the first was told. -/
theorem cached_answer_from_reply_other :
    ∃ x, (Lib.run (Remembering.step fun _ => (0, [])) (.start (Proxy.init 1700000000 none none true
        true fun _ => ⟨0, 53⟩)) askedOnce).latest (cstr "example.com", 1) = some x ∧
      x.ctx.domain = cstr "example.com" ∧ x.ctx.qtype = 1 ∧ x.Genuine ∧
      createCachedAnswerResponse (queryPacket 2 [cstr "example", cstr "com"] 1) (bufferSize + 32) 1
        x.answer = some (addressReply 2) := by
  have hrun := cached_answer_from_reply (fun _ => (0, [])) 1700000000 none none true true
    (fun _ => ⟨0, 53⟩) (askedOnce ++ [askedByOther])
  exact ((Lib.everyStep_append.mp hrun).2.1 _ _ askedByOther_sent).2

end Nyet
