import Nyet.Proxy.Upstream

/-!
# Every request is accounted for

A worker takes one request at a time. `Exchanges` records next to the proxy which requests each
worker has accepted and which it is done with, and with what response. At any time the accepted
requests are those done with, in the same order, and the one that waits for an upstream
(`exchanges_kept`). So no request is answered twice and none is lost, whatever the interleaving of
requests, replies and gravity checks; every response has the ID of its request, and a request
that gets none has been sent to both upstreams.
-/

namespace Nyet

/-- What is sent to a client, and the request it answers. -/
def Action.response : Action → Option (QueryContext × CStr)
  | .sendBlocked ctx response => some (ctx, response)
  | .sendCached ctx response => some (ctx, response)
  | .relay ctx reply => some (ctx, reply)
  | _ => none

def Outcome.responses (out : Outcome) : List (QueryContext × CStr) :=
  out.actions.filterMap Action.response

/-- The request a worker is at: the one that waits, or the one it accepts. -/
def Server.inHand (s : Server) (e : Event) : Option QueryContext :=
  match e.worker.bind s.worker with
  | some waiting => some waiting.ctx
  | none => s.query e

/-- The requests an event is the end of, with their responses; without a response the request in
hand is done with when the worker does not wait any more. -/
def Server.closes (score : Scorer) (s : Server) (e : Event) : List (QueryContext × Option CStr) :=
  let out := s.outcome score e
  let answered := out.responses.map fun r => (r.1, some r.2)
  if answered = [] ∧ out.waiting.isNone then ((s.inHand e).map fun ctx => (ctx, none)).toList
  else answered

/-- The proxy, and what each worker has accepted and is done with, newest last. -/
structure Exchanges where
  server : Server
  accepted : Nat → List QueryContext
  closed : Nat → List (QueryContext × Option CStr)

/-- One event. -/
def Exchanges.step (score : Scorer) (x : Exchanges) (e : Event) : Exchanges where
  server := x.server.step score e
  accepted w :=
    if e.worker = some w then x.accepted w ++ (x.server.query e).toList else x.accepted w
  closed w := if e.worker = some w then x.closed w ++ x.server.closes score e else x.closed w

/-- Nothing accepted yet. -/
def Exchanges.start (p : Proxy) : Exchanges := ⟨.start p, fun _ => [], fun _ => []⟩

/-- A worker that needs an upstream socket gets one. -/
def Event.HasSocket : Event → Prop
  | .request _ env _ _ => env.socketOk = true
  | _ => True

/-- The upstreams a waiting request was sent to. -/
def Waiting.Asked (addrs : Upstream → SockAddr) (sent : List (SockAddr × CStr)) (w : Waiting) :
    Prop :=
  (addrs w.primary, w.ctx.rawQuery) ∈ sent ∧
    (w.onFallback = true → (addrs w.primary.other, w.ctx.rawQuery) ∈ sent)

/-- **What an event does to the request in hand**, given what the worker has sent before. -/
inductive Outcome.Exchange (addrs : Upstream → SockAddr) (hasSocket : Prop)
    (sent : List (SockAddr × CStr)) : Option QueryContext → Outcome → Prop
  | nothing {out : Outcome} (hresponses : out.responses = []) (hwaiting : out.waiting = none) :
      Exchange addrs hasSocket sent none out
  | answered {out : Outcome} {ctx : QueryContext} {response : CStr}
      (hresponses : out.responses = [(ctx, response)])
      (hid : messageId response = messageId ctx.rawQuery) (hwaiting : out.waiting = none) :
      Exchange addrs hasSocket sent (some ctx) out
  | waits {out : Outcome} (waiting : Waiting) (hresponses : out.responses = [])
      (hwaiting : out.waiting = some waiting)
      (hasked : waiting.Asked addrs (sent ++ forwarded out.actions)) :
      Exchange addrs hasSocket sent (some waiting.ctx) out
  | givenUp {out : Outcome} {ctx : QueryContext} (hresponses : out.responses = [])
      (hwaiting : out.waiting = none)
      (hasked : hasSocket →
        ∀ upstream, (addrs upstream, ctx.rawQuery) ∈ sent ++ forwarded out.actions) :
      Exchange addrs hasSocket sent (some ctx) out

/-! ## The ID of a response -/

theorem take_overwrite {buf : CStr} {n p : Nat} (hp : n ≤ p) (hbuf : n ≤ buf.length)
    (bytes : CStr) : (overwrite buf p bytes).take n = buf.take n := by
  have hfront : n ≤ (buf.take p).length := by
    rw [List.length_take]
    exact le_min hp hbuf
  rw [overwrite, List.append_assoc, List.take_append_of_le_length hfront, List.take_take,
    min_eq_left hp]

theorem le_length_overwrite {buf : CStr} {n p : Nat} (hp : n ≤ p) (hbuf : n ≤ buf.length)
    (bytes : CStr) : n ≤ (overwrite buf p bytes).length := by
  rw [overwrite, List.length_append, List.length_append, List.length_take]
  omega

/-- A response starts with a copy of the request. -/
theorem messageId_patched {request : CStr} (h : 2 ≤ request.length) (answers tail : CStr) :
    messageId (overwrite (overwrite request 2 responseFlags) 6 answers ++ tail) =
      messageId request := by
  have hflags := le_length_overwrite (Nat.le_refl 2) h responseFlags
  have hanswers := le_length_overwrite (show 2 ≤ 6 by decide) hflags answers
  rw [messageId, List.take_append_of_le_length hanswers, take_overwrite (by decide) hflags,
    take_overwrite (Nat.le_refl 2) h, messageId]

theorem messageId_blocked {request : CStr} (h : 2 ≤ request.length) (ttlSeconds : UInt32) :
    messageId (createBlockedResponse request ttlSeconds) = messageId request := by
  unfold createBlockedResponse
  dsimp only
  split
  · have hlength := le_length_overwrite (show 2 ≤ 6 by decide)
      (le_length_overwrite (Nat.le_refl 2) h responseFlags) (wire16 1)
    rw [messageId, take_overwrite (by omega) (by rw [List.length_append]; omega)]
    exact messageId_patched h _ _
  · exact messageId_patched h _ _

theorem messageId_cached {request response : CStr} {outCapacity : Nat} {qtype : UInt16}
    {answer : Answer} (h : 2 ≤ request.length)
    (hresponse : createCachedAnswerResponse request outCapacity qtype answer = some response) :
    messageId response = messageId request := by
  rw [createCachedAnswerResponse] at hresponse
  dsimp only at hresponse
  split at hresponse
  · cases hresponse
  · cases hresponse
    exact messageId_patched h _ _

/-! ## What an event does -/

section Steps

variable {sent : List (SockAddr × CStr)}

theorem Action.IsVetting.response_eq_none {a : Action} (h : a.IsVetting) : a.response = none := by
  cases a <;> first | rfl | exact h.elim

theorem answerOrForward_exchange (p : Proxy) (env : Env) {ctx : QueryContext}
    (h : 2 ≤ ctx.rawQuery.length) (check : CheckResult) (vetting : List Action)
    (hvetting : ∀ a ∈ vetting, a.IsVetting) :
    let out := answerOrForward p env ctx check
    Outcome.Exchange p.upstreamAddrs (env.socketOk = true) sent (some ctx)
      { out with actions := vetting ++ out.actions } := by
  have hnone : vetting.filterMap Action.response = [] :=
    List.filterMap_eq_nil_iff.mpr fun a ha => (hvetting a ha).response_eq_none
  have haddrs := congrArg Proxy.upstreamAddrs
    (answerFromCache_snd (cacheEligible ctx.qtype check) p env.nowNs ctx)
  rw [answerOrForward]
  dsimp only at haddrs ⊢
  split
  · next response p' heq =>
    have hresponses :
        Outcome.responses ⟨p', vetting ++ [.sendCached ctx response], none⟩ =
          [(ctx, response)] := by
      rw [Outcome.responses, List.filterMap_append, hnone]
      rfl
    refine .answered hresponses ?_ rfl
    · have hfound := congrArg Prod.fst heq
      unfold answerFromCache at hfound
      split at hfound
      · obtain ⟨answer, -, hresponse⟩ := Option.bind_eq_some_iff.mp hfound
        exact messageId_cached h hresponse
      · cases hfound
  · next p' heq =>
    rw [heq] at haddrs
    split
    · refine .waits ⟨ctx, _, p'.preferredUpstream, false, _⟩ ?_ rfl ⟨?_, ?_⟩
      · show (vetting ++ [_]).filterMap Action.response = _
        rw [List.filterMap_append, hnone]
        rfl
      · refine List.mem_append_right _ (mem_forwarded.mpr (List.mem_append_right _ ?_))
        rw [haddrs]
        exact List.mem_singleton_self _
      · intro hfallback
        cases hfallback
    · next hsocket =>
      refine .givenUp ?_ rfl fun h => absurd h hsocket
      show (vetting ++ []).filterMap Action.response = _
      rw [List.append_nil, hnone]

theorem handleQuery_exchange (score : Scorer) (p : Proxy) (env : Env) {ctx : QueryContext}
    (h : 2 ≤ ctx.rawQuery.length) :
    Outcome.Exchange p.upstreamAddrs (env.socketOk = true) sent (some ctx)
      (handleQuery score p env ctx) := by
  rw [handleQuery]
  obtain ⟨check, queryCache, tree⟩ := checkDomain p.queryCache p.tree env.nowNs env.now ctx.domain
  dsimp only
  split
  · exact .answered rfl (messageId_blocked h _) rfl
  · cases check.matched with
    | true =>
      exact answerOrForward_exchange { p with queryCache := queryCache, tree := tree } env h check
        [] fun a ha => by cases ha
    | false =>
      obtain ⟨q, hq⟩ : ∃ q : Proxy, { p with queryCache := queryCache, tree := tree } = q :=
        ⟨_, rfl⟩
      have haddrs : (vet score q env ctx.domain).1.upstreamAddrs = p.upstreamAddrs := by
        rw [vet_fst, ← hq]
      have hvetting : ∀ a ∈ (vet score q env ctx.domain).2, a.IsVetting :=
        fun a ha => vet_isVetting ha
      rw [hq, ← haddrs]
      exact answerOrForward_exchange (vet score q env ctx.domain).1 env h check _ hvetting

theorem receiveReply_exchange (p : Proxy) {w : Waiting} (h : w.Asked p.upstreamAddrs sent)
    (r : Received) (tick restart nowNs : UInt64) (parsed : Answer) {hasSocket : Prop} :
    Outcome.Exchange p.upstreamAddrs hasSocket sent (some w.ctx)
      (receiveReply p w r tick restart nowNs parsed) := by
  rw [receiveReply]
  split
  · refine .waits w rfl rfl ?_
    rwa [show forwarded [] = [] from rfl, List.append_nil]
  · next reply hround =>
    have hid := (recvRound_eq_matched.mp hround).2.2.2
    dsimp only
    rcases acceptReply_cases (if w.onFallback = true then { p with preferredUpstream := w.upstream }
        else p) nowNs parsed w reply with hout | ⟨cache, answer, -, hout⟩
    · rw [hout]
      exact .answered rfl hid rfl
    · rw [hout]
      exact .answered rfl hid rfl
  · split
    · -- the fallback has been asked as well: there is no third upstream
      next hfallback =>
      refine .givenUp rfl rfl fun _ upstream => List.mem_append_left _ ?_
      have hprimary := h.1
      have hother := h.2 hfallback
      cases hw : w.primary <;> cases upstream <;> rw [hw] at hprimary hother <;>
        first | exact hprimary | exact hother
    · refine .waits { w with onFallback := true, deadline := _ } rfl rfl
        ⟨?_, fun _ => ?_⟩
      · exact List.mem_append_left _ h.1
      · exact List.mem_append_right _ (mem_forwarded.mpr (List.mem_singleton_self _))

/-- **An event** answers the request in hand, or keeps it, or gives it up. -/
theorem Server.outcome_exchange (score : Scorer) {s : Server} {e : Event} {w : Nat}
    (hw : e.worker = some w)
    (h : ∀ waiting, s.worker w = some waiting → waiting.Asked s.proxy.upstreamAddrs (s.sent w)) :
    Outcome.Exchange s.proxy.upstreamAddrs e.HasSocket (s.sent w) (s.inHand e)
      (s.outcome score e) := by
  cases e with
  | gravity i a now result => cases hw
  | receive w' r tick restart nowNs parsed =>
    obtain rfl : w' = w := Option.some.inj hw
    unfold Server.outcome Server.inHand Event.worker
    dsimp only [Option.bind_some]
    cases hworker : s.worker w' with
    | none => exact .nothing rfl rfl
    | some waiting =>
      exact receiveReply_exchange s.proxy (h waiting hworker) r tick restart nowNs parsed
  | request w' env clientAddr rawQuery =>
    obtain rfl : w' = w := Option.some.inj hw
    unfold Server.outcome Server.inHand Event.worker Server.query processRequest question
    dsimp only [Option.bind_some]
    cases hworker : s.worker w' with
    | some waiting =>
      refine .waits waiting rfl rfl ?_
      rw [show forwarded [] = [] from rfl, List.append_nil]
      exact h waiting hworker
    | none =>
      simp only [Option.isSome_none, Bool.false_eq_true, if_false]
      -- a request is dropped over the rate or where it does not parse
      cases rateLimitAllow s.proxy.rateLimiter clientAddr env.time with
      | none => exact .nothing rfl rfl
      | some limited =>
        obtain ⟨allow, rateLimiter⟩ := limited
        cases allow with
        | false => exact .nothing rfl rfl
        | true =>
          cases hparse : parseQuery rawQuery maxDomainLen with
          | none => exact .nothing rfl rfl
          | some parsed =>
            have hlength := (parseQuery_eq_some.mp hparse).1
            exact handleQuery_exchange score { s.proxy with rateLimiter := rateLimiter } env
              (show 2 ≤ rawQuery.length by omega)

end Steps

/-! ## Runs -/

/-- What is true of the records of a worker; `hasSockets` says that sockets could be had. -/
structure Accounted (addrs : Upstream → SockAddr) (hasSockets : Prop)
    (accepted : List QueryContext) (closed : List (QueryContext × Option CStr))
    (waiting : Option Waiting) (sent : List (SockAddr × CStr)) : Prop where
  eq : accepted = closed.map Prod.fst ++ (waiting.map Waiting.ctx).toList
  asked : ∀ w, waiting = some w → w.Asked addrs sent
  replied : ∀ ctx response, (ctx, some response) ∈ closed →
    messageId response = messageId ctx.rawQuery
  givenUp : hasSockets → ∀ ctx, (ctx, none) ∈ closed →
    ∀ upstream, (addrs upstream, ctx.rawQuery) ∈ sent

/-- The records of all workers. -/
structure Exchanges.Kept (addrs : Upstream → SockAddr) (hasSockets : Prop) (x : Exchanges) :
    Prop where
  same : x.server.proxy.upstreamAddrs = addrs
  workers : ∀ w, Accounted addrs hasSockets (x.accepted w) (x.closed w) (x.server.worker w)
    (x.server.sent w)

theorem Exchanges.Kept.start (p : Proxy) (hasSockets : Prop) :
    Exchanges.Kept p.upstreamAddrs hasSockets (.start p) where
  same := rfl
  workers _ := by
    refine ⟨rfl, fun w hw => ?_, fun ctx response h => ?_, fun _ ctx h => ?_⟩
    · cases hw
    · cases h
    · cases h

section Step

variable {addrs : Upstream → SockAddr} {hasSockets : Prop} {accepted : List QueryContext}
  {closed : List (QueryContext × Option CStr)} {waiting : Option Waiting}
  {sent : List (SockAddr × CStr)}

/-- What is sent later changes nothing. -/
theorem Accounted.givenUp_append (h : Accounted addrs hasSockets accepted closed waiting sent)
    (more : List (SockAddr × CStr)) (hsockets : hasSockets) {ctx : QueryContext}
    (hctx : (ctx, none) ∈ closed) (upstream : Upstream) :
    (addrs upstream, ctx.rawQuery) ∈ sent ++ more :=
  List.mem_append_left _ (h.givenUp hsockets ctx hctx upstream)

/-- **One event keeps the records of its worker.** -/
theorem Accounted.step (h : Accounted addrs hasSockets accepted closed waiting sent)
    {score : Scorer} {s : Server} {e : Event} {hasSocket : Prop} (hsocket : hasSockets → hasSocket)
    (hhand : (waiting.map Waiting.ctx).toList ++ (s.query e).toList = (s.inHand e).toList)
    (hexchange : Outcome.Exchange addrs hasSocket sent (s.inHand e) (s.outcome score e)) :
    Accounted addrs hasSockets (accepted ++ (s.query e).toList) (closed ++ s.closes score e)
      (s.outcome score e).waiting (sent ++ forwarded (s.outcome score e).actions) := by
  rw [h.eq, List.append_assoc, hhand, Server.closes]
  generalize s.outcome score e = out at hexchange ⊢
  generalize s.inHand e = hand at hexchange ⊢
  cases hexchange with
  | nothing hresponses hwaiting =>
    rw [hresponses, hwaiting]
    refine ⟨by simp, fun w hw => ?_, fun ctx response hc => ?_, fun hsockets ctx hc => ?_⟩
    · cases hw
    · exact h.replied ctx response (by simpa using hc)
    · exact h.givenUp_append _ hsockets (by simpa using hc)
  | answered hresponses hid hwaiting =>
    rw [hresponses, hwaiting]
    refine ⟨by simp, fun w hw => ?_, fun ctx response hc => ?_, fun hsockets ctx hc => ?_⟩
    · cases hw
    · rcases List.mem_append.mp hc with hc | hc
      · exact h.replied ctx response hc
      · simp only [List.map_cons, List.map_nil, List.cons_ne_nil, false_and, if_false,
          List.mem_singleton, Prod.mk.injEq, Option.some_inj] at hc
        rw [hc.1, hc.2]
        exact hid
    · exact h.givenUp_append _ hsockets (by simpa using hc)
  | waits waiting hresponses hwaiting hasked =>
    rw [hresponses, hwaiting]
    refine ⟨by simp, fun w hw => ?_, fun ctx response hc => ?_, fun hsockets ctx hc => ?_⟩
    · rw [← Option.some.inj hw]
      exact hasked
    · exact h.replied ctx response (by simpa using hc)
    · exact h.givenUp_append _ hsockets (by simpa using hc)
  | givenUp hresponses hwaiting hasked =>
    rw [hresponses, hwaiting]
    refine ⟨by simp, fun w hw => ?_, fun ctx response hc => ?_, fun hsockets ctx hc => ?_⟩
    · cases hw
    · exact h.replied ctx response (by simpa using hc)
    · rcases List.mem_append.mp hc with hc | hc
      · exact h.givenUp_append _ hsockets hc
      · obtain rfl : ctx = _ := by simpa using hc
        exact hasked (hsocket hsockets)

end Step

/-- A busy worker accepts nothing. -/
theorem Server.inHand_eq {s : Server} {e : Event} {w : Nat} (hw : e.worker = some w) :
    ((s.worker w).map Waiting.ctx).toList ++ (s.query e).toList = (s.inHand e).toList := by
  rw [Server.inHand, hw, Option.bind_some]
  cases hworker : s.worker w with
  | none => rfl
  | some waiting =>
    have hquery : s.query e = none := by
      cases e with
      | request w' env clientAddr rawQuery =>
        obtain rfl : w' = w := Option.some.inj hw
        rw [Server.query, hworker]
        rfl
      | receive => rfl
      | gravity => rfl
    rw [hquery]
    rfl

theorem Exchanges.Kept.step {addrs : Upstream → SockAddr} {hasSockets : Prop} {score : Scorer}
    {x : Exchanges} (h : x.Kept addrs hasSockets) {e : Event} (hsocket : hasSockets → e.HasSocket) :
    (x.step score e).Kept addrs hasSockets where
  same := (Server.step_upstreamAddrs score x.server e).trans h.same
  workers w := by
    unfold Exchanges.step
    dsimp only
    rw [Server.step_worker, Server.step_sent]
    by_cases hw : e.worker = some w
    · rw [if_pos hw, if_pos hw, if_pos hw, if_pos hw]
      have hexchange := x.server.outcome_exchange score hw fun waiting hwaiting => by
        rw [h.same]
        exact (h.workers w).asked waiting hwaiting
      rw [h.same] at hexchange
      exact (h.workers w).step hsocket (Server.inHand_eq hw) hexchange
    · rw [if_neg hw, if_neg hw, if_neg hw, if_neg hw]
      exact h.workers w

/-- **Every request is accounted for**, in any run of the proxy: what a worker has accepted is
what it is done with, in order, and the request that waits. Each response has the ID of its
request; if sockets could be had, a request without a response was sent to both upstreams. -/
theorem exchanges_kept (score : Scorer) (p : Proxy) (events : List Event) :
    let x := Lib.run (Exchanges.step score) (.start p) events
    ∀ w, x.accepted w = (x.closed w).map Prod.fst ++ ((x.server.worker w).map Waiting.ctx).toList ∧
      (∀ ctx response, (ctx, some response) ∈ x.closed w →
        messageId response = messageId ctx.rawQuery) ∧
      ((∀ e ∈ events, e.HasSocket) → ∀ ctx, (ctx, none) ∈ x.closed w →
        ∀ upstream, (p.upstreamAddrs upstream, ctx.rawQuery) ∈ x.server.sent w) := by
  intro x w
  have hkept : x.Kept p.upstreamAddrs (∀ e ∈ events, e.HasSocket) :=
    @Lib.run_invariant_of_everyStep _ _ (Exchanges.step score) (Exchanges.Kept p.upstreamAddrs _)
      (fun _ e => (∀ e ∈ events, e.HasSocket) → e.HasSocket)
      (fun _ _ h hsocket => h.step hsocket) _ _ (.start p _)
      (Lib.everyStep_of_mem (fun _ e he h => h e he) _)
  have hworker := hkept.workers w
  exact ⟨hworker.eq, hworker.replied, hworker.givenUp⟩

/-- `example.com` is asked for and neither upstream answers in time. -/
def unansweredRun : List Event :=
  [.request 0 (.at 1700000000 0) 1 (queryPacket 1 [cstr "example", cstr "com"] 1),
    .receive 0 .socketError 2000 2000 0 ⟨[], 0, 0, 0⟩,
    .receive 0 .socketError 2300 2300 0 ⟨[], 0, 0, 0⟩]

/-- Both were asked. -/
theorem exchanges_kept_unanswered :
    let x := Lib.run (Exchanges.step fun _ => (0, [])) (.start twoUpstreams) unansweredRun
    ((⟨1, 53⟩, queryPacket 1 [cstr "example", cstr "com"] 1) : SockAddr × CStr) ∈
        x.server.sent 0 ∧
      ((⟨2, 53⟩, queryPacket 1 [cstr "example", cstr "com"] 1) : SockAddr × CStr) ∈
        x.server.sent 0 := by
  intro x
  have hsockets : ∀ e ∈ unansweredRun, e.HasSocket := by
    intro e he
    simp only [unansweredRun, List.mem_cons, List.not_mem_nil, or_false] at he
    rcases he with rfl | rfl | rfl
    · rfl
    · trivial
    · trivial
  have hclosed : ((⟨1, queryPacket 1 [cstr "example", cstr "com"] 1, cstr "example.com", 1⟩, none) :
      QueryContext × Option CStr) ∈ x.closed 0 := by
    decide +kernel
  obtain ⟨-, -, hgivenUp⟩ := exchanges_kept (fun _ => (0, [])) twoUpstreams unansweredRun 0
  exact ⟨hgivenUp hsockets _ hclosed .wg, hgivenUp hsockets _ hclosed .home⟩

end Nyet
