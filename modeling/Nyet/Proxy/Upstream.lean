import Nyet.Proxy.Request
import Nyet.Lib.Run

/-!
# Replies and their questions (`recv_matching_reply`)

A worker keeps one upstream socket for all its queries, so a reply that comes late
is still there when a later query waits. `recv_matching_reply` compares the sender
and the message ID, and the ID is the client's choice.

`Transit` adds what is in transit to each socket. The upstreams are honest: what they
send has the ID and the question of something the socket sent them before. Delay,
order and repetition are theirs to choose. `replies_match_iff` says when every reply
is to its own question.
-/

namespace Nyet

/-- The proxy, and the datagrams in transit to the upstream socket of each worker. -/
structure Transit where
  server : Server
  queue : Nat → List (SockAddr × CStr)

/-- A datagram sets out for the socket of a worker, or something happens to the proxy. -/
inductive Transit.Event where
  | send (w : Nat) (source : SockAddr) (bytes : CStr)
  | server (e : Nyet.Event)

/-- One event. `recvfrom` takes one datagram, any of those in transit. -/
def Transit.step (score : Scorer) (t : Transit) : Transit.Event → Transit
  | .send w source bytes =>
    { t with queue := Function.update t.queue w (t.queue w ++ [(source, bytes)]) }
  | .server (.receive w (.datagram source bytes) tick restart nowNs parsed) =>
    if (source, bytes) ∈ t.queue w then
      { server := t.server.step score
          (.receive w (.datagram source bytes) tick restart nowNs parsed)
        queue := Function.update t.queue w ((t.queue w).erase (source, bytes)) }
    else t
  | .server e => { t with server := t.server.step score e }

/-- Nothing in transit yet. -/
def Transit.start (p : Proxy) : Transit := ⟨.start p, fun _ => []⟩

/-! ## Honest upstreams -/

/-- A datagram an honest sender may send to the socket of a worker. One from an
upstream has the ID and the question of something sent there before. -/
def Server.Echoes (s : Server) (w : Nat) (source : SockAddr) (bytes : CStr) : Prop :=
  (source = s.proxy.upstreamAddrs .wg ∨ source = s.proxy.upstreamAddrs .home) →
    ∃ d ∈ s.sent w, d.1 = source ∧ messageId bytes = messageId d.2 ∧ question bytes = question d.2

instance (s : Server) (w : Nat) (source : SockAddr) (bytes : CStr) :
    Decidable (s.Echoes w source bytes) :=
  inferInstanceAs (Decidable (_ → _))

/-- No request is longer than `raw_query`. -/
def Event.Fits : Event → Prop
  | .request _ _ _ rawQuery => rawQuery.length ≤ bufferSize
  | _ => True

instance : (e : Event) → Decidable e.Fits
  | .request _ _ _ rawQuery => inferInstanceAs (Decidable (rawQuery.length ≤ bufferSize))
  | .receive _ _ _ _ _ _ => isTrue trivial
  | .gravity _ _ _ _ => isTrue trivial

/-- What is sent is honest. -/
def Transit.Honest (t : Transit) : Transit.Event → Prop
  | .send w source bytes => t.server.Echoes w source bytes
  | .server e => e.Fits

instance (t : Transit) : (e : Transit.Event) → Decidable (t.Honest e)
  | .send w source bytes => inferInstanceAs (Decidable (t.server.Echoes w source bytes))
  | .server e => inferInstanceAs (Decidable e.Fits)

/-- What can happen to the proxy next: a datagram is received that is in transit or is
sent just now. -/
def Transit.Next (t : Transit) : Nyet.Event → Prop
  | .receive w (.datagram source bytes) _ _ _ _ =>
    (source, bytes) ∈ t.queue w ∨ t.server.Echoes w source bytes
  | e => e.Fits

/-- What is relayed or cached is an answer to the question of the request. -/
def Action.Answers : Action → Prop
  | .relay ctx reply => question reply = some (ctx.domain, ctx.qtype)
  | .cacheAnswer ctx reply _ => question reply = some (ctx.domain, ctx.qtype)
  | _ => True

/-- **Replies match their question**, whatever happens next. -/
def RepliesMatch (score : Scorer) (t : Transit) : Prop :=
  ∀ e, t.Next e → ∀ a ∈ (t.server.outcome score e).actions, a.Answers

/-- The condition: what the socket of a waiting worker ever sent to the upstream it
waits for, under the ID it waits for, asked the same question. -/
def NoIdReuse (t : Transit) : Prop :=
  ∀ w waiting, t.server.worker w = some waiting →
    ∀ query, (t.server.proxy.upstreamAddrs waiting.upstream, query) ∈ t.server.sent w →
      messageId query = messageId waiting.ctx.rawQuery →
        question query = question waiting.ctx.rawQuery

/-! ## What is sent and what is taken -/

/-- A query that fits `raw_query`, with the question `parse_query` found in it. -/
structure QueryContext.Parsed (ctx : QueryContext) : Prop where
  fits : ctx.rawQuery.length ≤ bufferSize
  asks : question ctx.rawQuery = some (ctx.domain, ctx.qtype)

/-- A header is longer than an ID. -/
theorem QueryContext.Parsed.length {ctx : QueryContext} (h : ctx.Parsed) :
    2 ≤ ctx.rawQuery.length := by
  obtain ⟨hsize, -⟩ := parseQuery_eq_some.mp h.asks
  omega

/-- What `process_request` does before it has a reply: it relays nothing, and sends on
parsed queries only. -/
def Action.Asks : Action → Prop
  | .forward _ query => ∃ ctx : QueryContext, ctx.Parsed ∧ ctx.rawQuery = query
  | .relay _ _ => False
  | .cacheAnswer _ _ _ => False
  | _ => True

theorem Action.Asks.answers {a : Action} (h : a.Asks) : a.Answers := by
  cases a with
  | relay | cacheAnswer => exact h.elim
  | _ => trivial

/-- An outcome without a reply. -/
structure Outcome.Asks (out : Outcome) : Prop where
  actions : ∀ a ∈ out.actions, a.Asks
  waiting : ∀ waiting, out.waiting = some waiting → waiting.ctx.Parsed

theorem Outcome.Asks.nothing (p : Proxy) : (Outcome.mk p [] none).Asks where
  actions _ ha := by cases ha
  waiting _ hwaiting := by cases hwaiting

theorem Outcome.Asks.waits {waiting : Waiting} (h : waiting.ctx.Parsed) (p : Proxy) :
    (Outcome.mk p [] (some waiting)).Asks where
  actions _ ha := by cases ha
  waiting _ hwaiting := by
    cases hwaiting
    exact h

theorem Outcome.Asks.does {a : Action} (h : a.Asks) (p : Proxy) : (Outcome.mk p [a] none).Asks where
  actions b hb := by
    rw [List.mem_singleton.mp hb]
    exact h
  waiting _ hwaiting := by cases hwaiting

/-- Sending a query on and waiting. -/
theorem Outcome.Asks.forwards {waiting : Waiting} (h : waiting.ctx.Parsed) (p : Proxy)
    (upstream : SockAddr) :
    (Outcome.mk p [.forward upstream waiting.ctx.rawQuery] (some waiting)).Asks where
  actions a ha := by
    rw [List.mem_singleton.mp ha]
    exact ⟨waiting.ctx, h, rfl⟩
  waiting _ hwaiting := by
    cases hwaiting
    exact h

theorem vet_asks (score : Scorer) (p : Proxy) (env : Env) (domain : CStr) :
    ∀ a ∈ (vet score p env domain).2, a.Asks := by
  intro a ha
  rcases mem_vet ha with rfl | ⟨won, rfl⟩ | rfl | rfl <;> trivial

theorem answerOrForward_asks (p : Proxy) (env : Env) {ctx : QueryContext} (h : ctx.Parsed)
    (check : CheckResult) : (answerOrForward p env ctx check).Asks := by
  rcases answerOrForward_cases p env ctx check with
    ⟨response, -, hout⟩ | ⟨-, waiting, upstream, hctx, hout⟩ | ⟨-, hout⟩
  · rw [hout]
    exact .does (a := .sendCached ctx response) trivial _
  · subst hctx
    rw [hout]
    exact .forwards h _ upstream
  · rw [hout]
    exact .nothing _

/-- Handling a query relays nothing yet. -/
theorem handleQuery_asks (score : Scorer) (p : Proxy) (env : Env) {ctx : QueryContext}
    (h : ctx.Parsed) : (handleQuery score p env ctx).Asks := by
  rcases handleQuery_after score p env ctx with ⟨-, response, hout⟩ | ⟨-, -, hout⟩ | ⟨-, hout⟩
  · rw [hout]
    exact .does (a := .sendBlocked ctx response) trivial _
  · rw [hout]
    exact answerOrForward_asks _ env h _
  · have hrest := answerOrForward_asks
      (vet score (checkedProxy p env ctx.domain) env ctx.domain).1 env h (checkOf p env ctx)
    rw [hout]
    refine ⟨fun a ha => ?_, hrest.waiting⟩
    rcases List.mem_append.mp ha with hvet | hlater
    · exact vet_asks _ _ _ _ a hvet
    · exact hrest.actions a hlater

/-- **What `recv_matching_reply` returns.** -/
theorem recvRound_eq_matched {expectedId : CStr} {upstream : SockAddr} {deadline tick : UInt64}
    {r : Received} {reply : CStr} :
    recvRound expectedId upstream deadline tick r = .matched reply ↔
      r = .datagram upstream reply ∧ reply.length ≤ bufferSize ∧ 2 ≤ reply.length ∧
        messageId reply = expectedId := by
  have hretry : retryUntil deadline tick ≠ .matched reply := by
    rw [retryUntil]
    split <;> exact nofun
  cases r with
  | socketError => exact iff_of_false hretry nofun
  | datagram source bytes =>
    -- the checks in the order of the loop: size, sender, first two bytes
    rw [recvRound, Received.datagram.injEq]
    split
    · next hlong =>
      refine iff_of_false hretry ?_
      rintro ⟨⟨-, rfl⟩, hshort, -⟩
      exact absurd hshort (Nat.not_le.mpr hlong)
    · next hshort =>
      split
      · next hsource => exact iff_of_false hretry fun h => hsource h.1.1
      · next hsource =>
        split
        · next hid =>
          rw [Round.matched.injEq]
          constructor
          · rintro rfl
            exact ⟨⟨not_not.mp hsource, rfl⟩, Nat.not_lt.mp hshort, hid⟩
          · exact fun h => h.1.2
        · next hid =>
          refine iff_of_false hretry ?_
          rintro ⟨⟨-, rfl⟩, -, hmatch⟩
          exact hid hmatch

/-- The worker that waits has taken a reply: it relays it, and relays and caches
nothing else. -/
structure Waiting.Takes (w : Waiting) (reply : CStr) (out : Outcome) : Prop where
  done : out.waiting = none
  relayed : .relay w.ctx reply ∈ out.actions
  actions : ∀ a ∈ out.actions, a = .relay w.ctx reply ∨ ∃ answer, a = .cacheAnswer w.ctx reply answer

theorem acceptReply_takes (p : Proxy) (nowNs : UInt64) (parsed : Answer) (w : Waiting)
    (reply : CStr) :
    w.Takes reply ⟨(acceptReply p nowNs parsed w reply).1,
      (acceptReply p nowNs parsed w reply).2, none⟩ := by
  refine ⟨rfl, ?_, fun a ha => mem_acceptReply ha⟩
  rcases acceptReply_cases p nowNs parsed w reply with hout | ⟨cache, answer, -, hout⟩
  · rw [hout]
    exact List.mem_singleton_self _
  · rw [hout]
    exact List.mem_cons_self

/-- **A `recvfrom`, by cases**: a matching reply is taken; without one the worker waits
on, asks the other upstream or gives up. -/
theorem receiveReply_cases (p : Proxy) {w : Waiting} (h : w.ctx.Parsed) (r : Received)
    (tick restart nowNs : UInt64) (parsed : Answer) :
    (∃ reply,
      recvRound (messageId w.ctx.rawQuery) (p.upstreamAddrs w.upstream) w.deadline tick r =
        .matched reply ∧
      w.Takes reply (receiveReply p w r tick restart nowNs parsed)) ∨
    ((∀ reply,
      recvRound (messageId w.ctx.rawQuery) (p.upstreamAddrs w.upstream) w.deadline tick r ≠
        .matched reply) ∧
      (receiveReply p w r tick restart nowNs parsed).Asks) := by
  -- in four ways, of which one takes a reply
  rcases receiveReply_outcome p w r tick restart nowNs parsed with
    ⟨hround, hout⟩ | ⟨reply, upstream, hround, hout⟩ |
      ⟨hround, hout | ⟨waiting, upstream, hctx, hout⟩⟩
  · right
    rw [hout, hround]
    exact ⟨nofun, .waits h p⟩
  · left
    rw [hout]
    exact ⟨reply, hround, acceptReply_takes _ nowNs parsed w reply⟩
  · right
    rw [hout, hround]
    exact ⟨nofun, .nothing p⟩
  · right
    rw [hout, hround, ← hctx]
    exact ⟨nofun, .forwards (by rw [hctx]; exact h) p upstream⟩

/-! ## The invariant -/

/-- Only parsed queries are sent, and a worker waits for the answer to one. -/
structure AsksParsed (s : Server) : Prop where
  waiting : ∀ w waiting, s.worker w = some waiting → waiting.ctx.Parsed
  sent : ∀ w, ∀ d ∈ s.sent w, ∃ ctx : QueryContext, ctx.Parsed ∧ ctx.rawQuery = d.2

theorem AsksParsed.start (p : Proxy) : AsksParsed (.start p) where
  waiting _ _ h := by cases h
  sent _ _ h := by cases h

/-- **An event, by cases**: a waiting worker takes a reply, or nothing is relayed. -/
theorem AsksParsed.outcome_cases {s : Server} (h : AsksParsed s) (score : Scorer) {e : Event}
    (he : e.Fits) :
    (∃ w waiting r tick restart nowNs parsed reply, e = .receive w r tick restart nowNs parsed ∧
      s.worker w = some waiting ∧
      recvRound (messageId waiting.ctx.rawQuery) (s.proxy.upstreamAddrs waiting.upstream)
        waiting.deadline tick r = .matched reply ∧
      waiting.Takes reply (s.outcome score e)) ∨
    (s.outcome score e).Asks := by
  cases e with
  | request w env clientAddr rawQuery =>
    right
    rw [Server.outcome]
    cases hw : s.worker w with
    | some waiting => exact .waits (h.waiting w waiting hw) s.proxy
    | none =>
      dsimp only
      rcases processRequest_cases score s.proxy env clientAddr rawQuery with
        ⟨rateLimiter, hout⟩ | ⟨rateLimiter, domain, qtype, -, hparse, hout⟩
      · rw [hout]
        exact .nothing _
      · rw [hout]
        exact handleQuery_asks score _ env ⟨he, hparse⟩
  | receive w r tick restart nowNs parsed =>
    rw [Server.outcome]
    cases hw : s.worker w with
    | none => exact Or.inr (.nothing s.proxy)
    | some waiting =>
      dsimp only
      -- only a matching datagram makes the worker relay anything
      rcases receiveReply_cases s.proxy (h.waiting w waiting hw) r tick restart nowNs parsed with
        ⟨reply, hmatched, htakes⟩ | ⟨-, hasks⟩
      · exact Or.inl ⟨w, waiting, r, tick, restart, nowNs, parsed, reply, rfl, hw, hmatched, htakes⟩
      · exact Or.inr hasks
  | gravity i a now result =>
    right
    rw [Server.outcome]
    split
    · exact .does (a := .markDone _ _) trivial _
    · exact .nothing _

theorem mem_forwarded {actions : List Action} {d : SockAddr × CStr} :
    d ∈ forwarded actions ↔ .forward d.1 d.2 ∈ actions := by
  rw [forwarded]
  rw [List.mem_filterMap]
  constructor
  · rintro ⟨a, ha, hsome⟩
    cases a with
    | forward upstream query =>
      cases hsome
      exact ha
    | _ => cases hsome
  · intro h
    exact ⟨_, h, rfl⟩

theorem AsksParsed.step {s : Server} (h : AsksParsed s) (score : Scorer) {e : Event}
    (he : e.Fits) : AsksParsed (s.step score e) := by
  have hnext : (∀ waiting, (s.outcome score e).waiting = some waiting → waiting.ctx.Parsed) ∧
      ∀ d ∈ forwarded (s.outcome score e).actions,
        ∃ ctx : QueryContext, ctx.Parsed ∧ ctx.rawQuery = d.2 := by
    rcases h.outcome_cases score he with
      ⟨w, waiting, r, tick, restart, nowNs, parsed, reply, -, -, -, htakes⟩ | hasks
    · -- a worker that relays a reply sends nothing and waits no more
      refine ⟨fun waiting' hwaiting => (by cases htakes.done.symm.trans hwaiting), fun d hd => ?_⟩
      rcases htakes.actions _ (mem_forwarded.mp hd) with heq | ⟨answer, heq⟩ <;> cases heq
    · exact ⟨hasks.waiting, fun d hd => hasks.actions _ (mem_forwarded.mp hd)⟩
  constructor
  · intro w waiting hw
    rw [Server.step_worker] at hw
    split at hw
    · exact hnext.1 waiting hw
    · exact h.waiting w waiting hw
  · intro w d hd
    rw [Server.step_sent] at hd
    split at hd
    · rcases List.mem_append.mp hd with hold | hnew
      · exact h.sent w d hold
      · exact hnext.2 d hnew
    · exact h.sent w d hd

/-- The invariant: what is in transit is honest as well. -/
structure Transit.Inv (t : Transit) : Prop where
  asks : AsksParsed t.server
  echoes : ∀ w, ∀ d ∈ t.queue w, t.server.Echoes w d.1 d.2

theorem Transit.Inv.start (p : Proxy) : (Transit.start p).Inv where
  asks := .start p
  echoes _ _ h := by cases h

/-- What was honest to send stays so: sockets only send more. -/
theorem Server.Echoes.step {s : Server} {w : Nat} {source : SockAddr} {bytes : CStr}
    (h : s.Echoes w source bytes) (score : Scorer) (e : Event) :
    (s.step score e).Echoes w source bytes := by
  rw [Server.Echoes]
  rw [Server.step_upstreamAddrs]
  intro hsource
  obtain ⟨d, hd, hechoed⟩ := h hsource
  refine ⟨d, ?_, hechoed⟩
  rw [Server.step_sent]
  split
  · exact List.mem_append_left _ hd
  · exact hd

/-- An event of the proxy, with some of what is in transit left. -/
theorem Transit.Inv.serverStep {t : Transit} (h : t.Inv) (score : Scorer) {e : Nyet.Event}
    (he : e.Fits) {queue : Nat → List (SockAddr × CStr)}
    (hqueue : ∀ w, ∀ d ∈ queue w, d ∈ t.queue w) :
    Transit.Inv ⟨t.server.step score e, queue⟩ where
  asks := h.asks.step score he
  echoes w d hd := (h.echoes w d (hqueue w d hd)).step score e

theorem Transit.Inv.step {t : Transit} (h : t.Inv) (score : Scorer) {e : Transit.Event}
    (he : t.Honest e) : (t.step score e).Inv := by
  cases e with
  -- what is sent off is an honest reply; what is received was in transit
  | send w source bytes =>
    refine ⟨h.asks, fun w' d hd => ?_⟩
    change d ∈ Function.update t.queue w (t.queue w ++ [(source, bytes)]) w' at hd
    by_cases hw : w' = w
    · subst hw
      rw [Function.update_self] at hd
      rcases List.mem_append.mp hd with hold | hnew
      · exact h.echoes w' d hold
      · rw [List.mem_singleton.mp hnew]
        exact he
    · rw [Function.update_of_ne hw] at hd
      exact h.echoes w' d hd
  | server e =>
    have hfits : e.Fits := he
    rw [Transit.step.eq_def]
    split
    · next heq => cases heq
    · next w source bytes tick restart nowNs parsed heq =>
      cases heq
      split
      · refine h.serverStep score hfits fun w' d hd => ?_
        by_cases hw : w' = w
        · subst hw
          rw [Function.update_self] at hd
          exact List.mem_of_mem_erase hd
        · rw [Function.update_of_ne hw] at hd
          exact hd
      · exact h
    · next heq =>
      cases heq
      exact h.serverStep score hfits fun _ _ hd => hd

/-! ## One state -/

/-- Without a reused ID, nothing wrong is relayed. -/
theorem Transit.Inv.answers {t : Transit} (h : t.Inv) (score : Scorer) (hids : NoIdReuse t)
    {e : Nyet.Event} (he : t.Next e) : ∀ a ∈ (t.server.outcome score e).actions, a.Answers := by
  intro a ha
  have hfits : e.Fits := by
    cases e with
    | request => exact he
    | receive | gravity => trivial
  rcases h.asks.outcome_cases score hfits with
    ⟨w, waiting, r, tick, restart, nowNs, parsed, reply, rfl, hw, hmatched, htakes⟩ | hasks
  · obtain ⟨rfl, -, -, hid⟩ := recvRound_eq_matched.mp hmatched
    have hwaiting := h.asks.waiting w waiting hw
    have hupstream : t.server.proxy.upstreamAddrs waiting.upstream =
          t.server.proxy.upstreamAddrs .wg ∨
        t.server.proxy.upstreamAddrs waiting.upstream = t.server.proxy.upstreamAddrs .home := by
      cases waiting.upstream with
      | wg => exact Or.inl rfl
      | home => exact Or.inr rfl
    have hechoes : t.server.Echoes w (t.server.proxy.upstreamAddrs waiting.upstream) reply := by
      rcases he with hqueued | hsent
      · exact h.echoes w _ hqueued
      · exact hsent
    -- the reply answers something this socket sent there, under the ID of the waiting query
    obtain ⟨⟨source, query⟩, hsent, rfl, hechoed, hasked⟩ := hechoes hupstream
    have hquestion : question reply = some (waiting.ctx.domain, waiting.ctx.qtype) := by
      calc question reply = question query := hasked
        _ = question waiting.ctx.rawQuery :=
          hids w waiting hw query hsent (hechoed.symm.trans hid)
        _ = some (waiting.ctx.domain, waiting.ctx.qtype) := hwaiting.asks
    rcases htakes.actions a ha with rfl | ⟨answer, rfl⟩
    · exact hquestion
    · exact hquestion
  · exact (hasks.actions a ha).answers

/-- **One state**: replies match their question exactly if no ID is reused. -/
theorem Transit.Inv.repliesMatch_iff {t : Transit} (h : t.Inv) (score : Scorer) :
    RepliesMatch score t ↔ NoIdReuse t := by
  constructor
  · intro hmatch w waiting hw query hsent hid
    -- an honest upstream may answer the earlier query now: the query itself would do
    have hanswers := hmatch (.receive w
      (.datagram (t.server.proxy.upstreamAddrs waiting.upstream) query) 0 0 0 ⟨[], 0, 0, 0⟩)
      (Or.inr fun _ => ⟨_, hsent, rfl, rfl, rfl⟩)
    obtain ⟨ctx, hparsed, rfl⟩ := h.asks.sent w _ hsent
    have hwaiting := h.asks.waiting w waiting hw
    have hround : recvRound (messageId waiting.ctx.rawQuery)
        (t.server.proxy.upstreamAddrs waiting.upstream) waiting.deadline 0
        (.datagram (t.server.proxy.upstreamAddrs waiting.upstream) ctx.rawQuery) =
        .matched ctx.rawQuery :=
      recvRound_eq_matched.mpr ⟨rfl, hparsed.fits, hparsed.length, hid⟩
    rw [Server.outcome, hw] at hanswers
    rcases receiveReply_cases t.server.proxy hwaiting
      (.datagram (t.server.proxy.upstreamAddrs waiting.upstream) ctx.rawQuery) 0 0 0
      ⟨[], 0, 0, 0⟩ with ⟨reply, hmatched, htakes⟩ | ⟨hnone, -⟩
    · cases hround.symm.trans hmatched
      exact (hanswers _ htakes.relayed).trans hwaiting.asks.symm
    · exact absurd hround (hnone _)
  · intro hids e he
    exact h.answers score hids he

/-! ## Whole runs -/

/-- **When replies match their question**: over any run with honest upstreams, what is
relayed or cached is always an answer to the question that was asked if and only if no
worker ever waits under an ID it has asked something else with. -/
theorem replies_match_iff (score : Scorer) (p : Proxy) {es : List Transit.Event}
    (hhonest : Lib.EveryStep (Transit.step score) Transit.Honest (.start p) es) :
    Lib.EveryState (Transit.step score) (RepliesMatch score) (.start p) es ↔
      Lib.EveryState (Transit.step score) NoIdReuse (.start p) es :=
  Lib.everyState_congr (fun _ _ h he => h.step score he) (fun _ h => h.repliesMatch_iff score)
    (Transit.Inv.start p) hhonest

/-- A proxy with nothing in its files and two upstreams. -/
def twoUpstreams : Proxy :=
  .init 1700000000 none none true true fun
    | .wg => ⟨1, 53⟩
    | .home => ⟨2, 53⟩

/-- `example.com` is asked for under ID 1 and no upstream answers in time. -/
def timedOut : List Transit.Event :=
  [.server (.request 0 (.at 1700000000 0) 1 (queryPacket 1 [cstr "example", cstr "com"] 1)),
    .server (.receive 0 .socketError 2000 2000 0 ⟨[], 0, 0, 0⟩),
    .server (.receive 0 .socketError 2300 2300 0 ⟨[], 0, 0, 0⟩)]

/-- The address of `example.com`, from the first upstream. -/
def lateReply : CStr :=
  overwrite (overwrite (queryPacket 1 [cstr "example", cstr "com"] 1) 2 responseFlags) 6 (wire16 1) ++
    recordHeader 1 300 4 ++ [93, 184, 216, 34]

/-- `example.org` is asked for by another client, and then the reply comes. -/
def askedUnder (id : UInt16) : List Transit.Event :=
  timedOut ++
    [.server (.request 0 (.at 1700000003 3000) 2 (queryPacket id [cstr "example", cstr "org"] 1)),
      .send 0 ⟨1, 53⟩ lateReply]

/-- A worker that nothing happens to stays idle. -/
theorem Transit.step_idle (score : Scorer) {t : Transit} {w : Nat}
    (hidle : t.server.worker w = none) {e : Transit.Event}
    (he : ∀ e', e = .server e' → e'.worker ≠ some w) :
    (t.step score e).server.worker w = none := by
  have hserver : ∀ e', e = .server e' → (t.server.step score e').worker w = none := by
    intro e' heq
    rw [Server.step_worker, if_neg (he e' heq)]
    exact hidle
  rw [Transit.step.eq_def]
  split
  · exact hidle
  · split
    · exact hserver _ rfl
    · exact hidle
  · exact hserver _ rfl

/-- Two clients that use different IDs get their own answers. -/
theorem replies_match_distinct :
    Lib.EveryState (Transit.step fun _ => (0, [])) (RepliesMatch fun _ => (0, []))
      (.start twoUpstreams) (askedUnder 2) := by
  refine (replies_match_iff (fun _ => (0, [])) twoUpstreams (by decide +kernel)).mpr ?_
  have hone : ∀ e ∈ askedUnder 2, ∀ e', e = .server e' → e'.worker = some 0 := by
    intro e he
    simp only [askedUnder, timedOut, List.mem_append, List.mem_cons, List.not_mem_nil, or_false] at he
    rcases he with (rfl | rfl | rfl) | rfl | rfl <;> rintro e' ⟨⟩ <;> rfl
  have hidle : Lib.EveryState (Transit.step fun _ => (0, []))
      (fun t => ∀ w, w ≠ 0 → t.server.worker w = none) (.start twoUpstreams) (askedUnder 2) := by
    refine Lib.EveryState.of_invariant (fun t e h hw w hne => ?_) (fun _ h => h) (fun _ _ => rfl)
      (Lib.everyStep_of_mem (fun _ => hone) _)
    refine Transit.step_idle _ (h w hne) fun e' heq hsame => hne ?_
    exact Option.some.inj (hsame.symm.trans (hw e' heq))
  -- what the one worker did is a finite check
  have hworker : Lib.EveryState (Transit.step fun _ => (0, []))
      (fun t => ∀ waiting ∈ t.server.worker 0, ∀ d ∈ t.server.sent 0,
        d.1 = t.server.proxy.upstreamAddrs waiting.upstream →
        messageId d.2 = messageId waiting.ctx.rawQuery →
        question d.2 = question waiting.ctx.rawQuery)
      (.start twoUpstreams) (askedUnder 2) := by
    decide +kernel
  refine Lib.EveryState.imp₂ (fun t hothers hzero w waiting hw query hsent hid => ?_) hidle hworker
  by_cases hw0 : w = 0
  · subst hw0
    exact hzero waiting hw _ hsent rfl hid
  · cases (hothers w hw0).symm.trans hw

/-- What is done when the late reply comes and the IDs are the same. -/
theorem lateReply_actions :
    ((Lib.run (Transit.step fun _ => (0, [])) (.start twoUpstreams) (askedUnder 1)).server.outcome
      (fun _ => (0, []))
      (.receive 0 (.datagram ⟨1, 53⟩ lateReply) 3001 0 0 ⟨List.replicate 8 [], 0, 0, 0⟩)).actions =
    [.relay ⟨2, queryPacket 1 [cstr "example", cstr "org"] 1, cstr "example.org", 1⟩ lateReply,
      .cacheAnswer ⟨2, queryPacket 1 [cstr "example", cstr "org"] 1, cstr "example.org", 1⟩
        lateReply ⟨[93, 184, 216, 34] :: List.replicate 7 [], 1, 4, 300⟩] := by
  decide +kernel

/-- The client that asked for `example.org` gets the address of `example.com`, and so
does who asks after it. -/
theorem stale_reply_relayed :
    Lib.EveryStep (Transit.step fun _ => (0, [])) Transit.Honest (.start twoUpstreams)
      (askedUnder 1) ∧
    ¬ Lib.EveryState (Transit.step fun _ => (0, [])) (RepliesMatch fun _ => (0, []))
      (.start twoUpstreams) (askedUnder 1) := by
  refine ⟨by decide +kernel, fun hmatch => ?_⟩
  have hreply := hmatch.last
    (.receive 0 (.datagram ⟨1, 53⟩ lateReply) 3001 0 0 ⟨List.replicate 8 [], 0, 0, 0⟩)
    (Or.inl (by decide +kernel))
  rw [lateReply_actions] at hreply
  have hquestion : question lateReply = some (cstr "example.org", 1) :=
    hreply _ List.mem_cons_self
  exact absurd hquestion (by decide)

end Nyet
