import Nyet.Lib.Run
import Nyet.Packet.Labels
import Nyet.Proxy.Decision
import Nyet.RadixTree.Promotion

/-!
# The verdict cache is transparent

Nothing invalidates `query_cache` when an entry is inserted into the live tree. That a
hit still says what the tree would say rests on what live inserts there are: REVIEW
entries, which beat no verdict that is cached, and BLOCKED entries of the gravity
checks. Such a check was claimed when no entry matched its domain, so until it
completes nothing stands above that domain but REVIEW entries and BLOCKED ones of other
checks, which carry ttl 0 as well (`ClaimsQuiet`). `query_cache_transparent` holds as
long as no check is running when the blocklist is reloaded.

The steps are atomic: the local decision of a query, the completion of a gravity check,
a reload. Allocations may fail anywhere.
-/

namespace Nyet

/-- What the proxy decides with. -/
structure Deciding (capacity : Nat) where
  tree : RadixTree
  cache : DnsCache capacity
  gravity : Gravity

/-- An atomic step, with its readings of the clock and the outcomes of its
allocations. -/
inductive DecidingEvent where
  | query (packet : CStr) (nowNs : UInt64) (now reviewNow : UInt32) (review claim : Alloc)
      (argsOk threadOk : Bool)
  | complete (i : Nat) (result : GravityResult) (now : UInt32) (a : Alloc)
  | reload (b : RadixTreeBuilder)

section

variable {capacity : Nat} (score : Scorer)

/-- `asked_cache_try_claim`, and `queue_gravity_check` if it fires. -/
def Gravity.ask (g : Gravity) (claim : Alloc) (argsOk threadOk : Bool) (domain : CStr) : Gravity :=
  let (fire, asked) := askedCacheTryClaim claim g.asked domain
  if fire then queueGravityCheck argsOk threadOk { g with asked := asked } domain
  else { g with asked := asked }

/-- The local decision of a query, up to the claim. -/
def Deciding.query (s : Deciding capacity) (domain : CStr) (nowNs : UInt64)
    (now reviewNow : UInt32) (review claim : Alloc) (argsOk threadOk : Bool) : Deciding capacity :=
  let (check, cache, tree) := checkDomain (some s.cache) s.tree nowNs now domain
  let cache := cache.getD s.cache
  if check.matched then { s with tree := tree, cache := cache }
  else
    { tree := runHeuristics score review tree reviewNow domain
      cache := cache
      gravity := s.gravity.ask claim argsOk threadOk domain }

/-- The end of a gravity check: a confirmed domain becomes BLOCKED. -/
def Deciding.complete (s : Deciding capacity) (i : Nat) (domain : CStr) (result : GravityResult)
    (now : UInt32) (a : Alloc) : Deciding capacity :=
  { s with
    tree := if result = .blocked then (gravityInsert a s.tree now domain).2 else s.tree
    gravity := gravityFinish s.gravity i domain result }

/-- One step. A packet that `parse_query` rejects and a check that is not running do
nothing. -/
def Deciding.step (s : Deciding capacity) : DecidingEvent → Deciding capacity
  | .query packet nowNs now reviewNow review claim argsOk threadOk =>
    match question packet with
    | none => s
    | some (domain, _) => s.query score domain nowNs now reviewNow review claim argsOk threadOk
  | .complete i result now a =>
    match s.gravity.threads[i]? with
    | none => s
    | some domain => s.complete i domain result now a
  | .reload b => { s with tree := (radixTreeSwap s.tree b).1, cache := dnsCacheClear s.cache }

/-- A loaded blocklist, a fresh cache and no checks. -/
def Deciding.init (tree : RadixTree) (cache : DnsCache capacity) : Deciding capacity :=
  ⟨tree, cache, .init⟩

/-- No claim is outstanding when the blocklist is reloaded. -/
def ReloadsQuietly (s : Deciding capacity) : DecidingEvent → Prop
  | .reload _ => s.gravity.threads = []
  | _ => True

/-- The same answer, but for the ttl of a BLOCKED one where 0 reads as the default. -/
def SameDecision (r r' : CheckResult) : Prop :=
  r.matched = r'.matched ∧ r.status = r'.status ∧
    (r.status = .blocked → effectiveTtl r.ttl = effectiveTtl r'.ttl)

/-- **Transparency**: whatever is asked next, the cache makes no difference. -/
def CacheTransparent (s : Deciding capacity) : Prop :=
  ∀ domain, IsQuestion domain → ∀ nowNs now,
    SameDecision (checkDomain (some s.cache) s.tree nowNs now domain).1
      (checkDomain (none : Option (DnsCache capacity)) s.tree nowNs now domain).1

/-! ## What is cached -/

/-- Every entry of the cache is the decision of the map. -/
def CachesDecisions (cache : DnsCache capacity) (M : BlockMap) : Prop :=
  ∀ i, (cache.entries i).valid = true → ∃ st ttl,
    M.decision (normalise (cache.entries i).domain) = some (st, ttl) ∧ st ≠ .review ∧
      (cache.entries i).action = st.cacheAction ∧
      (st = .blocked → (cache.entries i).ttl = effectiveTtl ttl)

variable {cache : DnsCache capacity} {M M' : BlockMap}

/-- The map may change where no decision that is cached does. -/
theorem CachesDecisions.mono (h : CachesDecisions cache M)
    (hM : ∀ ls st ttl, M.decision ls = some (st, ttl) → st ≠ .review →
      M'.decision ls = some (st, ttl)) : CachesDecisions cache M' := by
  intro i hi
  obtain ⟨st, ttl, hd, hst, haction, httl⟩ := h i hi
  exact ⟨st, ttl, hM _ _ _ hd hst, hst, haction, httl⟩

theorem CachesDecisions.of_core (h : CachesDecisions cache M) (hM : M'.core = M.core) :
    CachesDecisions cache M' :=
  h.mono fun ls _ _ hd _ => (BlockMap.decision_of_core hM ls).trans hd

theorem CachesDecisions.lookup (h : CachesDecisions cache M) (nowNs : UInt64) (domain : CStr) :
    CachesDecisions (dnsCacheLookup cache nowNs domain).2 M := by
  intro i hi
  rcases dnsCacheLookup_slots cache nowNs domain with
    ⟨-, hentries, -⟩ | ⟨j, hfind, -, -, hentries, -⟩
  · rw [hentries] at hi ⊢
    exact h i hi
  · rw [hentries] at hi ⊢
    by_cases hij : i = j
    · subst hij
      rw [Function.update_self]
      exact h i (dnsCacheFind_some hfind).1
    · rw [Function.update_of_ne hij] at hi ⊢
      exact h i hi

/-- Caching a verdict that the map has, if it is one that is cached. -/
theorem CachesDecisions.cacheVerdict (h : CachesDecisions cache M) (nowNs : UInt64)
    {domain : CStr} {r : LookupResult} (hr : ∀ st ttl, r.decision = some (st, ttl) → st ≠ .review →
      M.decision (normalise domain) = some (st, ttl)) :
    ∃ cache', cacheVerdict (some cache) nowNs domain r = some cache' ∧ CachesDecisions cache' M := by
  rw [cacheVerdict_eq]
  refine ⟨_, rfl, ?_⟩
  by_cases hins : insertsVerdict cache nowNs domain r = true
  · rw [if_pos hins]
    rw [insertsVerdict] at hins
    simp only [Bool.and_eq_true, decide_eq_true_eq] at hins
    obtain ⟨⟨hmatched, hst⟩, htrue⟩ := hins
    have hlen : domain.length ≤ dnsCacheMaxDomainLen := by
      by_contra hlong
      rw [dnsCacheInsert_refused (Or.inr (Nat.not_le.mp hlong))] at htrue
      cases htrue
    have hdecision : M.decision (normalise domain) = some (r.status, r.ttl) :=
      hr r.status r.ttl (if_pos hmatched) hst
    obtain ⟨j, hj, hothers, -⟩ := dnsCacheInsert_scan cache nowNs r.status.cacheAction
      (verdictTtl_ne_zero r) hlen
    intro i hi
    -- the new entry is right by `hr`, the others were right before
    by_cases hij : i = j
    · subst hij
      rw [hj]
      exact ⟨r.status, r.ttl, hdecision, hst, rfl, fun hblocked => if_pos hblocked⟩
    · rcases hothers i hij with heq | hzero
      · rw [heq] at hi ⊢
        exact h i hi
      · rw [hzero] at hi
        cases hi
  · rw [if_neg hins]
    exact h

/-- **`check_domain` keeps the cache right**, changes the map in its bookkeeping only, and
reports no match only where there is none. -/
theorem CachesDecisions.checkDomain {tree : RadixTree} (h : CachesDecisions cache tree.map)
    (nowNs : UInt64) (now : UInt32) {domain : CStr} (hlen : domain.length < labelBufSize) :
    (∃ cache', (checkDomain (some cache) tree nowNs now domain).2.1 = some cache' ∧
      CachesDecisions cache' tree.map) ∧
    (checkDomain (some cache) tree nowNs now domain).2.2.map.core = tree.map.core ∧
    ((checkDomain (some cache) tree nowNs now domain).1.matched = false →
      tree.map.decision (normalise domain) = none) := by
  have hlookup := h.lookup nowNs domain
  have hdecision := radixLookup_decision tree now hlen
  -- a hit leaves the tree alone; a miss asks it, and caches what it decides
  cases hhit : (dnsCacheLookup cache nowNs domain).1 with
  | some hit =>
    rw [checkDomain_hit hhit]
    exact ⟨⟨_, rfl, hlookup⟩, rfl, fun hno => nomatch hno⟩
  | none =>
    rw [checkDomain_miss hhit]
    have hcached := hlookup.cacheVerdict nowNs fun st ttl hr _ => hdecision.symm.trans hr
    refine ⟨hcached, radixLookup_map tree now domain, fun hno => ?_⟩
    rw [← hdecision]
    have hmatched : (radixLookup tree now domain).1.matched = false := by
      change (CheckResult.ofTree domain (radixLookup tree now domain).1).matched = false at hno
      rw [CheckResult.ofTree] at hno
      cases hr : (radixLookup tree now domain).1.matched with
      | false => rfl
      | true =>
        rw [hr] at hno
        cases hno
    rw [LookupResult.decision]
    rw [hmatched]
    rfl

/-- A right cache makes no difference. -/
theorem CachesDecisions.same {tree : RadixTree} (h : CachesDecisions cache tree.map) {domain : CStr}
    (hlen : domain.length < labelBufSize) (nowNs : UInt64) (now : UInt32) :
    SameDecision (Nyet.checkDomain (some cache) tree nowNs now domain).1
      (Nyet.checkDomain (none : Option (DnsCache capacity)) tree nowNs now domain).1 := by
  have htree : (Nyet.checkDomain (none : Option (DnsCache capacity)) tree nowNs now domain).1 =
      .ofTree domain (radixLookup tree now domain).1 := rfl
  rw [htree]
  rcases dnsCacheLookup_slots cache nowNs domain with ⟨hnone, -⟩ | ⟨i, hfind, -, hsome, -⟩
  · rw [checkDomain_miss hnone]
    exact ⟨rfl, rfl, fun _ => rfl⟩
  · rw [checkDomain_hit hsome]
    obtain ⟨hvalid, hdomain⟩ := dnsCacheFind_some hfind
    obtain ⟨st, ttl, hd, hst, haction, httl⟩ := h i hvalid
    rw [hdomain, ← radixLookup_decision tree now hlen] at hd
    -- the tree has the verdict that is cached
    obtain ⟨hmatched, hstatus, hrttl⟩ : (radixLookup tree now domain).1.matched = true ∧
        (radixLookup tree now domain).1.status = st ∧ (radixLookup tree now domain).1.ttl = ttl := by
      rw [LookupResult.decision] at hd
      split at hd
      · next hmatched => exact ⟨hmatched, Prod.mk.inj (Option.some.inj hd)⟩
      · cases hd
    rw [CheckResult.ofTree]
    rw [hmatched, hstatus, hrttl]
    show SameDecision (.ofCache domain (cache.entries i).action (cache.entries i).ttl) _
    rw [CheckResult.ofCache]
    rw [haction]
    cases st with
    | blocked =>
      refine ⟨rfl, rfl, fun _ => ?_⟩
      show effectiveTtl (cache.entries i).ttl = effectiveTtl ttl
      rw [httl rfl, effectiveTtl_effectiveTtl]
    | allowed => exact ⟨rfl, rfl, fun hblocked => by cases hblocked⟩
    | review => exact absurd rfl hst

/-! ## What is claimed -/

/-- Claims are of different questions, and above a claimed domain stands nothing but
REVIEW entries and BLOCKED ones with ttl 0, the latter not at the domain itself. -/
structure ClaimsQuiet (M : BlockMap) (g : Gravity) : Prop where
  nodup : g.threads.Nodup
  pending : ∀ d ∈ g.threads, AskedCache.state g.asked d = some .pending
  question : ∀ d ∈ g.threads, IsQuestion d
  quiet : ∀ d ∈ g.threads, ∀ ks e, ks ≠ [] → ks <+: normalise d → M ks = some e →
    e.status = .review ∨ (ks ≠ normalise d ∧ e.status = .blocked ∧ e.ttl = 0)

variable {g : Gravity}

/-- Without checks there is nothing to disturb. -/
theorem ClaimsQuiet.of_idle (h : g.threads = []) (M : BlockMap) : ClaimsQuiet M g := by
  have hno : ∀ d, d ∉ g.threads := by
    intro d hd
    rw [h] at hd
    cases hd
  exact ⟨h ▸ List.nodup_nil, fun d hd => absurd hd (hno d), fun d hd => absurd hd (hno d),
    fun d hd => absurd hd (hno d)⟩
theorem ClaimsQuiet.of_core (h : ClaimsQuiet M g) (hM : M'.core = M.core) : ClaimsQuiet M' g := by
  refine ⟨h.nodup, h.pending, h.question, fun d hd ks e hne hpre he => ?_⟩
  have hcore : (M' ks).map Entry.core = (M ks).map Entry.core := congrFun hM ks
  rw [he, Option.map_some] at hcore
  obtain ⟨e', he', heq⟩ := Option.map_eq_some_iff.mp hcore.symm
  have hstatus : e'.core.status = e.core.status := congrArg Entry.status heq
  have httl : e'.core.ttl = e.core.ttl := congrArg Entry.ttl heq
  rw [show e.status = e'.status from hstatus.symm, show e.ttl = e'.ttl from httl.symm]
  exact h.quiet d hd ks e' hne hpre he'

/-- Checks may end, and the claims of the others stay as they are. -/
theorem ClaimsQuiet.of_sublist (h : ClaimsQuiet M g) {g' : Gravity}
    (hsub : g'.threads.Sublist g.threads)
    (hstate : ∀ d ∈ g'.threads, AskedCache.state g'.asked d = AskedCache.state g.asked d) :
    ClaimsQuiet M g' := by
  have hmem : ∀ d ∈ g'.threads, d ∈ g.threads := fun d hd => hsub.subset hd
  exact ⟨h.nodup.sublist hsub, fun d hd => (hstate d hd).trans (h.pending d (hmem d hd)),
    fun d hd => h.question d (hmem d hd), fun d hd => h.quiet d (hmem d hd)⟩

/-- A REVIEW entry disturbs no claim. -/
theorem ClaimsQuiet.review (h : ClaimsQuiet M g) {p : List Label}
    (hother : ∀ ks, ks ≠ p → M' ks = M ks) (hreview : ∀ e, M' p = some e → e.status = .review) :
    ClaimsQuiet M' g := by
  refine ⟨h.nodup, h.pending, h.question, fun d hd ks e hne hpre he => ?_⟩
  by_cases hks : ks = p
  · exact Or.inl (hreview e (hks ▸ he))
  · rw [hother ks hks] at he
    exact h.quiet d hd ks e hne hpre he

/-- **A claim** is made where nothing stands above the domain but REVIEW entries. -/
theorem ClaimsQuiet.ask (h : ClaimsQuiet M g) {domain : CStr} (hq : IsQuestion domain)
    (hquiet : ∀ ks e, ks ≠ [] → ks <+: normalise domain → M ks = some e → e.status = .review)
    (claim : Alloc) (argsOk threadOk : Bool) : ClaimsQuiet M (g.ask claim argsOk threadOk domain) := by
  rw [Gravity.ask]
  rcases askedCacheTryClaim_cases claim g.asked domain with hno | ⟨hstate, hfire, hpush⟩
  · rw [hno]
    exact h
  · generalize askedCacheTryClaim claim g.asked domain = claimed at hfire hpush ⊢
    obtain ⟨fire, asked⟩ := claimed
    obtain rfl : fire = true := hfire
    dsimp only at hpush ⊢
    have hnew : domain ∉ g.threads := by
      intro hmem
      rw [h.pending domain hmem] at hstate
      cases hstate
    have hother : ∀ d ∈ g.threads, d ≠ domain := by
      rintro d hd rfl
      exact hnew hd
    have hkept : ∀ d ∈ g.threads, AskedCache.state asked d = AskedCache.state g.asked d := by
      intro d hd
      rw [hpush, Function.update_of_ne (hother d hd)]
    rw [if_pos rfl]
    rw [queueGravityCheck]
    split
    · -- no slot: the claim is given back
      refine h.of_sublist (List.Sublist.refl _) fun d hd => ?_
      show AskedCache.state (askedCacheMarkDone asked domain false) d = _
      rw [askedCacheMarkDone_state, Function.update_of_ne (hother d hd)]
      exact hkept d hd
    · split
      · obtain ⟨packet, qtype, hpacket⟩ := hq
        have hwhole : truncated domain = domain := (parseQuery_wireName hpacket).truncated
        have hmem : ∀ d ∈ g.threads ++ [truncated domain], d ∈ g.threads ∨ d = domain := by
          intro d hd
          rw [hwhole] at hd
          exact (List.mem_append.mp hd).imp_right List.mem_singleton.mp
        refine ⟨?_, fun d hd => ?_, fun d hd => ?_, fun d hd ks e hne hpre he => ?_⟩
        · show (g.threads ++ [truncated domain]).Nodup
          rw [hwhole]
          refine List.nodup_append.mpr ⟨h.nodup, List.nodup_singleton _, fun d hd b hb => ?_⟩
          rw [List.mem_singleton.mp hb]
          exact hother d hd
        · show AskedCache.state asked d = some .pending
          rcases hmem d hd with hold | rfl
          · rw [hkept d hold]
            exact h.pending d hold
          · rw [hpush, Function.update_self]
        · rcases hmem d hd with hold | rfl
          · exact h.question d hold
          · exact ⟨packet, qtype, hpacket⟩
        · rcases hmem d hd with hold | rfl
          · exact h.quiet d hold ks e hne hpre he
          · exact Or.inl (hquiet ks e hne hpre he)
      · exact h.of_sublist (List.Sublist.refl _) hkept

/-- The end of a check leaves the other claims. -/
theorem ClaimsQuiet.finish (h : ClaimsQuiet M g) {i : Nat} {domain : CStr}
    (hi : g.threads[i]? = some domain) (result : GravityResult) :
    ClaimsQuiet M (gravityFinish g i domain result) ∧
      ∀ d ∈ (gravityFinish g i domain result).threads, d ≠ domain := by
  have hne : ∀ d ∈ g.threads.eraseIdx i, d ≠ domain := by
    rintro d hd rfl
    obtain ⟨j, hj, hget⟩ := List.mem_eraseIdx_iff_getElem?.mp hd
    obtain ⟨hlt, -⟩ := List.getElem?_eq_some_iff.mp hget
    exact hj ((List.getElem?_inj hlt h.nodup).mp (hget.trans hi.symm))
  refine ⟨h.of_sublist (List.eraseIdx_sublist g.threads i) fun d hd => ?_, hne⟩
  show AskedCache.state (askedCacheMarkDone g.asked domain _) d = _
  rw [askedCacheMarkDone_state, Function.update_of_ne (hne d hd)]

/-! ## The invariant -/

/-- The cache is right about the tree, and the claims are quiet. -/
structure Coherent (s : Deciding capacity) : Prop where
  cached : CachesDecisions s.cache s.tree.map
  claims : ClaimsQuiet s.tree.map s.gravity

/-- Where no entry matches, none stands above the domain. -/
theorem BlockMap.decision_none {ls : List Label} (h : M.decision ls = none) {ks : List Label}
    (hne : ks ≠ []) (hpre : ks <+: ls) : M ks = none := by
  have houtcome : M.outcome ls = none := by
    rw [BlockMap.decision] at h
    rw [BlockMap.outcome]
    rw [Option.map_eq_none_iff] at h ⊢
    exact h
  cases hks : M ks with
  | none => rfl
  | some e => exact absurd ⟨ks, e, hne, hpre, hks, rfl⟩ (BlockMap.outcome_eq_none.mp houtcome e.status)

/-- A live insert that promotes leaves what is cached right. -/
theorem CachesDecisions.insert {tree : RadixTree} (h : CachesDecisions cache tree.map) (a : Alloc)
    {domain : CStr} {e : Entry}
    (hbefore : Insertable domain → ∀ old, tree.map (normalise domain) = some old →
      old.status = .review)
    (hafter : e.status = .review ∨ (e.status = .blocked ∧ ∀ ks old, ks ≠ [] →
      ks <+: normalise domain → tree.map ks = some old → old.status = .blocked →
      old.ttl = e.ttl)) :
    CachesDecisions cache (radixTreeInsertLive a tree domain e).2.map :=
  h.mono fun _ _ _ hd hst => radixTreeInsertLive_decision a hbefore hafter hd hst

theorem Coherent.query {s : Deciding capacity} (h : Coherent s) {domain : CStr}
    (hq : IsQuestion domain) (nowNs : UInt64) (now reviewNow : UInt32) (review claim : Alloc)
    (argsOk threadOk : Bool) :
    Coherent (s.query score domain nowNs now reviewNow review claim argsOk threadOk) := by
  obtain ⟨⟨cache', hcache', hcached⟩, hcore, hnone⟩ := h.cached.checkDomain nowNs now hq.short
  rw [Deciding.query]
  generalize checkDomain (some s.cache) s.tree nowNs now domain = checked at hcache' hcore hnone ⊢
  obtain ⟨check, cache, tree⟩ := checked
  obtain rfl : cache = some cache' := hcache'
  have hclaims := h.claims.of_core hcore
  have htree := hcached.of_core hcore
  dsimp only at hcore hnone ⊢
  rw [Option.getD_some]
  by_cases hmatched : check.matched = true
  · rw [if_pos hmatched]
    exact ⟨htree, hclaims⟩
  · rw [if_neg hmatched]
    -- nothing matches, so the REVIEW entry and the claim come where nothing stands
    have hdecision : tree.map.decision (normalise domain) = none :=
      (BlockMap.decision_of_core hcore _).trans (hnone (Bool.eq_false_iff.mpr hmatched))
    have hother : ∀ ks, (Insertable domain → ks ≠ normalise domain) →
        (runHeuristics score review tree reviewNow domain).map ks = tree.map ks := fun ks hks =>
      radixTreeInsertLive_other review tree _ hks
    have hself : Insertable domain → ∀ e,
        (runHeuristics score review tree reviewNow domain).map (normalise domain) = some e →
        e.status = .review := by
      intro hins e he
      rcases radixTreeInsertLive_self review tree domain
        (reviewEntry reviewNow (score domain).1 (score domain).2) with hkeep | hlost | ⟨-, hnew⟩
      · have hold : tree.map (normalise domain) = some e := hkeep.symm.trans he
        rw [BlockMap.decision_none hdecision hins.2 (List.prefix_refl _)] at hold
        cases hold
      · cases hlost.symm.trans he
      · cases hnew.symm.trans he
        rfl
    refine ⟨htree.insert review ?_ (Or.inl rfl), ClaimsQuiet.ask ?_ hq ?_ claim argsOk threadOk⟩
    · intro hins old hold
      rw [BlockMap.decision_none hdecision hins.2 (List.prefix_refl _)] at hold
      cases hold
    · by_cases hins : Insertable domain
      · exact hclaims.review (fun ks hks => hother ks fun _ => hks) (hself hins)
      · have hsame : (runHeuristics score review tree reviewNow domain).map = tree.map :=
          funext fun ks => hother ks fun h => absurd h hins
        rw [hsame]
        exact hclaims
    · intro ks e hne hpre he
      by_cases hks : Insertable domain → ks ≠ normalise domain
      · rw [hother ks hks, BlockMap.decision_none hdecision hne hpre] at he
        cases he
      · obtain ⟨hins, heq⟩ := not_forall.mp hks
        rw [not_not.mp heq] at he
        exact hself hins e he

theorem Coherent.complete {s : Deciding capacity} (h : Coherent s) {i : Nat} {domain : CStr}
    (hi : s.gravity.threads[i]? = some domain) (result : GravityResult) (now : UInt32) (a : Alloc) :
    Coherent (s.complete i domain result now a) := by
  obtain ⟨hfinished, hothers⟩ := h.claims.finish hi result
  have hmem : domain ∈ s.gravity.threads := List.mem_of_getElem? hi
  have hquiet := h.claims.quiet domain hmem
  rw [Deciding.complete]
  by_cases hresult : result = .blocked
  · rw [if_pos hresult]
    refine ⟨h.cached.insert a (fun hins old hold => ?_)
      (Or.inr ⟨rfl, fun ks old hne hpre hold hst => ?_⟩),
      ⟨hfinished.nodup, hfinished.pending, hfinished.question, fun d hd ks e hne hpre he => ?_⟩⟩
    · rcases hquiet _ old hins.2 (List.prefix_refl _) hold with hreview | ⟨hproper, -⟩
      · exact hreview
      · exact absurd rfl hproper
    · rcases hquiet ks old hne hpre hold with hreview | ⟨-, -, httl⟩
      · rw [hreview] at hst
        cases hst
      · exact httl
    · -- the new entry may stand above another claim, but not at its domain
      have hold : ∀ {ks'}, s.tree.map ks' = some e → ks' ≠ [] → ks' <+: normalise d →
          e.status = .review ∨ (ks' ≠ normalise d ∧ e.status = .blocked ∧ e.ttl = 0) :=
        fun he hne hpre => hfinished.quiet d hd _ e hne hpre he
      by_cases hks : Insertable domain → ks ≠ normalise domain
      · have hsame : (gravityInsert a s.tree now domain).2.map ks = s.tree.map ks :=
          radixTreeInsertLive_other a s.tree _ hks
        exact hold (hsame.symm.trans he) hne hpre
      · obtain ⟨-, heq⟩ := not_forall.mp hks
        have hpath : ks = normalise domain := not_not.mp heq
        rcases radixTreeInsertLive_self a s.tree domain (gravityEntry now) with
          hkeep | hlost | ⟨-, hnew⟩
        · rw [hpath] at he hne hpre ⊢
          exact hold (hkeep.symm.trans he) hne hpre
        · rw [hpath] at he
          cases hlost.symm.trans he
        · rw [hpath] at he
          cases hnew.symm.trans he
          refine Or.inr ⟨fun hd' => hothers d hd ?_, rfl, rfl⟩
          obtain ⟨packet, qtype, hpacket⟩ := h.claims.question domain hmem
          obtain ⟨packet', qtype', hpacket'⟩ := hfinished.question d hd
          exact parseQuery_normalise_inj hpacket' hpacket (hd'.symm.trans hpath)
  · rw [if_neg hresult]
    exact ⟨h.cached, hfinished⟩

/-- **Every step keeps the invariant.** -/
theorem Coherent.step {s : Deciding capacity} (h : Coherent s) (e : DecidingEvent)
    (hquiet : ReloadsQuietly s e) : Coherent (s.step score e) := by
  cases e with
  | query packet nowNs now reviewNow review claim argsOk threadOk =>
    unfold Deciding.step
    dsimp only
    cases hq : question packet with
    | none => exact h
    | some asked => exact h.query score ⟨packet, asked.2, hq⟩ _ _ _ _ _ _ _
  | complete i result now a =>
    unfold Deciding.step
    dsimp only
    cases hi : s.gravity.threads[i]? with
    | none => exact h
    | some domain => exact h.complete hi result now a
  | reload b => exact ⟨fun i hi => (nomatch hi), ClaimsQuiet.of_idle hquiet _⟩

/-- **`query_cache` is transparent**: in every run from a loaded blocklist in which no
check is running when a reload comes, `check_domain` says what it would say without the
cache. -/
theorem query_cache_transparent (tree : RadixTree) {cache : DnsCache capacity}
    (hinit : dnsCacheInit capacity = some cache) (events : List DecidingEvent)
    (hquiet : Lib.EveryStep (Deciding.step score) ReloadsQuietly (.init tree cache) events) :
    Lib.EveryState (Deciding.step score) CacheTransparent (.init tree cache) events := by
  have hstart : Coherent (.init tree cache) := by
    refine ⟨fun i hi => ?_, .of_idle rfl _⟩
    have hzero : cache.entries i = .zero := (dnsCacheInit_zero hinit).1 i
    cases (congrArg DnsCacheEntry.valid hzero).symm.trans hi
  exact .of_invariant (fun _ e h hG => h.step score e hG)
    (fun _ h _ hq nowNs now => h.cached.same hq.short nowNs now) hstart hquiet

end

/-- A verdict of the blocklist is cached, a gravity check promotes another domain, and then
the blocklist is reloaded. -/
def promotionRun : List DecidingEvent :=
  [.query (queryPacket 1 [cstr "ads", cstr "com"] 1) 0 0 0 [] [] true true,
    .query (queryPacket 2 [cstr "example", cstr "com"] 1) 1 0 0 [] [] true true,
    .complete 0 .blocked 1 [],
    .query (queryPacket 3 [cstr "www", cstr "example", cstr "com"] 1) 2 2 2 [] [] true true,
    .reload ⟨none, noRoot_wf⟩]

theorem query_cache_transparent_promotion : ∃ cache, dnsCacheInit 64 = some cache ∧
    Lib.EveryState (Deciding.step fun _ => (0, [])) CacheTransparent (.init oneBlocked cache)
      promotionRun := by
  refine ⟨_, rfl, query_cache_transparent _ oneBlocked rfl promotionRun ?_⟩
  refine ⟨trivial, trivial, trivial, trivial, ?_, trivial⟩
  show (_ : List CStr) = []
  decide +kernel

end Nyet
