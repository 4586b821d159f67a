import Nyet.Proxy.CacheTransparency
import Nyet.Proxy.GravityRace
import Nyet.Proxy.ReloadRace

/-!
# Verdicts are final

Between two reloads the workers and the gravity threads share one tree, and a live insert may come
long after the lookup that led to it. It still lands where nothing can be overruled but by way of
its own node: whoever vets a domain found no entry at it or above it, so what stands there by now
are REVIEW entries and those of other gravity checks (`Threads.VettedQuietly`), and a BLOCKED entry
more makes no difference to them. So if no live insert takes a BLOCKED or ALLOWED entry from the
node it meets (`SparesVerdicts`, the condition under which no gravity confirmation is lost), a
verdict of the tree stands for good (`Threads.Steady.step_decision`). What the verdict cache holds
and what a worker has looked up are verdicts of the tree too, of an earlier one; so every
`check_domain` that starts from then on returns the verdict (`verdict_is_final`).
-/

namespace Nyet

/-! ## Whose verdict is to stand -/

/-- **The condition**: a live insert that meets a BLOCKED or ALLOWED entry is a REVIEW insert that
cannot copy its note, or a BLOCKED one that finds memory for its entry. -/
def SparesVerdicts (score : Scorer) (s : Threads) (m : Move) : Prop :=
  ∀ a domain e, s.liveInsert score m = some (a, domain, e) → Insertable domain →
    ∀ old, s.tree.map (normalise domain) = some old → old.status ≠ .review →
      (e.status = .review ↔ a.next.1 = false)

instance SparesVerdicts.decidable (score : Scorer) (s : Threads) (m : Move) :
    Decidable (SparesVerdicts score s m) :=
  decidable_of_iff
    (∀ inserted ∈ s.liveInsert score m, Insertable inserted.2.1 →
      ∀ old ∈ s.tree.map (normalise inserted.2.1), old.status ≠ .review →
        (inserted.2.2.status = .review ↔ inserted.1.next.1 = false))
    ⟨fun h a domain e hlive => h (a, domain, e) hlive,
      fun h inserted hlive => h inserted.1 inserted.2.1 inserted.2.2 hlive⟩

/-- The threads, and the workers whose `check_domain` has started since. -/
structure Since where
  threads : Threads
  late : Nat → Bool

/-- One move. -/
def Since.step (score : Scorer) (s : Since) (m : Move) : Since :=
  { threads := s.threads.step score m
    late := match s.threads.starts m with
      | some w => Function.update s.late w true
      | none => s.late }

/-- None has started yet. -/
def Since.start (threads : Threads) : Since := ⟨threads, fun _ => false⟩

/-- The verdict is this one; 0 reads as the default ttl. -/
def CheckResult.Says (r : CheckResult) (st : Status) (ttl : UInt32) : Prop :=
  r.matched = true ∧ r.status = st ∧ (st = .blocked → effectiveTtl r.ttl = effectiveTtl ttl)

/-- **A call of `check_domain` for the domain that has started since returns this verdict.** A
call that returns in its first move starts in it. -/
def GetsVerdict (domain : List Label) (st : Status) (ttl : UInt32) (s : Since) (m : Move) : Prop :=
  ∀ w d result, s.threads.returns m = some (w, d, result) → normalise d = domain →
    (∀ nowNs, m = .storeVerdict w nowNs → s.late w = true) → result.Says st ttl

/-! ## What stands above a domain that is vetted -/

/-- The domain a worker has found unmatched and is not done with. -/
def WorkerStage.vetted : WorkerStage → Option CStr
  | .looked domain r => if r.matched then none else some domain
  | .unmatched domain => some domain
  | .flagged domain => some domain
  | .claimed domain => some domain
  | _ => none

/-- A worker or a gravity thread is vetting the domain. -/
def Threads.Vets (s : Threads) (d : CStr) : Prop :=
  (∃ w, (s.worker w).vetted = some d) ∨ ∃ c ∈ s.checks, c.domain = d

/-- At the domain and above it stand only entries of the vetting. -/
def BlockMap.QuietAbove (M : BlockMap) (d : CStr) : Prop :=
  ∀ ks e, ks ≠ [] → ks <+: normalise d → M ks = some e →
    e.status = .review ∨ e.core = (gravityEntry 0).core

/-- Wherever a domain is vetted, it is quiet. -/
def Threads.VettedQuietly (s : Threads) : Prop := ∀ d, s.Vets d → s.tree.map.QuietAbove d

theorem BlockMap.QuietAbove.of_core {M N : BlockMap} {d : CStr} (h : M.QuietAbove d)
    (hN : N.core = M.core) : N.QuietAbove d := by
  intro ks e hne hpre he
  have hcore : (N ks).map Entry.core = (M ks).map Entry.core := congrFun hN ks
  rw [he, Option.map_some] at hcore
  obtain ⟨e', he', heq⟩ := Option.map_eq_some_iff.mp hcore.symm
  rw [← heq, ← Entry.core_status e, ← heq, Entry.core_status]
  exact h ks e' hne hpre he'

theorem BlockMap.QuietAbove.blocked {M : BlockMap} {d : CStr} (h : M.QuietAbove d)
    {ks : List Label} {e : Entry} (hne : ks ≠ []) (hpre : ks <+: normalise d) (he : M ks = some e)
    (hst : e.status ≠ .review) : e.core = (gravityEntry 0).core :=
  (h ks e hne hpre he).resolve_left hst

section

variable {score : Scorer} {s : Threads} {m : Move} {a : Alloc} {domain : CStr} {e : Entry}

/-- A live insert is a worker's REVIEW entry or a gravity thread's BLOCKED one, of a domain it
vets. -/
theorem Threads.liveInsert_vets (h : s.liveInsert score m = some (a, domain, e)) :
    s.Vets domain ∧ (e.status = .review ∨ e.core = (gravityEntry 0).core) := by
  unfold Threads.liveInsert at h
  split at h
  · next w _ _ =>
    split at h
    · next d hw =>
      cases h
      exact ⟨Or.inl ⟨w, by rw [hw]; rfl⟩, Or.inl rfl⟩
    · cases h
  · split at h
    · next d hi =>
      cases h
      exact ⟨Or.inr ⟨_, List.mem_of_getElem? hi, rfl⟩, Or.inr rfl⟩
    · cases h
  · cases h

/-- **Quiet stays quiet**: live inserts are of the vetting themselves. -/
theorem Threads.step_quiet {d : CStr} (h : s.tree.map.QuietAbove d) (hswap : s.swapsIn m = none) :
    (s.step score m).tree.map.QuietAbove d := by
  cases hlive : s.liveInsert score m with
  | none => exact h.of_core (Threads.step_tree_core hlive hswap)
  | some inserted =>
    obtain ⟨a, domain, e⟩ := inserted
    rw [Threads.step_liveInsert hlive]
    intro ks e' hne hpre he'
    by_cases hks : ks = normalise domain
    · subst hks
      rcases radixTreeInsertLive_self a s.tree domain e with hkeep | hlost | ⟨-, hset⟩
      · exact h _ e' hne hpre (hkeep.symm.trans he')
      · cases hlost.symm.trans he'
      · cases hset.symm.trans he'
        exact (Threads.liveInsert_vets hlive).2
    · exact h ks e' hne hpre ((radixTreeInsertLive_other a s.tree e fun _ => hks).symm.trans he')

/-! ## A verdict of the tree -/

/-- An insert that spares what it meets puts an entry of the same status and ttl there, or none. -/
theorem replaceEntry_spares {old : Entry} (hspare : e.status = .review ↔ a.next.1 = false)
    (he : (e.status = .review ∧ e.note.isSome = true) ∨ (e.status = .blocked ∧ e.note = none))
    (hcore : e.status ≠ .review → e.core = old.core) :
    (replaceEntry e (some old) a).map Entry.core = some old.core := by
  rcases he with ⟨hreview, hnote⟩ | ⟨hblocked, hnote⟩
  · rcases replaceEntry_note hnote (some old) a with ⟨-, hkeep⟩ | ⟨hnext, -⟩
    · rw [hkeep]
      rfl
    · exact absurd (hspare.mp hreview) (by rw [hnext]; decide)
  · have hne : e.status ≠ .review := by
      rw [hblocked]
      decide
    have hnext : a.next.1 = true := by
      rw [← Bool.not_eq_false]
      exact mt hspare.mpr hne
    rw [replaceEntry_plain hnote, hnext, if_pos rfl, Option.map_some, hcore hne]

/-- **What a live insert does to a verdict** where it spares what it meets: nothing. -/
theorem radixTreeInsertLive_spares {tree : RadixTree} (hquiet : tree.map.QuietAbove domain)
    (he : (e.status = .review ∧ e.note.isSome = true) ∨ (e.status = .blocked ∧ e.note = none))
    (hcore : e.status = .review ∨ e.core = (gravityEntry 0).core)
    (hspares : Insertable domain → ∀ old, tree.map (normalise domain) = some old →
      old.status ≠ .review → (e.status = .review ↔ a.next.1 = false))
    {ls : List Label} {st : Status} {ttl : UInt32} (hd : tree.map.decision ls = some (st, ttl))
    (hst : st ≠ .review) :
    (radixTreeInsertLive a tree domain e).2.map.decision ls = some (st, ttl) := by
  by_cases hmeets : Insertable domain ∧
      ∃ old, tree.map (normalise domain) = some old ∧ old.status ≠ .review
  · -- it meets an entry of another check, which is as good as its own
    obtain ⟨hins, old, hold, hdecides⟩ := hmeets
    have hgravity := hquiet.blocked hins.2 (List.prefix_refl _) hold hdecides
    have hsame : (radixTreeInsertLive a tree domain e).2.map.core = tree.map.core := by
      funext ks
      show ((radixTreeInsertLive a tree domain e).2.map ks).map Entry.core =
        (tree.map ks).map Entry.core
      by_cases hks : ks = normalise domain
      · rw [hks, radixTreeInsertLive_held a e hins hold, hold]
        refine replaceEntry_spares (hspares hins old hold hdecides) he fun hne => ?_
        exact (hcore.resolve_left hne).trans hgravity.symm
      · rw [radixTreeInsertLive_other a tree e fun _ => hks]
    exact (BlockMap.decision_of_core hsame ls).trans hd
  · refine radixTreeInsertLive_decision a (fun hins old hold => ?_) ?_ hd hst
    · by_contra hdecides
      exact hmeets ⟨hins, old, hold, hdecides⟩
    · refine he.imp And.left fun hblocked => ⟨hblocked.1, fun ks old hne hpre hold hst' => ?_⟩
      have hne' : e.status ≠ .review := by
        rw [hblocked.1]
        decide
      have hold' : old.status ≠ .review := by
        rw [hst']
        decide
      have hcores := (hquiet.blocked hne hpre hold hold').trans (hcore.resolve_left hne').symm
      have httl : old.core.ttl = e.core.ttl := congrArg Entry.ttl hcores
      exact httl

end

/-! ## The invariant -/

/-- **The threads are steady**: names come from questions, what is vetted is quiet, and what is
cached or looked up is what the tree decides. -/
structure Threads.Steady (s : Threads) : Prop where
  named : s.Named
  quiet : s.VettedQuietly
  inHand : ∀ w d r, s.worker w = .looked d r → ∀ st ttl, r.decision = some (st, ttl) →
    st ≠ .review → s.tree.map.decision (normalise d) = some (st, ttl)
  cached : ∀ cache, s.queryCache = some cache → CachesDecisions cache s.tree.map

/-- Threads that have just started, with a verdict cache if there is memory for one. -/
def Threads.fresh (tree : RadixTree) (queryCacheOk : Bool)
    (answerCache : Option (AnswerCache proxyCacheCapacity)) (learned : Option CStr) : Threads :=
  .start tree (if queryCacheOk then dnsCacheInit proxyCacheCapacity else none) answerCache learned

theorem Threads.Steady.fresh (tree : RadixTree) (queryCacheOk : Bool)
    (answerCache : Option (AnswerCache proxyCacheCapacity)) (learned : Option CStr) :
    (Threads.fresh tree queryCacheOk answerCache learned).Steady := by
  refine ⟨.start _ _ _ _, fun d hd => ?_, fun w d r hw => ?_, fun cache hcache i hi => ?_⟩
  · rcases hd with ⟨w, hw⟩ | ⟨c, hc, -⟩
    · cases hw
    · cases hc
  · cases hw
  · have hinit : (if queryCacheOk then dnsCacheInit proxyCacheCapacity else none) = some cache :=
      hcache
    split at hinit
    · rw [(dnsCacheInit_zero hinit).1 i] at hi
      cases hi
    · cases hinit

section

variable {score : Scorer} {s : Threads} {m : Move}

/-- **A verdict of the tree stands.** -/
theorem Threads.Steady.step_decision (h : s.Steady) (hswap : s.swapsIn m = none)
    (hspares : SparesVerdicts score s m) {ls : List Label} {st : Status} {ttl : UInt32}
    (hd : s.tree.map.decision ls = some (st, ttl)) (hst : st ≠ .review) :
    (s.step score m).tree.map.decision ls = some (st, ttl) := by
  cases hlive : s.liveInsert score m with
  | none => exact (BlockMap.decision_of_core (Threads.step_tree_core hlive hswap) ls).trans hd
  | some inserted =>
    obtain ⟨a, domain, e⟩ := inserted
    obtain ⟨hvets, hcore⟩ := Threads.liveInsert_vets hlive
    rw [Threads.step_liveInsert hlive]
    exact radixTreeInsertLive_spares (h.quiet domain hvets) (Threads.liveInsert_entry hlive) hcore
      (hspares a domain e hlive) hd hst

/-- Where a lookup has no match, nothing stands above the domain. -/
theorem quietAbove_of_unmatched {tree : RadixTree} {now : UInt32} {d : CStr}
    (hlen : d.length < labelBufSize) (h : (radixLookup tree now d).1.matched = false) :
    tree.map.QuietAbove d := by
  have hnone : tree.map.decision (normalise d) = none := by
    rw [← radixLookup_decision tree now hlen, LookupResult.decision, h]
    rfl
  intro ks e hne hpre he
  rw [BlockMap.decision_none hnone hne hpre] at he
  cases he

/-- A worker comes to vet a domain by a lookup without a match. -/
theorem Threads.step_vets_worker (h : s.Named) {w : Nat} {d : CStr}
    (hd : ((s.step score m).worker w).vetted = some d) :
    s.Vets d ∨ s.tree.map.QuietAbove d := by
  rcases Threads.step_worker (rfl : (s.step score m).worker w = _) with hsame | hturn
  · rw [← hsame] at hd
    exact Or.inl (Or.inl ⟨w, hd⟩)
  · generalize (s.step score m).worker w = stage at hd hturn
    cases hturn with
    | missed hw => cases hd
    -- the one way to begin: the tree had nothing at the domain or above it
    | @looked d' now hw =>
      right
      rw [WorkerStage.vetted] at hd
      split at hd
      · cases hd
      · next hmatched =>
        cases hd
        have hq : IsQuestion d := h.worker w d (congrArg WorkerStage.domain hw)
        exact quietAbove_of_unmatched hq.short (Bool.eq_false_iff.mpr hmatched)
    | unmatched hw hr =>
      cases hd
      exact Or.inl (Or.inl ⟨w, by rw [hw, WorkerStage.vetted, hr]; rfl⟩)
    | flagged hw | claimed hw =>
      cases hd
      exact Or.inl (Or.inl ⟨w, by rw [hw]; rfl⟩)
    | done => cases hd

/-- A check is of a domain that was vetted before. -/
theorem Threads.step_vets_check (h : s.Named) {c : GravityCheck}
    (hc : c ∈ (s.step score m).checks) : s.Vets c.domain := by
  rcases Threads.step_check hc with hold | hturn
  · exact Or.inr ⟨c, hold, rfl⟩
  · cases hturn with
    | @queued w argsOk threadOk d hw =>
      obtain ⟨packet, qtype, hpacket⟩ := h.worker w d (congrArg WorkerStage.domain hw)
      rw [(parseQuery_wireName hpacket).truncated]
      exact Or.inl ⟨w, by rw [hw]; rfl⟩
    | confirmed hi | answered hi _ | inserted hi | invalidated hi | appended hi =>
      exact Or.inr ⟨_, List.mem_of_getElem? hi, rfl⟩

theorem Threads.Steady.step_quiet (h : s.Steady) (hswap : s.swapsIn m = none) :
    (s.step score m).VettedQuietly := by
  intro d hd
  refine Threads.step_quiet ?_ hswap
  rcases hd with ⟨w, hw⟩ | ⟨c, hc, rfl⟩
  · exact (Threads.step_vets_worker h.named hw).elim (h.quiet d) id
  · exact h.quiet _ (Threads.step_vets_check h.named hc)

/-- The cache takes in what a worker has looked up, and that is what the tree decides. -/
theorem Threads.Steady.step_cached (h : s.Steady) {cache : DnsCache proxyCacheCapacity}
    (hcache : (s.step score m).queryCache = some cache) : CachesDecisions cache s.tree.map := by
  cases m with
  | lookupCache w domain nowNs =>
    simp only [Threads.step, Threads.lookupCache] at hcache
    split at hcache
    · have hlooked : (checkCached s.queryCache nowNs domain).2 = some cache := hcache
      cases hold : s.queryCache with
      | none =>
        rw [hold] at hlooked
        cases hlooked
      | some old =>
        rw [hold] at hlooked
        cases hlooked
        exact (h.cached old hold).lookup nowNs domain
    · exact h.cached cache hcache
  | storeVerdict w nowNs =>
    simp only [Threads.step, Threads.storeVerdict] at hcache
    split at hcache
    · next domain r hw =>
      have hstored : cacheVerdict s.queryCache nowNs domain r = some cache := hcache
      cases hold : s.queryCache with
      | none =>
        rw [hold] at hstored
        cases hstored
      | some old =>
        -- however long ago the worker looked it up, the tree decides so still
        obtain ⟨cache', hcache', hcached⟩ :=
          (h.cached old hold).cacheVerdict nowNs (h.inHand w domain r hw)
        rw [hold, hcache'] at hstored
        cases hstored
        exact hcached
    · exact h.cached cache hcache
  | clearVerdicts =>
    simp only [Threads.step, Threads.clearVerdicts] at hcache
    split at hcache
    · obtain ⟨old, -, rfl⟩ := Option.map_eq_some_iff.mp hcache
      intro i hi
      cases hi
    · exact h.cached cache hcache
  | lookupTree | flag | claim | queue | answer | insert | invalidate | append | markDone
  | startReload | readBlocklist | readLearned | swap | clearAnswers =>
    simp only [Threads.step, Threads.lookupTree, Threads.flag, Threads.claim, Threads.queue,
      Threads.answer, Threads.insert, Threads.invalidate, Threads.append, Threads.markDone,
      Threads.startReload, Threads.readBlocklist, Threads.readLearned, Threads.swap,
      Threads.clearAnswers] at hcache
    split at hcache <;> exact h.cached cache hcache

/-- **Every move keeps the threads steady.** -/
theorem Threads.Steady.step (h : s.Steady) (hswap : s.swapsIn m = none) (hm : m.AboutQuestion)
    (hspares : SparesVerdicts score s m) : (s.step score m).Steady := by
  refine ⟨h.named.step hm, h.step_quiet hswap, fun w d r hw st ttl hr hst => ?_,
    fun cache hcache => ?_⟩
  · refine h.step_decision hswap hspares ?_ hst
    rcases Threads.step_looked hw with hold | ⟨now, -, hmissed, rfl⟩
    · exact h.inHand w d r hold st ttl hr hst
    · have hq : IsQuestion d := h.named.worker w d (congrArg WorkerStage.domain hmissed)
      exact (radixLookup_decision s.tree now hq.short).symm.trans hr
  · exact (h.step_cached hcache).mono fun ls st ttl hd hst => h.step_decision hswap hspares hd hst

/-! ## What a check returns -/

theorem CheckResult.says_of_decision (d : CStr) {r : LookupResult} {st : Status} {ttl : UInt32}
    (h : r.decision = some (st, ttl)) : (CheckResult.ofTree d r).Says st ttl := by
  rw [LookupResult.decision] at h
  split at h
  · next hmatched =>
    obtain ⟨rfl, rfl⟩ := Prod.mk.inj (Option.some.inj h)
    rw [CheckResult.ofTree, hmatched]
    exact ⟨rfl, rfl, fun _ => rfl⟩
  · cases h

/-- A hit says what the tree decides. -/
theorem Threads.Steady.hit (h : s.Steady) {d : CStr} (hlen : d.length < labelBufSize)
    {nowNs : UInt64} {result : CheckResult}
    (hhit : (checkCached s.queryCache nowNs d).1 = some result) {st : Status} {ttl : UInt32}
    (hd : s.tree.map.decision (normalise d) = some (st, ttl)) : result.Says st ttl := by
  cases hcache : s.queryCache with
  | none =>
    rw [hcache] at hhit
    cases hhit
  | some cache =>
    rw [hcache] at hhit
    have hsame := (h.cached cache hcache).same hlen nowNs 0
    have hchecked : (checkDomain (some cache) s.tree nowNs 0 d).1 = result := by
      rw [checkDomain]
      cases hlooked : checkCached (some cache) nowNs d with
      | mk hit cache' =>
        rw [hlooked] at hhit
        rw [show hit = some result from hhit]
    rw [← radixLookup_decision s.tree 0 hlen] at hd
    obtain ⟨hmatched, hstatus, httl⟩ := CheckResult.says_of_decision d hd
    rw [hchecked] at hsame
    obtain ⟨hmatched', hstatus', httl'⟩ := hsame
    have hst : result.status = st := hstatus'.trans hstatus
    exact ⟨hmatched'.trans hmatched, hst, fun hb => (httl' (hst.trans hb)).trans (httl hb)⟩

/-- The threads are steady, the tree decides, and whoever has looked the domain up since has its
verdict in hand. -/
structure Since.Inv (domain : List Label) (st : Status) (ttl : UInt32) (s : Since) : Prop where
  steady : s.threads.Steady
  decides : s.threads.tree.map.decision domain = some (st, ttl)
  inHand : ∀ w d r, s.late w = true → s.threads.worker w = .looked d r → normalise d = domain →
    r.decision = some (st, ttl)

variable {t : Since} {domain : List Label} {st : Status} {ttl : UInt32}

theorem Since.Inv.step (h : t.Inv domain st ttl) (hst : st ≠ .review)
    (hswap : t.threads.swapsIn m = none) (hm : m.AboutQuestion)
    (hspares : SparesVerdicts score t.threads m) : (t.step score m).Inv domain st ttl := by
  refine ⟨h.steady.step hswap hm hspares, h.steady.step_decision hswap hspares h.decides hst,
    fun w d r hlate hw hd => ?_⟩
  rcases Threads.step_looked hw with hold | ⟨now, -, hmissed, rfl⟩
  · refine h.inHand w d r ?_ hold hd
    -- a call that starts in this move has looked nothing up yet
    cases hstarts : t.threads.starts m with
    | none => simpa [Since.step, hstarts] using hlate
    | some w' =>
      have hidle := Threads.starts_some hstarts
      have hne : w ≠ w' := by
        rintro rfl
        rw [hidle] at hold
        cases hold
      simpa [Since.step, hstarts, hne] using hlate
  · have hq : IsQuestion d := h.steady.named.worker w d (congrArg WorkerStage.domain hmissed)
    rw [radixLookup_decision t.threads.tree now hq.short, hd]
    exact h.decides

theorem Since.Inv.gets (h : t.Inv domain st ttl) (hm : m.AboutQuestion) :
    GetsVerdict domain st ttl t m := by
  rintro w d result hreturns rfl hlate
  unfold Threads.returns at hreturns
  split at hreturns
  · next w' d' nowNs =>
    split at hreturns
    · obtain ⟨r, hhit, heq⟩ := Option.map_eq_some_iff.mp hreturns
      cases heq
      have hq : IsQuestion d := hm
      exact h.steady.hit hq.short hhit h.decides
    · cases hreturns
  · next w' nowNs =>
    split at hreturns
    · next d' r hw =>
      cases hreturns
      exact CheckResult.says_of_decision d (h.inHand w d r (hlate nowNs rfl) hw rfl)
    · cases hreturns
  · cases hreturns

/-- **A verdict is final**, in every interleaving without a swap whose live inserts spare what they
meet: from the moment the tree decides BLOCKED or ALLOWED about a domain it does so for good, and
every `check_domain` that starts from then on returns that verdict, whatever has been cached, is
in flight or fails in between. -/
theorem verdict_is_final (tree : RadixTree) (queryCacheOk : Bool)
    (answerCache : Option (AnswerCache proxyCacheCapacity)) (learned : Option CStr)
    {ms later : List Move} (hswap : .swap ∉ ms ++ later)
    (habout : ∀ m ∈ ms ++ later, m.AboutQuestion)
    (hspares : Lib.EveryStep (Threads.step score) (SparesVerdicts score)
      (.fresh tree queryCacheOk answerCache learned) (ms ++ later))
    {domain : List Label} {st : Status} {ttl : UInt32}
    (hd : (Lib.run (Threads.step score) (.fresh tree queryCacheOk answerCache learned)
      ms).tree.map.decision domain = some (st, ttl)) (hst : st ≠ .review) :
    let s := Lib.run (Threads.step score) (.fresh tree queryCacheOk answerCache learned) ms
    Lib.EveryState (Threads.step score) (fun s => s.tree.map.decision domain = some (st, ttl)) s
        later ∧
      Lib.EveryStep (Since.step score) (GetsVerdict domain st ttl) (.start s) later := by
  intro s
  have hplain : ∀ s : Threads, ∀ m ∈ ms ++ later, s.swapsIn m = none ∧ m.AboutQuestion := by
    refine fun s m hm => ⟨Threads.swapsIn_of_ne ?_, habout m hm⟩
    rintro rfl
    exact hswap hm
  obtain ⟨hbefore, hafter⟩ := Lib.everyStep_append.mp ((Lib.everyStep_of_mem hplain _).and hspares)
  have hsteady : s.Steady := Lib.run_invariant_of_everyStep
    (fun _ _ h hm => h.step hm.1.1 hm.1.2 hm.2) (.fresh tree queryCacheOk answerCache learned) hbefore
  -- the tree's part needs no record of who has started; the workers' part runs beside it
  constructor
  · have hkeep : ∀ (s : Threads) (m : Move),
        s.Steady ∧ s.tree.map.decision domain = some (st, ttl) →
        (s.swapsIn m = none ∧ m.AboutQuestion) ∧ SparesVerdicts score s m →
        (s.step score m).Steady ∧ (s.step score m).tree.map.decision domain = some (st, ttl) :=
      fun s m h hm => ⟨h.1.step hm.1.1 hm.1.2 hm.2, h.1.step_decision hm.1.1 hm.2 h.2 hst⟩
    exact .of_invariant hkeep (fun s h => h.2) ⟨hsteady, hd⟩ hafter
  · have hstart : (Since.start s).Inv domain st ttl := by
      refine ⟨hsteady, hd, fun w d r hlate => ?_⟩
      cases hlate
    have hsince : Lib.EveryStep (Since.step score) (fun t m =>
        (t.threads.swapsIn m = none ∧ m.AboutQuestion) ∧ SparesVerdicts score t.threads m)
        (.start s) later := by
      have hsame : ∀ (s : Threads) (t : Since) (m : Move), t.threads = s →
          (t.step score m).threads = s.step score m := fun s t m h => h ▸ rfl
      exact .of_simulation hsame (fun s t m h hm => h ▸ hm) rfl hafter
    exact .of_invariant (fun t m h hm => h.step hst hm.1.1 hm.1.2 hm.2)
      (fun t m h hm => h.gets hm.1.2) hstart hsince

end

/-- The domain of the race is asked for. -/
theorem raceDomain_isQuestion : IsQuestion raceDomain :=
  ⟨queryPacket 1 [cstr "a", cstr "b"] 1, 1, by decide +kernel⟩

/-- Moves of nobody's question but this one. -/
theorem aboutQuestion_of_domain {m : Move}
    (h : ∀ w d nowNs, m = .lookupCache w d nowNs → d = raceDomain) : m.AboutQuestion := by
  cases m with
  | lookupCache w d nowNs => exact h w d nowNs rfl ▸ raceDomain_isQuestion
  | _ => trivial

/-- A worker asks for a domain, the Pi confirms it, and another worker asks for it. -/
def confirmedMoves : List Move := lookupMoves 0 raceDomain ++ confirmMoves 0

/-- Its REVIEW insert meets nothing, and the confirmation meets the REVIEW entry. -/
theorem confirmedMoves_spare : Lib.EveryStep (Threads.step fun _ => (0, []))
    (SparesVerdicts fun _ => (0, [])) (.fresh (initialTree 0 none none) true none none)
    (confirmedMoves ++ lookupMoves 1 raceDomain) := by
  decide +kernel

/-- The second worker gets the confirmation. -/
theorem verdict_is_final_confirmed :
    Lib.EveryStep (Since.step fun _ => (0, []))
      (GetsVerdict (normalise raceDomain) .blocked 0)
      (.start (Lib.run (Threads.step fun _ => (0, []))
        (.fresh (initialTree 0 none none) true none none) confirmedMoves))
      (lookupMoves 1 raceDomain) := by
  have hd : (radixLookup (Lib.run (Threads.step fun _ => (0, []))
      (.fresh (initialTree 0 none none) true none none) confirmedMoves).tree 0
      raceDomain).1.decision = some (.blocked, 0) := by decide +kernel
  rw [radixLookup_decision _ _ (by decide)] at hd
  refine (verdict_is_final (initialTree 0 none none) true none none (by decide) ?_
    confirmedMoves_spare hd (by decide)).2
  intro m hm
  refine aboutQuestion_of_domain ?_
  rintro w d nowNs rfl
  simp [confirmedMoves, lookupMoves, confirmMoves] at hm
  rcases hm with ⟨-, rfl, -⟩ | ⟨-, rfl, -⟩ <;> rfl

end Nyet
