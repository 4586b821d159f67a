import Nyet.Proxy.ThreadMoves

/-!
# Whether a verdict outlives a reload

The reload thread swaps the tree and then clears the verdict cache, under two locks.
A worker that looked a domain up in the old tree can store its verdict after both.
`reload_verdicts_fresh` says that nothing else can go wrong: if no such verdict is
stored, every `check_domain` that starts after the clear returns what the new tree
says. `stale_store_returned` says that it does go wrong if one is.
-/

namespace Nyet

/-- How far the last reload has come, until a live insert changes its tree. -/
inductive ReloadPhase where
  | none
  /-- `radix_tree_swap` has put the tree in. -/
  | swapped (t : RadixTree)
  /-- `dns_cache_clear` has run since. -/
  | cleared (t : RadixTree)

/-- The threads, the phase, and the workers whose `check_domain` started in the phase
`cleared` and met no swap. -/
structure Reloading where
  threads : Threads
  phase : ReloadPhase
  late : Nat → Bool

/-- `dns_cache_clear` has run. -/
def ReloadPhase.isCleared : ReloadPhase → Bool
  | .cleared _ => true
  | _ => false

/-- The phase a `dns_cache_clear` leads to. -/
def ReloadPhase.afterClear : ReloadPhase → ReloadPhase
  | .swapped t => .cleared t
  | phase => phase

/-- The move is a `dns_cache_clear`. -/
def Threads.clears (s : Threads) (m : Move) : Bool :=
  match m, s.reload with
  | .clearVerdicts, .swapped => true
  | _, _ => false

/-- The worker whose call of `check_domain` starts with the move. -/
def Threads.starts (s : Threads) : Move → Option Nat
  | .lookupCache w _ _ => if s.worker w = .idle then some w else none
  | _ => none

/-- The phase after a move. -/
def Reloading.nextPhase (score : Scorer) (s : Reloading) (m : Move) : ReloadPhase :=
  match s.threads.swapsIn m, s.threads.liveInsert score m with
  | some t, _ => .swapped t
  | none, some _ => .none
  | none, none => if s.threads.clears m then s.phase.afterClear else s.phase

/-- The workers whose call is late, after a move. -/
def Reloading.nextLate (s : Reloading) (m : Move) : Nat → Bool :=
  match s.threads.swapsIn m, s.threads.starts m with
  | some _, _ => fun _ => false
  | none, some w => Function.update s.late w s.phase.isCleared
  | none, none => s.late

/-- One move. -/
def Reloading.step (score : Scorer) (s : Reloading) (m : Move) : Reloading :=
  { threads := s.threads.step score m
    phase := s.nextPhase score m
    late := s.nextLate m }

/-- No reload has begun. -/
def Reloading.start (threads : Threads) : Reloading := ⟨threads, .none, fun _ => false⟩

/-- What a call of `check_domain` returns in a move: the worker, the domain and the
result. -/
def Threads.returns (s : Threads) : Move → Option (Nat × CStr × CheckResult)
  | .lookupCache w domain nowNs =>
    match s.worker w with
    | .idle => (checkCached s.queryCache nowNs domain).1.map (w, domain, ·)
    | _ => none
  | .storeVerdict w _ =>
    match s.worker w with
    | .looked domain r => some (w, domain, .ofTree domain r)
    | _ => none
  | _ => none

/-- **A call that started after the clear returns what the new tree says.** A call
that returns in its first move starts in it. -/
def ReturnsFresh (s : Reloading) (m : Move) : Prop :=
  ∀ w domain result t, s.threads.returns m = some (w, domain, result) → s.phase = .cleared t →
    (∀ nowNs, m = .storeVerdict w nowNs → s.late w = true) →
    ∀ now, result.outcome = (radixLookup t now domain).1.outcome

/-- The condition: what is stored after the clear is what the new tree says. -/
def StoresFresh (s : Reloading) (m : Move) : Prop :=
  ∀ w nowNs domain r t, m = .storeVerdict w nowNs → s.threads.worker w = .looked domain r →
    s.phase = .cleared t → s.threads.queryCache.isSome = true →
    domain.length ≤ dnsCacheMaxDomainLen → r.outcome ≠ none → r.outcome ≠ some .review →
    r.outcome = (radixLookup t 0 domain).1.outcome

/-! ## The invariant -/

/-- After the clear, the tree, the cache and the results in hand say what the new tree
says. -/
structure Reloading.Fresh (s : Reloading) : Prop where
  swapped : ∀ t, s.phase = .swapped t →
    s.threads.tree.map.core = t.map.core ∧ ∀ w, s.late w = false
  tree : ∀ t, s.phase = .cleared t → s.threads.tree.map.core = t.map.core
  cache : ∀ t, s.phase = .cleared t → ∀ d action, CacheSays s.threads.queryCache d action →
    ∃ st, (radixLookup t 0 d).1.outcome = some st ∧ st ≠ .review ∧ action = st.cacheAction
  inHand : ∀ t, s.phase = .cleared t → ∀ w d r, s.late w = true →
    s.threads.worker w = .looked d r → r.outcome = (radixLookup t 0 d).1.outcome

theorem Reloading.Fresh.start (threads : Threads) : (Reloading.start threads).Fresh :=
  ⟨fun _ h => (nomatch h), fun _ h => (nomatch h), fun _ h => (nomatch h), fun _ h => (nomatch h)⟩

/-! ## One move -/

section

variable {score : Scorer} {s : Reloading} {m : Move}

/-- A clear leaves the cache nothing to say. -/
theorem Threads.step_clears {s : Threads} (h : s.clears m = true) {d : CStr} {action : DnsAction} :
    ¬ CacheSays (s.step score m).queryCache d action := by
  unfold Threads.clears at h
  split at h
  · next hreload =>
    rintro ⟨c, hc, hsays⟩
    simp only [Threads.step, Threads.clearVerdicts, hreload] at hc
    obtain ⟨c', -, rfl⟩ := Option.map_eq_some_iff.mp hc
    exact dnsCacheClear_verdicts hsays
  · cases h

theorem Threads.starts_some {s : Threads} {w : Nat} (h : s.starts m = some w) :
    s.worker w = .idle := by
  unfold Threads.starts at h
  split at h
  · split at h
    · next hidle =>
      cases h
      exact hidle
    · cases h
  · cases h

/-- Without a swap, a call is late because it was, or because it starts in the phase
`cleared`. -/
theorem Reloading.nextLate_true (hswap : s.threads.swapsIn m = none) {w : Nat}
    (h : s.nextLate m w = true) :
    s.late w = true ∨ (s.threads.worker w = .idle ∧ s.phase.isCleared = true) := by
  rw [Reloading.nextLate] at h
  rw [hswap] at h
  cases hstarts : s.threads.starts m with
  | none =>
    rw [hstarts] at h
    exact Or.inl h
  | some w' =>
    rw [hstarts] at h
    dsimp only at h
    rw [Function.update_apply] at h
    split at h
    · next hw =>
      subst hw
      exact Or.inr ⟨Threads.starts_some hstarts, h⟩
    · exact Or.inl h

/-- The phases after which the invariant says nothing. -/
theorem Reloading.Fresh.of_none (h : s.phase = .none) : s.Fresh := by
  refine ⟨fun t ht => ?_, fun t ht => ?_, fun t ht => ?_, fun t ht => ?_⟩
  all_goals
    rw [h] at ht
    cases ht

theorem Reloading.Fresh.of_swapped {t : RadixTree} (h : s.phase = .swapped t)
    (htree : s.threads.tree.map.core = t.map.core) (hlate : ∀ w, s.late w = false) : s.Fresh := by
  refine ⟨fun t' ht' => ?_, fun t' ht' => ?_, fun t' ht' => ?_, fun t' ht' => ?_⟩
  · rw [h] at ht'
    cases ht'
    exact ⟨htree, hlate⟩
  all_goals
    rw [h] at ht'
    cases ht'

theorem Reloading.Fresh.of_cleared {t : RadixTree} (h : s.phase = .cleared t)
    (htree : s.threads.tree.map.core = t.map.core)
    (hcache : ∀ d action, CacheSays s.threads.queryCache d action →
      ∃ st, (radixLookup t 0 d).1.outcome = some st ∧ st ≠ .review ∧ action = st.cacheAction)
    (hhand : ∀ w d r, s.late w = true → s.threads.worker w = .looked d r →
      r.outcome = (radixLookup t 0 d).1.outcome) : s.Fresh := by
  refine ⟨fun t' ht' => ?_, fun t' ht' => ?_, fun t' ht' => ?_, fun t' ht' => ?_⟩
  all_goals
    rw [h] at ht'
    cases ht'
  · exact htree
  · exact hcache
  · exact hhand

/-- A move in the phase `cleared` that touches no tree. -/
theorem Reloading.Fresh.step_cleared (h : s.Fresh) (hstores : StoresFresh s m) {t : RadixTree}
    (hphase : s.phase = .cleared t) (hphase' : (s.step score m).phase = .cleared t)
    (hswap : s.threads.swapsIn m = none)
    (hcore : (s.step score m).threads.tree.map.core = s.threads.tree.map.core) :
    (s.step score m).Fresh := by
  refine .of_cleared hphase' (hcore.trans (h.tree t hphase)) ?_ ?_
  · intro d action hsays
    rcases Threads.step_says hsays with
      hold | ⟨w, nowNs, r, hm, hw, hcache, hlen, st, hst, hreview, haction⟩
    · exact h.cache t hphase d action hold
    · -- just stored, so under the condition
      have hne : r.outcome ≠ none := by
        rw [hst]
        exact Option.some_ne_none st
      have hnr : r.outcome ≠ some .review := by
        rw [hst]
        exact fun heq => hreview (Option.some.inj heq)
      have hfresh := hstores w nowNs d r t hm hw hphase hcache hlen hne hnr
      exact ⟨st, hfresh.symm.trans hst, hreview, haction⟩
  · intro w d r hlate hw
    rcases Threads.step_looked hw with hold | ⟨now, -, -, hr⟩
    · rcases Reloading.nextLate_true hswap hlate with hlate | ⟨hidle, -⟩
      · exact h.inHand t hphase w d r hlate hold
      · rw [hidle] at hold
        cases hold
    · rw [hr]
      exact radixLookup_outcome_of_core (h.tree t hphase) now 0 d

/-- **One move keeps the invariant**, if it stores nothing stale. -/
theorem Reloading.Fresh.step (h : s.Fresh) (hstores : StoresFresh s m) :
    (s.step score m).Fresh := by
  -- a swap starts a new phase, a live insert ends it, and nothing else touches the tree
  cases hswap : s.threads.swapsIn m with
  | some t =>
    have hphase : (s.step score m).phase = .swapped t := by
      simp [Reloading.step, Reloading.nextPhase, hswap]
    have hlate : (s.step score m).late = fun _ => false := by
      simp [Reloading.step, Reloading.nextLate, hswap]
    exact .of_swapped hphase (congrArg (·.map.core) (Threads.step_swapsIn hswap)) (congrFun hlate)
  | none =>
    cases hlive : s.threads.liveInsert score m with
    | some inserted =>
      refine .of_none ?_
      simp [Reloading.step, Reloading.nextPhase, hswap, hlive]
    | none =>
      have hcore : (s.step score m).threads.tree.map.core = s.threads.tree.map.core :=
        Threads.step_tree_core hlive hswap
      have hnext : (s.step score m).phase =
          if s.threads.clears m then s.phase.afterClear else s.phase := by
        simp [Reloading.step, Reloading.nextPhase, hswap, hlive]
      cases hphase : s.phase with
      | none =>
        refine .of_none ?_
        rw [hnext, hphase]
        exact ite_self _
      | swapped t =>
        obtain ⟨htree, hlate⟩ := h.swapped t hphase
        -- until the clear no store can come late
        have hlate' : ∀ w, (s.step score m).late w = false := by
          intro w
          rw [← Bool.not_eq_true]
          intro htrue
          rcases Reloading.nextLate_true hswap htrue with hold | ⟨-, hcleared⟩
          · rw [hlate w] at hold
            cases hold
          · rw [hphase] at hcleared
            cases hcleared
        cases hclears : s.threads.clears m with
        | true =>
          rw [hphase, hclears] at hnext
          refine .of_cleared hnext (hcore.trans htree) ?_ ?_
          · intro d action hsays
            exact absurd hsays (Threads.step_clears hclears)
          · intro w d r htrue
            rw [hlate' w] at htrue
            cases htrue
        | false =>
          rw [hphase, hclears] at hnext
          exact .of_swapped hnext (hcore.trans htree) hlate'
      | cleared t =>
        refine h.step_cleared hstores hphase ?_ hswap hcore
        rw [hnext, hphase]
        exact ite_self _

/-- Under the invariant a late call returns what the new tree says. -/
theorem Reloading.Fresh.returns (h : s.Fresh) : ReturnsFresh s m := by
  intro w domain result t hreturns hphase hlate now
  rw [radixLookup_outcome_of_core rfl now 0 domain]
  unfold Threads.returns at hreturns
  split at hreturns
  · next w' domain' nowNs =>
    split at hreturns
    · -- a hit
      obtain ⟨r, hhit, heq⟩ := Option.map_eq_some_iff.mp hreturns
      cases heq
      obtain ⟨action, ttl, hsays, rfl⟩ := checkCached_some hhit
      obtain ⟨st, hst, hreview, haction⟩ := h.cache t hphase _ _ hsays
      rw [CheckResult.ofCache_outcome, hst, haction]
      cases st with
      | blocked => rfl
      | allowed => rfl
      | review => exact absurd rfl hreview
    · cases hreturns
  · next w' nowNs =>
    split at hreturns
    · next d r hw =>
      cases hreturns
      rw [CheckResult.ofTree_outcome]
      exact h.inHand t hphase _ _ _ (hlate nowNs rfl) hw
    · cases hreturns
  · cases hreturns

end

/-- **Verdicts after a reload.** In every interleaving in which no stale verdict is
stored after the clear, every `check_domain` that starts after it returns what the new
tree says. -/
theorem reload_verdicts_fresh (score : Scorer) (threads : Threads) {ms : List Move}
    (hstores : Lib.EveryStep (Reloading.step score) StoresFresh (.start threads) ms) :
    Lib.EveryStep (Reloading.step score) ReturnsFresh (.start threads) ms :=
  Lib.EveryStep.of_invariant (fun _ _ h hm => h.step hm) (fun _ _ h _ => h.returns)
    (Reloading.Fresh.start threads) hstores

/-- The other direction, for one store: **a stale verdict that is stored is returned** to
whoever asks for the domain before it has expired. -/
theorem stale_store_returned (score : Scorer) {s : Reloading} {w w' : Nat} (nowNs : UInt64)
    {d : CStr} {r : LookupResult} {st : Status} {t : RadixTree}
    (hw : s.threads.worker w = .looked d r) (hphase : s.phase = .cleared t)
    (hcache : s.threads.queryCache.isSome = true) (hlen : d.length ≤ dnsCacheMaxDomainLen)
    (hr : r.outcome = some st) (hst : st ≠ .review)
    (hstale : r.outcome ≠ (radixLookup t 0 d).1.outcome) (hidle : s.threads.worker w' = .idle) :
    ∃ ttl, ∀ nowNs', expiredAt nowNs ttl nowNs' = false →
      ¬ ReturnsFresh (s.step score (.storeVerdict w nowNs)) (.lookupCache w' d nowNs') := by
  obtain ⟨c, hc⟩ := Option.isSome_iff_exists.mp hcache
  obtain ⟨ttl, hserved⟩ := cacheVerdict_served c nowNs hr hst hlen
  refine ⟨ttl, fun nowNs' hexp hfresh => ?_⟩
  have hne : w' ≠ w := by
    rintro rfl
    rw [hidle] at hw
    cases hw
  -- the worker that asks next hits the record that has just been stored
  have hreturns : (s.step score (.storeVerdict w nowNs)).threads.returns
      (.lookupCache w' d nowNs') = some (w', d, .ofCache d st.cacheAction ttl) := by
    have hidle' : (s.step score (.storeVerdict w nowNs)).threads.worker w' = .idle := by
      simp [Reloading.step, Threads.step, Threads.storeVerdict, hw, Threads.at, hne, hidle]
    have hstored : (s.step score (.storeVerdict w nowNs)).threads.queryCache =
        cacheVerdict (some c) nowNs d r := by
      simp [Reloading.step, Threads.step, Threads.storeVerdict, hw, Threads.at, hc]
    unfold Threads.returns
    dsimp only
    rw [hidle', hstored]
    dsimp only
    rw [hserved nowNs' hexp]
    rfl
  have hcleared : (s.step score (.storeVerdict w nowNs)).phase = .cleared t := hphase
  have hreturned := hfresh _ _ _ t hreturns hcleared (fun _ heq => by cases heq) 0
  refine hstale ?_
  rw [← hreturned, CheckResult.ofCache_outcome, hr]
  cases st with
  | blocked => rfl
  | allowed => rfl
  | review => exact absurd rfl hst

/-- `a.b` -/
def staleDomain : CStr := [97, 46, 98]

/-- `learned.tsv` had the domain when the proxy started, and is gone now. -/
def Threads.unlearned : Threads :=
  .start (initialTree 0 none (some (learnedLine .blocked .piGravity 0 0 1 0 staleDomain)))
    (dnsCacheInit proxyCacheCapacity) (answerCacheInit proxyCacheCapacity) none

/-- A reload, up to the clear of the verdict cache. -/
def reloadMoves : List Move :=
  [.startReload [], .readBlocklist none 0, .readLearned 0, .swap, .clearVerdicts]

/-- A reload, and a check that starts after the clear. -/
def checkAfterReload : List Move :=
  reloadMoves ++ [.lookupCache 1 staleDomain 1, .lookupTree 1 1]

/-- It finds no entry, so there is nothing to store. -/
theorem checkAfterReload_looked :
    (match (Lib.run (Reloading.step fun _ => (0, [])) (.start .unlearned)
        checkAfterReload).threads.worker 1 with
      | .looked _ r => r.outcome
      | _ => none) = none := by
  decide +kernel

theorem reload_verdicts_fresh_checked :
    Lib.EveryStep (Reloading.step fun _ => (0, [])) ReturnsFresh (.start .unlearned)
      (checkAfterReload ++ [.storeVerdict 1 1]) := by
  refine reload_verdicts_fresh _ _ (Lib.everyStep_append.mpr ⟨?_, ?_, trivial⟩)
  · refine Lib.everyStep_of_mem (fun s m hm => ?_) _
    -- none of these moves is a store
    rintro w nowNs domain r t rfl
    simp [checkAfterReload, reloadMoves] at hm
  · rintro w nowNs domain r t hm hw - - - hne -
    cases hm
    have hnone := checkAfterReload_looked
    rw [hw] at hnone
    exact absurd hnone hne

/-- A check has looked its domain up when a reload begins. -/
def reloadDuringCheck : List Move :=
  [.lookupCache 0 staleDomain 0, .lookupTree 0 0] ++ reloadMoves

/-- What it holds, and what the new tree says. -/
theorem reloadDuringCheck_reached :
    let s := Lib.run (Reloading.step fun _ => (0, [])) (.start .unlearned) reloadDuringCheck
    s.threads.worker 0 =
        .looked staleDomain (radixLookup Threads.unlearned.tree 0 staleDomain).1 ∧
      (radixLookup Threads.unlearned.tree 0 staleDomain).1.outcome = some .blocked ∧
      s.threads.queryCache.isSome = true ∧ s.threads.worker 1 = .idle ∧
      (match s.phase with
        | .cleared t => (radixLookup t 0 staleDomain).1.outcome
        | _ => some .review) = none := by
  decide +kernel

/-- It stores its verdict, and the next check returns it. -/
theorem stale_verdict_returned :
    ¬ Lib.EveryStep (Reloading.step fun _ => (0, [])) ReturnsFresh (.start .unlearned)
      (reloadDuringCheck ++ [.storeVerdict 0 0, .lookupCache 1 staleDomain 0]) := by
  intro h
  obtain ⟨-, -, hlast, -⟩ := Lib.everyStep_append.mp h
  obtain ⟨hw, hblocked, hcache, hidle, hnew⟩ := reloadDuringCheck_reached
  generalize Lib.run (Reloading.step fun _ => (0, [])) (.start .unlearned) reloadDuringCheck = s
    at hlast hw hcache hidle hnew
  cases hphase : s.phase with
  | cleared t =>
    rw [hphase] at hnew
    -- BLOCKED was looked up, and the new tree says otherwise
    have hdiffer : (radixLookup Threads.unlearned.tree 0 staleDomain).1.outcome ≠
        (radixLookup t 0 staleDomain).1.outcome := by
      rw [hblocked]
      exact fun heq => absurd (heq.trans hnew) (by decide)
    obtain ⟨ttl, hstale⟩ := stale_store_returned (fun _ => (0, [])) 0 hw hphase hcache (by decide)
      hblocked (by decide) hdiffer hidle
    exact hstale 0 (by simp [expiredAt]) hlast
  | none =>
    rw [hphase] at hnew
    cases hnew
  | swapped t =>
    rw [hphase] at hnew
    cases hnew

end Nyet
