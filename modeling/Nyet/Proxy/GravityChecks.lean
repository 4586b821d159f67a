import Nyet.Proxy.GravityCalls

/-!
# Permits and claims under any interleaving

Three accounts of the same moves. Permits are conserved (`permits_conserved`), whichever
calls of `queue_gravity_check` are made. With the calls that `process_request` makes, a
domain that is PENDING has one owner, a call or a thread, unless a call was abandoned
(`pending_checked_iff`), and so no two checks of a domain are ever waiting for its answer
(`one_check_per_domain`).

A claim has an owner from `asked_cache_try_claim` to `asked_cache_mark_done`. What a move
does to the claim of one domain is a `ClaimEffect`; everything about claims is derived from
that.
-/

namespace Nyet

/-! ## Permits -/

/-- A worker that has a permit before and after, or neither, leaves their number alone. -/
theorem Checking.allPermits_same {s : Checking} {w : Nat} {old : CallStage}
    (hw : s.workers[w]? = some old) (new : CallStage) (hsame : old.holdsPermit = new.holdsPermit) :
    (s.at w new).allPermits = s.allPermits := by
  have hat := Checking.allPermits_at hw new
  rw [hsame] at hat
  exact Nat.add_right_cancel hat

/-- A permit that is in use can be released. -/
theorem Checking.allPermits_released {s : Checking}
    (h : s.allPermits = maxConcurrentGravityChecks)
    (hused : 0 < s.workers.countP CallStage.holdsPermit ∨
      0 < s.threads.countP StartedCheck.unfinished) :
    ({ s with permits := releaseSemaphore s.permits } : Checking).allPermits =
      maxConcurrentGravityChecks + 1 := by
  rw [Checking.allPermits] at h ⊢
  dsimp only
  rw [releaseSemaphore_of_lt (by omega)]
  omega

/-- **One move keeps the number of permits.** -/
theorem Checking.allPermits_step {s : Checking} (gate : Gate)
    (h : s.allPermits = maxConcurrentGravityChecks) (m : CheckMove) :
    (s.step gate m).allPermits = maxConcurrentGravityChecks := by
  have hmoved := s.moved gate m
  have hsum : s.permits + s.workers.countP CallStage.holdsPermit +
      s.threads.countP StartedCheck.unfinished = maxConcurrentGravityChecks := h
  generalize s.step gate m = s' at hmoved ⊢
  cases hmoved with
  | stays => exact h
  | @enters w a domain hw =>
    refine (Checking.allPermits_same (s := { s with asked := _ }) hw _ ?_).trans h
    split <;> rfl
  | @refused w domain hw => exact (Checking.allPermits_same hw (.refused domain) rfl).trans h
  | @permitted w domain hw hpermits =>
    have hat := Checking.allPermits_at (s := { s with permits := s.permits - 1 }) hw
      (.permitted domain)
    have htaken : ({ s with permits := s.permits - 1 } : Checking).allPermits + 1 =
        maxConcurrentGravityChecks := by
      rw [Checking.allPermits]
      dsimp only
      omega
    exact hat.trans htaken
  | givesBack hw =>
    exact (Checking.allPermits_same (s := { s with asked := _ }) hw .idle rfl).trans h
  | @allocates w domain hw => exact (Checking.allPermits_same hw (.allocated domain) rfl).trans h
  | @mallocFails w domain hw => exact (Checking.allPermits_same hw (.failed domain) rfl).trans h
  | @starts w domain hw =>
    have hat := Checking.allPermits_at
      (s := { s with threads := s.threads ++ [⟨domain, .asking⟩] }) hw .idle
    -- the permit goes from the call to the thread
    have hthread : ({ s with threads := s.threads ++ [⟨domain, .asking⟩] } : Checking).allPermits =
        maxConcurrentGravityChecks + 1 := by
      have hnew : ([⟨domain, .asking⟩] : List StartedCheck).countP StartedCheck.unfinished = 1 :=
        rfl
      rw [Checking.allPermits]
      dsimp only
      rw [List.countP_append, hnew]
      omega
    exact Nat.add_right_cancel (hat.trans hthread)
  | @threadFails w domain hw => exact (Checking.allPermits_same hw (.failed domain) rfl).trans h
  | releases hw =>
    have hat := Checking.allPermits_at (s := { s with permits := releaseSemaphore s.permits }) hw
      .idle
    have hheld := Lib.countP_pos_of_getElem? (p := CallStage.holdsPermit) hw rfl
    exact Nat.add_right_cancel (hat.trans (Checking.allPermits_released h (Or.inl hheld)))
  | @marks i domain result hi =>
    have hat := Checking.allPermits_threadAt
      (s := { s with asked := askedCacheMarkDone s.asked domain.1 (result ≠ .unreachable) }) hi
      ⟨domain, .marked⟩
    exact Nat.add_right_cancel (hat.trans (congrArg (· + 1) h))
  | @finishes i domain hi =>
    have hat := Checking.allPermits_threadAt
      (s := { s with permits := releaseSemaphore s.permits }) hi ⟨domain, .finished⟩
    have hheld := Lib.countP_pos_of_getElem? (p := StartedCheck.unfinished) hi rfl
    exact Nat.add_right_cancel (hat.trans (Checking.allPermits_released h (Or.inr hheld)))

theorem Checking.start_permits (workers : Nat) :
    (Checking.start workers).allPermits = maxConcurrentGravityChecks := by
  have hidle : (List.replicate workers CallStage.idle).countP CallStage.holdsPermit = 0 := by
    refine List.countP_eq_zero.mpr fun stage hstage => ?_
    rw [List.eq_of_mem_replicate hstage]
    exact Bool.false_ne_true
  show maxConcurrentGravityChecks + (List.replicate workers CallStage.idle).countP _ + 0 = _
  rw [hidle, Nat.add_zero]

/-- **Gravity permits are conserved.** Whichever calls of `queue_gravity_check` are made, in
every interleaving and whatever fails: free permits, permits of calls in progress and
unfinished threads make 8 in every state, so there are never more than 8 threads. -/
theorem permits_conserved (gate : Gate) (workers : Nat) (moves : List CheckMove) :
    Lib.EveryState (Checking.step gate)
      (fun s => s.permits + s.workers.countP CallStage.holdsPermit +
          s.threads.countP StartedCheck.unfinished = maxConcurrentGravityChecks ∧
        s.threads.countP StartedCheck.unfinished ≤ maxConcurrentGravityChecks)
      (.start workers) moves := by
  have hstep : ∀ (s : Checking) (m : CheckMove), s.allPermits = maxConcurrentGravityChecks →
      True → (s.step gate m).allPermits = maxConcurrentGravityChecks :=
    fun _ m h _ => Checking.allPermits_step gate h m
  refine Lib.EveryState.of_invariant hstep ?_ (Checking.start_permits workers)
    (Lib.everyStep_of_mem (fun _ _ _ => trivial) _)
  intro s h
  have hsum : s.permits + s.workers.countP CallStage.holdsPermit +
      s.threads.countP StartedCheck.unfinished = maxConcurrentGravityChecks := h
  exact ⟨hsum, by omega⟩

/-! ## Claims -/

/-- A domain has at most one owner, and one with an owner is PENDING. -/
structure Checking.Owned (s : Checking) : Prop where
  one : ∀ d, s.owners d ≤ 1
  pending : ∀ d, 0 < s.owners d → s.state d = some .pending

/-- What a step can do to the claim of one domain. -/
inductive Checking.ClaimEffect (s s' : Checking) (m : CheckMove) (d : CStr) : Prop where
  | kept (howners : s'.owners d = s.owners d) (hstate : s'.state d = s.state d)
    (hno : s.abandons m ≠ some d)
  | claimed (hfree : s.state d = none) (howners : s'.owners d = s.owners d + 1)
    (hstate : s'.state d = some .pending) (hno : s.abandons m ≠ some d)
  | settled (howners : s'.owners d + 1 = s.owners d) (hstate : s'.state d ≠ some .pending)
    (hno : s.abandons m ≠ some d)
  | abandoned (howners : s'.owners d + 1 = s.owners d) (hstate : s'.state d = s.state d)
    (habandons : s.abandons m = some d)

/-- A call that fails leaves its own claim behind, and the other ones alone. -/
theorem Checking.ClaimEffect.of_failed {s s' : Checking} {m : CheckMove} {domain d : CStr}
    (hdropped : s'.owners d + (decide (domain = d)).toNat = s.owners d)
    (hstate : s'.state d = s.state d) (habandons : s.abandons m = some domain) :
    Checking.ClaimEffect s s' m d := by
  by_cases hd : domain = d
  · subst hd
    rw [decide_eq_true rfl] at hdropped
    exact .abandoned hdropped hstate habandons
  · rw [decide_eq_false hd] at hdropped
    exact .kept hdropped hstate (by rw [habandons]; exact fun h => hd (Option.some.inj h))

/-- A call that wins the claim of its domain owns it, and leaves the other ones alone. -/
theorem Checking.ClaimEffect.of_claimed {s s' : Checking} {m : CheckMove} {domain d : CStr}
    (hfree : s.state domain = none)
    (howners : s'.owners d = s.owners d + (decide (domain = d)).toNat)
    (hstate : s'.state d = Function.update s.state domain (some .pending) d)
    (hno : s.abandons m = none) : Checking.ClaimEffect s s' m d := by
  have hnone : s.abandons m ≠ some d := by
    rw [hno]
    exact (Option.some_ne_none d).symm
  rw [Function.update_apply] at hstate
  by_cases hd : domain = d
  · subst hd
    rw [decide_eq_true rfl] at howners
    rw [if_pos rfl] at hstate
    exact .claimed hfree howners hstate hnone
  · rw [decide_eq_false hd] at howners
    rw [if_neg (Ne.symm hd)] at hstate
    exact .kept howners hstate hnone

/-- A claim that is given back or answered has no owner any more and is not pending; the other
ones are left alone. -/
theorem Checking.ClaimEffect.of_settled {s s' : Checking} {m : CheckMove} {domain d : CStr}
    {settled : Option AskedState}
    (howners : s'.owners d + (decide (domain = d)).toNat = s.owners d)
    (hstate : s'.state d = Function.update s.state domain settled d)
    (hsettled : settled ≠ some .pending) (hno : s.abandons m = none) :
    Checking.ClaimEffect s s' m d := by
  have hnone : s.abandons m ≠ some d := by
    rw [hno]
    exact (Option.some_ne_none d).symm
  rw [Function.update_apply] at hstate
  by_cases hd : domain = d
  · subst hd
    rw [decide_eq_true rfl] at howners
    rw [if_pos rfl] at hstate
    exact .settled howners (hstate ▸ hsettled) hnone
  · rw [decide_eq_false hd] at howners
    rw [if_neg (Ne.symm hd)] at hstate
    exact .kept howners hstate hnone

/-- A thread that starts has the claim of its domain. -/
theorem Checking.owners_started (s : Checking) (domain : CtxDomain) (d : CStr) :
    ({ s with threads := s.threads ++ [⟨domain, .asking⟩] } : Checking).owners d =
      s.owners d + (decide (domain.1 = d)).toNat := by
  unfold Checking.owners
  dsimp only
  rw [List.countP_append, List.countP_singleton, StartedCheck.checks_asking]
  by_cases hd : domain.1 = d
  · simp only [hd, decide_true, if_true, Bool.toNat_true]
    omega
  · simp only [hd, decide_false, Bool.false_eq_true, if_false, Bool.toNat_false]
    omega

/-- **What a step of the proxy does to the claim of one domain.** -/
theorem Checking.claimEffect (s : Checking) (m : CheckMove) (d : CStr) :
    Checking.ClaimEffect s (s.step askedCacheTryClaim m) m d := by
  have hmoved := s.moved askedCacheTryClaim m
  generalize s.step askedCacheTryClaim m = s' at hmoved ⊢
  cases hmoved with
  | stays m hno => exact .kept rfl rfl (by rw [hno]; exact (Option.some_ne_none d).symm)
  | @enters w a domain hw =>
    have hat := Checking.owners_at
      (s := { s with asked := (askedCacheTryClaim a s.asked domain.1).2 }) hw
      (if (askedCacheTryClaim a s.asked domain.1).1 then .called domain else .idle) d
    rcases askedCacheTryClaim_cases a s.asked domain.1 with hno | ⟨hfree, hwon, hstate⟩
    · rw [hno] at hat ⊢
      exact .kept hat rfl (by simp [Checking.abandons])
    · rw [hwon] at hat ⊢
      exact .of_claimed hfree hat (congrFun hstate d) rfl
  | @refused w domain hw hpermits =>
    have hat := Checking.owners_at hw (.refused domain) d
    exact .kept (Nat.add_right_cancel hat) rfl (by simp [Checking.abandons])
  | @permitted w domain hw hpermits =>
    have hat := Checking.owners_at (s := { s with permits := s.permits - 1 }) hw
      (.permitted domain) d
    exact .kept (Nat.add_right_cancel hat) rfl (by simp [Checking.abandons])
  | @givesBack w domain hw =>
    have hat := Checking.owners_at
      (s := { s with asked := askedCacheMarkDone s.asked domain.1 false }) hw .idle d
    exact .of_settled hat (congrFun (askedCacheMarkDone_state s.asked domain.1 false) d) nofun rfl
  | @allocates w domain hw =>
    have hat := Checking.owners_at hw (.allocated domain) d
    exact .kept (Nat.add_right_cancel hat) rfl (by simp [Checking.abandons, hw])
  | @mallocFails w domain hw =>
    have hdropped := Checking.owners_at hw (.failed domain) d
    exact .of_failed hdropped rfl (by simp [Checking.abandons, hw])
  | @starts w domain hw =>
    -- the claim goes from the call to the thread
    have hat : (({ s with threads := s.threads ++ [⟨domain, .asking⟩] } : Checking).at w
        .idle).owners d + (decide (domain.1 = d)).toNat = _ :=
      Checking.owners_at (s := { s with threads := s.threads ++ [⟨domain, .asking⟩] }) hw .idle d
    rw [Checking.owners_started] at hat
    exact .kept (Nat.add_right_cancel hat) rfl (by simp [Checking.abandons, hw])
  | @threadFails w domain hw =>
    have hdropped := Checking.owners_at hw (.failed domain) d
    exact .of_failed hdropped rfl (by simp [Checking.abandons, hw])
  | @releases w domain hw =>
    have hat := Checking.owners_at (s := { s with permits := releaseSemaphore s.permits }) hw
      .idle d
    exact .kept hat rfl (by simp [Checking.abandons])
  | @marks i domain result hi =>
    have hat := Checking.owners_threadAt
      (s := { s with asked := askedCacheMarkDone s.asked domain.1 (result ≠ .unreachable) }) hi
      ⟨domain, .marked⟩ d
    rw [StartedCheck.checks_asking, StartedCheck.checks_answered d ⟨domain, .marked⟩ nofun] at hat
    refine .of_settled hat (congrFun
      (askedCacheMarkDone_state s.asked domain.1 (result ≠ .unreachable)) d) (fun hpending => ?_) rfl
    split at hpending
    · obtain ⟨_, -, hdone⟩ := Option.map_eq_some_iff.mp hpending
      cases hdone
    · cases hpending
  | @finishes i domain hi =>
    have hat := Checking.owners_threadAt
      (s := { s with permits := releaseSemaphore s.permits }) hi ⟨domain, .finished⟩ d
    rw [StartedCheck.checks_answered d ⟨domain, .marked⟩ nofun,
      StartedCheck.checks_answered d ⟨domain, .finished⟩ nofun] at hat
    exact .kept hat rfl (by simp [Checking.abandons])

theorem Checking.Owned.step {s : Checking} (h : s.Owned) (m : CheckMove) :
    (s.step askedCacheTryClaim m).Owned := by
  constructor
  · intro d
    have hone := h.one d
    cases s.claimEffect m d with
    | kept howners => omega
    | claimed hfree howners =>
      -- a domain without a node had no owner
      have hnone : ¬ 0 < s.owners d := by
        intro hpos
        have hpending := h.pending d hpos
        rw [hfree] at hpending
        cases hpending
      omega
    | settled howners => omega
    | abandoned howners => omega
  · intro d hpos
    have hone := h.one d
    cases s.claimEffect m d with
    | kept howners hstate =>
      rw [hstate]
      exact h.pending d (howners ▸ hpos)
    | claimed _ _ hstate => exact hstate
    | settled howners => omega
    | abandoned howners => omega

theorem Checking.start_owned (workers : Nat) : (Checking.start workers).Owned := by
  have hnone : ∀ d, (Checking.start workers).owners d = 0 := by
    intro d
    have hidle : (List.replicate workers CallStage.idle).countP (CallStage.answersFor d) = 0 := by
      refine List.countP_eq_zero.mpr fun stage hstage => ?_
      rw [List.eq_of_mem_replicate hstage]
      exact Bool.false_ne_true
    exact hidle
  constructor
  · intro d
    rw [hnone d]
    exact Nat.zero_le 1
  · intro d hpos
    rw [hnone d] at hpos
    exact absurd hpos (Nat.lt_irrefl 0)

/-! ## Domains that stay PENDING -/

/-- No call of `queue_gravity_check` is in progress. -/
def Checking.Quiet (s : Checking) : Prop := ∀ stage ∈ s.workers, stage = .idle

instance (s : Checking) : Decidable s.Quiet := inferInstanceAs (Decidable (∀ _ ∈ _, _))

/-- **No permanently pending domain**: with no call in progress, each domain that is PENDING
has a thread that has not called `asked_cache_mark_done` for it yet. -/
def PendingChecked (s : Checking) : Prop :=
  s.Quiet → ∀ d, s.state d = some .pending → ∃ t ∈ s.threads, t.domain.1 = d ∧ t.progress = .asking

/-- The condition: after a `malloc` or `_beginthreadex` of `queue_gravity_check` has failed,
there is a call in progress in every state. -/
def FailuresUnsettled (workers : Nat) (moves : List CheckMove) : Prop :=
  Lib.EveryCut (Checking.step askedCacheTryClaim)
    (fun s m later => s.abandons m ≠ none →
      Lib.EveryState (Checking.step askedCacheTryClaim) (fun s => ¬ s.Quiet)
        (s.step askedCacheTryClaim m) later)
    (.start workers) moves

/-- PENDING, and nobody is to settle it. -/
def Checking.Leaked (s : Checking) (d : CStr) : Prop := s.state d = some .pending ∧ s.owners d = 0

/-- **A domain is leaked by a failed allocation and by nothing else**, and for good. -/
theorem Checking.Owned.leaked_step {s : Checking} (h : s.Owned) (m : CheckMove) (d : CStr) :
    (s.step askedCacheTryClaim m).Leaked d ↔ s.Leaked d ∨ s.abandons m = some d := by
  unfold Checking.Leaked
  -- by what the move does to the claim of this domain
  cases s.claimEffect m d with
  | kept howners hstate hno => rw [howners, hstate, or_iff_left hno]
  | claimed hfree howners hstate hno =>
    refine iff_of_false ?_ ?_
    · rintro ⟨-, hzero⟩
      omega
    · rintro (⟨hpending, -⟩ | habandons)
      · rw [hfree] at hpending
        cases hpending
      · exact hno habandons
  | settled howners hstate hno =>
    refine iff_of_false (fun hleaked => hstate hleaked.1) ?_
    rintro (⟨-, hzero⟩ | habandons)
    · omega
    · exact hno habandons
  | abandoned howners hstate habandons =>
    refine iff_of_true ⟨?_, ?_⟩ (Or.inr habandons)
    · rw [hstate]
      exact h.pending d (by omega)
    · have hone := h.one d
      omega

/-- With no call in progress, the owner of a PENDING domain is a thread. -/
theorem Checking.Quiet.owned_iff {s : Checking} (h : s.Quiet) (d : CStr) :
    0 < s.owners d ↔ ∃ t ∈ s.threads, t.domain.1 = d ∧ t.progress = .asking := by
  have hcalls : s.workers.countP (CallStage.answersFor d) = 0 := by
    refine List.countP_eq_zero.mpr fun stage hstage => ?_
    rw [h stage hstage]
    exact Bool.false_ne_true
  rw [Checking.owners]
  rw [hcalls, Nat.zero_add, List.countP_pos_iff]
  simp only [StartedCheck.checks, decide_eq_true_eq]

theorem pendingChecked_iff {s : Checking} :
    PendingChecked s ↔ (s.Quiet → ∀ d, ¬ s.Leaked d) := by
  refine imp_congr_right fun hquiet => forall_congr' fun d => ?_
  rw [← hquiet.owned_iff, Nat.pos_iff_ne_zero]
  rw [Checking.Leaked]
  rw [not_and]

/-- Once a domain is leaked, only calls in progress hide it. -/
theorem Checking.Owned.everyState_of_leaked {s : Checking} (h : s.Owned) {d : CStr}
    (hleaked : s.Leaked d) (moves : List CheckMove) :
    Lib.EveryState (Checking.step askedCacheTryClaim) PendingChecked s moves ↔
      Lib.EveryState (Checking.step askedCacheTryClaim) (fun s => ¬ s.Quiet) s moves := by
  have hstep : ∀ (s : Checking) (m : CheckMove), s.Owned ∧ s.Leaked d → True →
      (s.step askedCacheTryClaim m).Owned ∧ (s.step askedCacheTryClaim m).Leaked d :=
    fun s m h _ => ⟨h.1.step m, (h.1.leaked_step m d).mpr (Or.inl h.2)⟩
  refine Lib.everyState_congr hstep (fun s h => ?_) ⟨h, hleaked⟩
    (Lib.everyStep_of_mem (fun _ _ _ => trivial) _)
  rw [pendingChecked_iff]
  constructor
  · intro hno hquiet
    exact hno hquiet d h.2
  · intro hbusy hquiet
    exact absurd hquiet hbusy

/-- **When no domain stays PENDING.** For every number of workers and every interleaving:
exactly if no failed `malloc` or `_beginthreadex` is followed by a state without calls in
progress. -/
theorem pending_checked_iff (workers : Nat) (moves : List CheckMove) :
    Lib.EveryState (Checking.step askedCacheTryClaim) PendingChecked (.start workers) moves ↔
      FailuresUnsettled workers moves := by
  have hstart : ∀ d, ¬ (Checking.start workers).Leaked d := by
    rintro d ⟨hpending, -⟩
    cases hpending
  have howned := Checking.start_owned workers
  rw [FailuresUnsettled]
  generalize Checking.start workers = s at hstart howned ⊢
  induction moves generalizing s with
  | nil => exact iff_of_true (pendingChecked_iff.mpr fun _ => hstart) trivial
  | cons m moves ih =>
    have hnow : PendingChecked s := pendingChecked_iff.mpr fun _ => hstart
    have hleaked := howned.leaked_step m
    refine (and_iff_right hnow).trans ?_
    cases habandons : s.abandons m with
    | none =>
      have hnext : ∀ d, ¬ (s.step askedCacheTryClaim m).Leaked d := by
        intro d
        rw [hleaked, habandons]
        exact fun h => h.elim (hstart d) (fun h => nomatch h)
      refine (ih _ hnext (howned.step m)).trans ?_
      exact (and_iff_right fun h => absurd habandons h).symm
    | some d =>
      -- from here on the domain is leaked
      rw [(howned.step m).everyState_of_leaked ((hleaked d).mpr (Or.inr habandons))]
      constructor
      · intro hbusy
        have hlater := hbusy.everyCut.imp fun s m _ h (_ : s.abandons m ≠ none) => h
        exact ⟨fun _ => hbusy, hlater⟩
      · rintro ⟨hbusy, -⟩
        exact hbusy (by rw [habandons]; exact Option.some_ne_none d)

/-- `ads.com` -/
def adsDomain : CtxDomain := ⟨cstr "ads.com", by decide⟩

/-- A call that finds no memory for the arguments of its thread. -/
def outOfMemory (d : CtxDomain) : List CheckMove :=
  [.enter 0 [] d, .wait 0, .malloc 0 false, .release 0]

/-- The domain stays PENDING, and nobody checks it. -/
theorem outOfMemory_leaks :
    ¬ Lib.EveryState (Checking.step askedCacheTryClaim) PendingChecked (.start 1)
      (outOfMemory adsDomain) := by
  intro h
  obtain ⟨t, ht, -⟩ := h.last (by decide +kernel) (cstr "ads.com") (by decide +kernel)
  have hnone : (Lib.run (Checking.step askedCacheTryClaim) (.start 1)
      (outOfMemory adsDomain)).threads = [] := by decide +kernel
  rw [hnone] at ht
  cases ht

/-! ## One check for each domain -/

/-- The nodes of all buckets. -/
def AskedCache.nodes (cache : AskedCache) : List AskedCacheNode :=
  (List.finRange askedCacheBuckets).flatMap cache.bucket

/-- The domain of a check that a move ends with a definite answer. -/
def Checking.settles (s : Checking) : CheckMove → Option CStr
  | .markDone i result =>
    match s.threads[i]? with
    | some ⟨domain, .asking⟩ => if result = .unreachable then none else some domain.1
    | _ => none
  | _ => none

/-- The domain of a check that a move starts. -/
def Checking.starts (s : Checking) : CheckMove → Option CStr
  | .beginThread w ok =>
    match s.workers[w]? with
    | some (.allocated domain) => if ok then some domain.1 else none
    | _ => none
  | _ => none

/-- No two of the threads that count as running are for one domain. -/
def OneThread (running : StartedCheck → Bool) (s : Checking) : Prop :=
  ∀ (i j : Nat) (t u : StartedCheck), s.threads[i]? = some t →
    s.threads[j]? = some u → running t = true → running u = true → t.domain = u.domain → i = j

/-- **At most one gravity check for each domain**: one node, one running thread, and no check
after one that had a definite answer. -/
def OneCheckPerDomain (running : StartedCheck → Bool) (workers : Nat) (moves : List CheckMove) :
    Prop :=
  Lib.EveryState (Checking.step askedCacheTryClaim)
    (fun s => (s.asked.nodes.map AskedCacheNode.domain).Nodup ∧ OneThread running s)
    (.start workers) moves ∧
  Lib.EveryCut (Checking.step askedCacheTryClaim)
    (fun s m later => ∀ d, s.settles m = some d →
      Lib.EveryStep (Checking.step askedCacheTryClaim) (fun s m => s.starts m ≠ some d)
        (s.step askedCacheTryClaim m) later)
    (.start workers) moves

/-- The thread has not called `asked_cache_mark_done`. -/
def StartedCheck.unmarked (t : StartedCheck) : Bool := t.progress = .asking

theorem AskedCache.nodes_nodup (cache : AskedCache) :
    (cache.nodes.map AskedCacheNode.domain).Nodup :=
  Lib.Chains.nodup_keys cache (List.nodup_finRange _)

theorem Checking.Owned.oneThread {s : Checking} (h : s.Owned) : OneThread StartedCheck.unmarked s := by
  intro i j t u hi hj ht hu hdomain
  have hone := h.one t.domain.1
  rw [Checking.owners] at hone
  have hchecks : ∀ v : StartedCheck, v.unmarked = true → v.domain = t.domain →
      v.checks t.domain.1 = true := by
    intro v hv hd
    rw [StartedCheck.checks]
    exact decide_eq_true ⟨congrArg Subtype.val hd, of_decide_eq_true hv⟩
  exact Lib.index_unique (by omega) hi (hchecks t ht rfl) hj (hchecks u hu hdomain.symm)

/-- What a definite answer leaves behind: the domain is DONE. -/
theorem Checking.Owned.settles {s : Checking} (h : s.Owned) {m : CheckMove} {d : CStr}
    (hsettles : s.settles m = some d) :
    (s.step askedCacheTryClaim m).state d = some .done := by
  unfold Checking.settles at hsettles
  split at hsettles
  case h_2 => cases hsettles
  case h_1 i result =>
    split at hsettles
    case h_2 => cases hsettles
    case h_1 domain hi =>
      split at hsettles
      case isTrue => cases hsettles
      case isFalse hanswer =>
        cases hsettles
        have hstep : s.step askedCacheTryClaim (.markDone i result) = s.markDone i result := rfl
        have howned := Lib.countP_pos_of_getElem? (p := StartedCheck.checks domain.1) hi
          (by simp [StartedCheck.checks])
        -- the thread that answers still owns the claim, so it is there to be marked
        have hpending : AskedCache.state s.asked domain.1 = some .pending := by
          refine h.pending domain.1 ?_
          rw [Checking.owners]
          omega
        have hstate := congrFun (askedCacheMarkDone_state s.asked domain.1 true) domain.1
        rw [Function.update_self, if_pos rfl, hpending] at hstate
        rw [hstep]
        rw [Checking.markDone]
        rw [hi]
        dsimp only
        rw [decide_eq_true hanswer]
        exact hstate

/-- A domain that is DONE has no owner, and stays DONE. -/
theorem Checking.Owned.done_step {s : Checking} (h : s.Owned) {d : CStr}
    (hdone : s.state d = some .done) (m : CheckMove) :
    s.starts m ≠ some d ∧ (s.step askedCacheTryClaim m).state d = some .done := by
  -- an owner would make the domain PENDING
  have hnone : s.owners d = 0 := by
    by_contra hpos
    have hpending := h.pending d (Nat.pos_of_ne_zero hpos)
    rw [hdone] at hpending
    cases hpending
  constructor
  · intro hstarts
    unfold Checking.starts at hstarts
    split at hstarts
    case h_2 => cases hstarts
    case h_1 w ok =>
      split at hstarts
      case h_2 => cases hstarts
      case h_1 domain hw =>
        split at hstarts
        case isFalse => cases hstarts
        case isTrue =>
          cases hstarts
          have hcall := Lib.countP_pos_of_getElem? (p := CallStage.answersFor domain.1) hw
            (by simp [CallStage.answersFor])
          rw [Checking.owners] at hnone
          omega
  · -- the four ways a move can touch a claim, of which DONE admits one
    cases s.claimEffect m d with
    | kept _ hstate => exact hstate.trans hdone
    | claimed hfree =>
      rw [hdone] at hfree
      cases hfree
    | settled howners => omega
    | abandoned howners => omega

/-- **At most one gravity check for each domain**, for every number of workers and every
interleaving, where a thread counts as running until it has called
`asked_cache_mark_done`. -/
theorem one_check_per_domain (workers : Nat) (moves : List CheckMove) :
    OneCheckPerDomain StartedCheck.unmarked workers moves := by
  have hstep : ∀ (s : Checking) (m : CheckMove), s.Owned → True →
      (s.step askedCacheTryClaim m).Owned := fun s m h _ => h.step m
  constructor
  · exact Lib.EveryState.of_invariant hstep (fun s h => ⟨s.asked.nodes_nodup, h.oneThread⟩)
      (Checking.start_owned workers) (Lib.everyStep_of_mem (fun _ _ _ => trivial) _)
  · have howned := Checking.start_owned workers
    generalize Checking.start workers = s at howned ⊢
    induction moves generalizing s with
    | nil => trivial
    | cons m moves ih =>
      refine ⟨fun d hsettles => ?_, ih _ (howned.step m)⟩
      have hdone : ∀ (s : Checking) (m : CheckMove), s.Owned ∧ s.state d = some .done → True →
          (s.step askedCacheTryClaim m).Owned ∧
            (s.step askedCacheTryClaim m).state d = some .done :=
        fun s m h _ => ⟨h.1.step m, (h.1.done_step h.2 m).2⟩
      exact Lib.EveryStep.of_invariant hdone (fun s m h _ => (h.1.done_step h.2 m).1)
        ⟨howned.step m, howned.settles hsettles⟩ (Lib.everyStep_of_mem (fun _ _ _ => trivial) _)

/-- A worker that takes a check of a domain all the way to its thread. -/
def startCheck (d : CtxDomain) : List CheckMove :=
  [.enter 0 [] d, .wait 0, .malloc 0 true, .beginThread 0 true]

/-- The Pi does not answer, the claim is given up, and the next query starts a second thread
before the first one has released its permit. -/
def overlappingChecks (d : CtxDomain) : List CheckMove :=
  startCheck d ++ [.markDone 0 .unreachable] ++ startCheck d

/-- Two threads for one domain, and neither has returned. -/
theorem overlappingChecks_two_threads :
    ¬ OneCheckPerDomain StartedCheck.unfinished 1
      (overlappingChecks adsDomain) := by
  rintro ⟨hstates, -⟩
  have hthreads : (Lib.run (Checking.step askedCacheTryClaim) (.start 1)
      (overlappingChecks adsDomain)).threads =
        [⟨adsDomain, .marked⟩, ⟨adsDomain, .asking⟩] := by
    decide +kernel
  have hone := hstates.last.2 0 1 ⟨adsDomain, .marked⟩ ⟨adsDomain, .asking⟩
    (by rw [hthreads]; rfl) (by rw [hthreads]; rfl) rfl rfl rfl
  cases hone

end Nyet
