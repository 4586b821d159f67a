import Nyet.Proxy.RateLimit

/-!
# When the per-source bound holds

With a bucket of its own for every source the bound is that of a token bucket.
The shared table gives the same answers as long as every reset comes at a time
when the source's own bucket would have been full anyway: then a reset forgives
nothing. A reset that comes earlier hands the source tokens it had spent.
-/

namespace Nyet

/-! ## One bucket per source -/

/-- The own bucket of a source. One that was never used counts as full. -/
def ownBucket (o : RateLimiter UInt32) (ip : UInt32) : Lib.Bucket :=
  if (o.table ip).ip = ip then ⟨(o.table ip).tokens, (o.table ip).lastRefill.toNat⟩
  else ⟨rlMaxTokens, 0⟩

/-- No entry is over-full or ahead of the clock. -/
def EntriesBounded (o : RateLimiter UInt32) (clock : UInt32) : Prop :=
  ∀ ip, (o.table ip).tokens ≤ rlMaxTokens ∧ (o.table ip).lastRefill ≤ clock

theorem entriesBounded_init (now clock : UInt32) :
    EntriesBounded (rateLimiterInit UInt32 now) clock :=
  fun _ => ⟨show (0 : Int) ≤ rlMaxTokens by decide, UInt32.zero_le⟩

/-- The entry a call finds is the caller's, as of now. -/
theorem entryFor_eq (e : RateLimitEntry) (srcIp now : UInt32) :
    entryFor e srcIp now = ⟨srcIp, (entryFor e srcIp now).tokens, now⟩ := by
  rw [entryFor]
  split
  · rfl
  · next h => rw [not_not.mp h]

theorem entryFor_tokens_le {e : RateLimitEntry} (h : e.tokens ≤ rlMaxTokens)
    (srcIp now : UInt32) : (entryFor e srcIp now).tokens ≤ rlMaxTokens := by
  rw [entryFor]
  split
  · exact Int.le_refl _
  · exact refilled_le_max h

/-- **`rate_limit_allow`, by cases**: the global bucket refuses and no entry is
touched, or the caller's entry is brought up to date and decides. -/
theorem allowAt_cases {ι : Type} [DecidableEq ι] (index : UInt32 → ι) (s : RateLimiter ι)
    (srcIp now : UInt32) :
    (s.globalLevel now ≤ 0 ∧ (allowAt index s srcIp now).1 = false ∧
      (allowAt index s srcIp now).2 = ⟨s.table, s.globalLevel now, now⟩) ∨
    (0 < s.globalLevel now ∧ ∃ ok, (allowAt index s srcIp now).1 = ok ∧
      (ok = true ↔ 0 < (entryFor (s.table (index srcIp)) srcIp now).tokens) ∧
      (allowAt index s srcIp now).2 =
        ⟨Function.update s.table (index srcIp)
            ⟨srcIp, if ok then (entryFor (s.table (index srcIp)) srcIp now).tokens - 1
              else (entryFor (s.table (index srcIp)) srcIp now).tokens, now⟩,
          if ok then s.globalLevel now - 1 else s.globalLevel now, now⟩) := by
  by_cases hglobal : s.globalLevel now ≤ 0
  · refine Or.inl ⟨hglobal, ?_, ?_⟩ <;> simp [allowAt, hglobal]
  · refine Or.inr ⟨by omega, ?_⟩
    by_cases htokens : 0 < (entryFor (s.table (index srcIp)) srcIp now).tokens
    · have hip := congrArg RateLimitEntry.ip (entryFor_eq (s.table (index srcIp)) srcIp now)
      have hlast := congrArg RateLimitEntry.lastRefill
        (entryFor_eq (s.table (index srcIp)) srcIp now)
      exact ⟨true, by simp [allowAt, hglobal, htokens], by simp [htokens],
        by simp [allowAt, hglobal, htokens, hip, hlast]⟩
    · have heq := entryFor_eq (s.table (index srcIp)) srcIp now
      refine ⟨false, by simp [allowAt, hglobal, htokens], by simp [htokens], ?_⟩
      simp only [allowAt, if_neg hglobal, if_neg htokens, Bool.false_eq_true, if_false, ← heq]

theorem EntriesBounded.step {o : RateLimiter UInt32} {clock : UInt32}
    (h : EntriesBounded o clock) {c : RateCall} (hclock : clock ≤ c.now) :
    EntriesBounded (allowAt id o c.srcIp c.now).2 c.now := by
  intro ip
  rcases allowAt_cases id o c.srcIp c.now with ⟨-, -, heq⟩ | ⟨-, ok, -, hok, heq⟩
  · rw [heq]
    exact ⟨(h ip).1, UInt32.le_trans (h ip).2 hclock⟩
  · rw [heq]
    by_cases hip : ip = c.srcIp
    · subst hip
      have hle := entryFor_tokens_le (h c.srcIp).1 c.srcIp c.now
      simp only [id_eq, Function.update_self]
      refine ⟨?_, UInt32.le_refl _⟩
      split <;> omega
    · simp only [id_eq, Function.update_of_ne hip]
      exact ⟨(h ip).1, UInt32.le_trans (h ip).2 hclock⟩

/-- **A call, seen from the bucket of one source.** -/
theorem ownBucket_step {o : RateLimiter UInt32} {clock : UInt32} (h : EntriesBounded o clock)
    {c : RateCall} (hclock : clock ≤ c.now) (ip : UInt32) :
    Lib.BucketStep rlMaxTokens rlRefillPerSec (ownBucket o ip) c.now.toNat
      ((allowAt id o c.srcIp c.now).1 && c.srcIp = ip)
      (ownBucket (allowAt id o c.srcIp c.now).2 ip) := by
  rcases allowAt_cases id o c.srcIp c.now with ⟨-, hrefused, heq⟩ | ⟨-, ok, hans, hok, heq⟩
  · rw [hrefused, heq, Bool.false_and]
    exact .idle _ _
  · rw [hans, heq]
    by_cases hip : c.srcIp = ip
    · subst hip
      have hbounded := h c.srcIp
      -- a bucket taken over from another address starts full, as an idle one has become
      have hgain : (entryFor (o.table c.srcIp) c.srcIp c.now).tokens ≤
          (ownBucket o c.srcIp).tokens +
            rlRefillPerSec * (c.now.toNat - (ownBucket o c.srcIp).last) := by
        rw [entryFor, ownBucket]
        by_cases hown : (o.table c.srcIp).ip = c.srcIp
        · rw [if_neg (not_not.mpr hown), if_pos hown]
          exact refilled_le_gain (by decide) (UInt32.le_trans hbounded.2 hclock)
        · rw [if_pos hown, if_neg hown]
          have hflow : 0 ≤ rlRefillPerSec * ((c.now.toNat : Int) - 0) :=
            mul_nonneg (by decide) (by omega)
          show rlMaxTokens ≤ rlMaxTokens + rlRefillPerSec * ((c.now.toNat : Int) - 0)
          omega
      have hstep := Lib.BucketStep.use (ownBucket o c.srcIp) c.now.toNat _ ok
        (entryFor_tokens_le hbounded.1 c.srcIp c.now) hgain hok.mp
      have hafter : ownBucket ⟨Function.update o.table (id c.srcIp)
          ⟨c.srcIp, if ok then (entryFor (o.table (id c.srcIp)) c.srcIp c.now).tokens - 1
            else (entryFor (o.table (id c.srcIp)) c.srcIp c.now).tokens, c.now⟩,
          if ok then o.globalLevel c.now - 1 else o.globalLevel c.now, c.now⟩ c.srcIp =
          ⟨if ok then (entryFor (o.table c.srcIp) c.srcIp c.now).tokens - 1
            else (entryFor (o.table c.srcIp) c.srcIp c.now).tokens, c.now.toNat⟩ := by
        simp [ownBucket]
      rw [hafter]
      simpa using hstep
    · have hafter : ownBucket ⟨Function.update o.table (id c.srcIp)
          ⟨c.srcIp, if ok then (entryFor (o.table (id c.srcIp)) c.srcIp c.now).tokens - 1
            else (entryFor (o.table (id c.srcIp)) c.srcIp c.now).tokens, c.now⟩,
          if ok then o.globalLevel c.now - 1 else o.globalLevel c.now, c.now⟩ ip =
          ownBucket o ip := by
        simp [ownBucket, Function.update_of_ne (Ne.symm hip)]
      rw [hafter, decide_eq_false hip, Bool.and_false]
      exact .idle _ _

/-- The answers to a source, as a run of its bucket. -/
def usesOf (ip : UInt32) (trace : List (RateCall × Bool)) : List (Int × Bool) :=
  trace.map fun x => (x.1.now.toNat, x.2 && x.1.srcIp = ip)

theorem ownTrace_run (ip : UInt32) {calls : List RateCall} {o : RateLimiter UInt32}
    {clock : UInt32} (h : EntriesBounded o clock) (hstart : ∀ c ∈ calls, clock ≤ c.now)
    (hsorted : calls.Pairwise fun a b => a.now ≤ b.now) :
    Lib.BucketRun rlMaxTokens rlRefillPerSec (ownBucket o ip) (usesOf ip (ownTrace o calls)) := by
  induction calls generalizing o clock with
  | nil => exact .nil _
  | cons c cs ih =>
    obtain ⟨hfirst, htail⟩ := List.pairwise_cons.mp hsorted
    have hclock := hstart c List.mem_cons_self
    exact .cons (ownBucket_step h hclock ip) (ih (h.step hclock) hfirst htail)

theorem ownTrace_calls (o : RateLimiter UInt32) (calls : List RateCall) :
    (ownTrace o calls).map Prod.fst = calls := by
  induction calls generalizing o with
  | nil => rfl
  | cons c cs ih => rw [ownTrace, List.map_cons, ih]

/-- With a bucket of its own for every source the bound holds. -/
theorem ownTrace_bound {calls : List RateCall} {o : RateLimiter UInt32} {clock : UInt32}
    (h : EntriesBounded o clock) (hstart : ∀ c ∈ calls, clock ≤ c.now)
    (hsorted : calls.Pairwise fun a b => a.now ≤ b.now) : SourceBound (ownTrace o calls) := by
  intro seg hseg first last hfirst hlast ip
  have hcalls : (ownTrace o calls).Pairwise fun a b => a.1.now ≤ b.1.now := by
    rwa [← ownTrace_calls o calls, List.pairwise_map] at hsorted
  have horder : (usesOf ip (ownTrace o calls)).Pairwise fun a b => a.1 ≤ b.1 :=
    List.pairwise_map.mpr (hcalls.imp fun h => Int.ofNat_le.mpr (UInt32.le_iff_toNat_le.mp h))
  have hbound := (ownTrace_run ip h hstart hsorted).segment_le (by decide) (by decide) horder
    (hseg.map fun x : RateCall × Bool => ((x.1.now.toNat : Int), x.2 && x.1.srcIp = ip))
    (by rw [List.head?_map, hfirst]; rfl) (by rw [List.getLast?_map, hlast]; rfl)
  refine le_trans (le_of_eq ?_) hbound
  rw [allowedFrom, Lib.spentIn, List.countP_map]
  rfl

/-! ## The shared table -/

/-- The limiter, and the one with a bucket for every source, on the same calls. -/
structure RateLimiters where
  shared : RateLimiter (Fin rlBuckets)
  own : RateLimiter UInt32

/-- One call to both. -/
def RateLimiters.step (s : RateLimiters) (c : RateCall) : RateLimiters :=
  ⟨(allowAt bucketOf s.shared c.srcIp c.now).2, (allowAt id s.own c.srcIp c.now).2⟩

/-- After `proxy_init`. -/
def RateLimiters.init (now : UInt32) : RateLimiters :=
  ⟨rateLimiterInit _ now, rateLimiterInit _ now⟩

/-- A call that passes the global check and finds its bucket held by another IP
comes from a source whose own bucket is full by now. -/
def ResetForgivesNothing (s : RateLimiters) (c : RateCall) : Prop :=
  0 < s.shared.globalLevel c.now → (s.shared.table (bucketOf c.srcIp)).ip ≠ c.srcIp →
    (s.own.table c.srcIp).ip = c.srcIp →
    refilled rlMaxTokens rlRefillPerSec (s.own.table c.srcIp).tokens
      (s.own.table c.srcIp).lastRefill c.now = rlMaxTokens

instance (s : RateLimiters) (c : RateCall) : Decidable (ResetForgivesNothing s c) :=
  inferInstanceAs (Decidable (_ → _ → _ → _))

/-- The two limiters agree on the global bucket and on every source that holds
its bucket of the shared table. -/
structure RateLimiters.Agree (s : RateLimiters) : Prop where
  tokens : s.shared.globalTokens = s.own.globalTokens
  lastRefill : s.shared.globalLastRefill = s.own.globalLastRefill
  held : ∀ ip, (s.shared.table (bucketOf ip)).ip = ip →
    s.shared.table (bucketOf ip) = s.own.table ip

theorem RateLimiters.Agree.init (now : UInt32) : (RateLimiters.init now).Agree :=
  ⟨rfl, rfl, fun _ _ => rfl⟩

theorem RateLimiters.Agree.globalLevel {s : RateLimiters} (h : s.Agree) (now : UInt32) :
    s.shared.globalLevel now = s.own.globalLevel now := by
  unfold RateLimiter.globalLevel
  rw [h.tokens, h.lastRefill]

/-- A reset that forgives nothing finds the same entry as the own bucket does. -/
theorem RateLimiters.Agree.entryFor {s : RateLimiters} (h : s.Agree) {c : RateCall}
    (hfull : ResetForgivesNothing s c) (hglobal : 0 < s.shared.globalLevel c.now) :
    Nyet.entryFor (s.shared.table (bucketOf c.srcIp)) c.srcIp c.now =
      Nyet.entryFor (s.own.table c.srcIp) c.srcIp c.now := by
  by_cases hheld : (s.shared.table (bucketOf c.srcIp)).ip = c.srcIp
  · rw [h.held c.srcIp hheld]
  · unfold Nyet.entryFor
    rw [if_pos hheld]
    by_cases hown : (s.own.table c.srcIp).ip = c.srcIp
    · rw [if_neg (not_not.mpr hown), hfull hglobal hheld hown, hown]
    · rw [if_pos hown]

/-- **One call keeps the agreement**, and gets the same answer from both. -/
theorem RateLimiters.Agree.step {s : RateLimiters} (h : s.Agree) {c : RateCall}
    (hfull : ResetForgivesNothing s c) :
    (allowAt bucketOf s.shared c.srcIp c.now).1 = (allowAt id s.own c.srcIp c.now).1 ∧
      (s.step c).Agree := by
  have hlevel := h.globalLevel c.now
  rcases allowAt_cases bucketOf s.shared c.srcIp c.now with
    ⟨hno, hans, heq⟩ | ⟨hyes, ok, hans, hok, heq⟩
  · rcases allowAt_cases id s.own c.srcIp c.now with ⟨-, hans', heq'⟩ | ⟨hyes', -⟩
    · refine ⟨hans.trans hans'.symm, ?_⟩
      rw [RateLimiters.step]
      rw [heq, heq']
      exact ⟨hlevel, rfl, h.held⟩
    · omega
  · rcases allowAt_cases id s.own c.srcIp c.now with ⟨hno', -⟩ | ⟨-, ok', hans', hok', heq'⟩
    · omega
    · have hentry := h.entryFor hfull hyes
      have hsame : ok = ok' := by
        rw [hentry] at hok
        exact Bool.eq_iff_iff.mpr (hok.trans hok'.symm)
      subst hsame
      refine ⟨hans.trans hans'.symm, ?_⟩
      rw [RateLimiters.step]
      rw [heq, heq']
      refine ⟨by simp only [hlevel], rfl, fun ip hip => ?_⟩
      by_cases hself : ip = c.srcIp
      · subst hself
        simp only [Function.update_self, id_eq, hentry]
      · -- another source: it holds its bucket only if that was not touched
        have hbucket : bucketOf ip ≠ bucketOf c.srcIp := by
          intro hsame
          simp only [hsame, Function.update_self] at hip
          exact hself hip.symm
        simp only [Function.update_of_ne hbucket, id_eq, Function.update_of_ne hself] at hip ⊢
        exact h.held ip hip

theorem rateTrace_eq_ownTrace {calls : List RateCall} {s : RateLimiters} (h : s.Agree)
    (hfull : Lib.EveryStep RateLimiters.step ResetForgivesNothing s calls)
    {trace : List (RateCall × Bool)} (htrace : rateTrace s.shared calls = some trace) :
    trace = ownTrace s.own calls := by
  induction calls generalizing s trace with
  | nil =>
    cases htrace
    rfl
  | cons c cs ih =>
    obtain ⟨hsame, hagree⟩ := h.step hfull.1
    rw [rateTrace, rateLimitAllow] at htrace
    split at htrace
    · cases htrace
    · next ok s' hallow =>
      split at hallow
      · have hpair := Option.some.inj hallow
        obtain ⟨rest, hrest, rfl⟩ := Option.map_eq_some_iff.mp htrace
        have hshared : (s.step c).shared = s' := congrArg Prod.snd hpair
        rw [← hshared] at hrest
        rw [ownTrace, ← hsame, hpair, ih hagree hfull.2 hrest]
        rfl
      · cases hallow

/-- **When the per-source bound holds.** For calls at a nondecreasing clock whose
refills do not overflow: whenever no reset forgives anything, every source stays
within the bound in every segment, and every call is answered as if each source
had a bucket of its own. -/
theorem rate_limit_bound (start : UInt32) (calls : List RateCall)
    (hstart : ∀ c ∈ calls, start ≤ c.now) (hsorted : calls.Pairwise fun a b => a.now ≤ b.now)
    {trace : List (RateCall × Bool)}
    (htrace : rateTrace (rateLimiterInit _ start) calls = some trace)
    (hfull : Lib.EveryStep RateLimiters.step ResetForgivesNothing (.init start) calls) :
    SourceBound trace ∧ trace = ownTrace (rateLimiterInit _ start) calls := by
  have htrace' := rateTrace_eq_ownTrace (RateLimiters.Agree.init start) hfull htrace
  refine ⟨?_, htrace'⟩
  rw [htrace']
  exact ownTrace_bound (entriesBounded_init start start) hstart hsorted

/-- Two colliding sources (192.168.1.10 and 192.168.1.11), the second visit of the
first one after two seconds. -/
theorem rate_limit_bound_colliding : ∃ trace,
    rateTrace (rateLimiterInit _ 1000) [⟨0x0a01a8c0, 1000⟩, ⟨0x0b01a8c0, 1000⟩,
      ⟨0x0a01a8c0, 1002⟩] = some trace ∧
    SourceBound trace ∧ trace = ownTrace (rateLimiterInit _ 1000)
      [⟨0x0a01a8c0, 1000⟩, ⟨0x0b01a8c0, 1000⟩, ⟨0x0a01a8c0, 1002⟩] :=
  ⟨_, rfl, rate_limit_bound 1000 _ (by decide) (by decide) rfl (by decide)⟩

/-- 192.168.1.10 spends its twenty tokens, one call of 192.168.1.11 resets their
bucket, and it is let through again in the same second. -/
theorem rate_limit_collision_resets : ∃ trace,
    rateTrace (rateLimiterInit _ 1000) (List.replicate 20 ⟨0x0a01a8c0, 1000⟩ ++
      [⟨0x0b01a8c0, 1000⟩, ⟨0x0a01a8c0, 1000⟩]) = some trace ∧ ¬ SourceBound trace := by
  refine ⟨_, rfl, fun hbound => ?_⟩
  have h := hbound _ (List.infix_refl _) _ _ rfl rfl 0x0a01a8c0
  exact absurd h (by decide)

end Nyet
