import Nyet.Proxy.RateBound

/-!
# The aggregate bound (`g_rl_global_tokens`)

Every call that gets past the global check refills the global bucket first, and
takes a token from it only if the caller's own bucket lets it through. So the
global bucket is a token bucket whatever the table of sources does, and the bound
on a segment of calls is that of `Lib.BucketRun`.

"Whatever the table does" is meant literally. A source that comes back after
years, or that has the address 0.0.0.0, makes the refill of its own bucket
overflow, and C promises nothing of the number that comes out. A call here brings
the number along, and the bound is over all of them. The global refill itself
cannot overflow at a clock that moves by at most 10^7 seconds at a time.
-/

namespace Nyet

/-- A call, with what the refill of the caller's bucket comes to if it overflows. -/
structure WildCall extends RateCall where
  wild : Int
  deriving DecidableEq, Repr

/-- The limiter as the call finds it once an overflowing refill of the caller's
bucket has come to `c.wild`. -/
def RateLimiter.settle (s : RateLimiter (Fin rlBuckets)) (c : WildCall) :
    RateLimiter (Fin rlBuckets) :=
  if RefillsFit bucketOf s c.srcIp c.now then s
  else { s with table := Function.update s.table (bucketOf c.srcIp) ⟨c.srcIp, c.wild, c.now⟩ }

/-- `rate_limit_allow`; `none` only where the global refill overflows. -/
def wildAllow (s : RateLimiter (Fin rlBuckets)) (c : WildCall) :
    Option (Bool × RateLimiter (Fin rlBuckets)) :=
  if RefillFits rlGlobalRefillPerSec s.globalTokens s.globalLastRefill c.now then
    some (allowAt bucketOf (s.settle c) c.srcIp c.now)
  else none

/-- One call of a run, with the limiter before and after it. -/
structure RateEvent where
  call : RateCall
  allowed : Bool
  before : RateLimiter (Fin rlBuckets)
  after : RateLimiter (Fin rlBuckets)

/-- The calls with their answers, if no global refill overflows on the way. -/
def wildTrace : RateLimiter (Fin rlBuckets) → List WildCall → Option (List RateEvent)
  | _, [] => some []
  | s, c :: cs =>
    match wildAllow s c with
    | none => none
    | some (ok, s') => (wildTrace s' cs).map (⟨c.toRateCall, ok, s, s'⟩ :: ·)

/-- **The aggregate bound**: in every contiguous segment, from its first call's
clock to its last one's. -/
def AggregateBound (trace : List RateEvent) : Prop :=
  ∀ seg, seg <:+: trace → ∀ first last, seg.head? = some first → seg.getLast? = some last →
    (seg.countP (·.allowed) : Int) ≤ rlGlobalMaxTokens +
      rlGlobalRefillPerSec * (last.call.now.toNat - first.call.now.toNat)

/-- The refused call left the global bucket as the refill had it. -/
def SpendsNothing (e : RateEvent) : Prop :=
  e.after.globalTokens = e.before.globalLevel e.call.now ∧
    e.before.globalTokens ≤ e.after.globalTokens

/-- From one reading of the clock to the next: not backwards, and not by more than
10^7 seconds. -/
def SteadyClock (last now : UInt32) : Prop := last ≤ now ∧ now.toNat ≤ last.toNat + 10 ^ 7

instance (last now : UInt32) : Decidable (SteadyClock last now) :=
  inferInstanceAs (Decidable (_ ∧ _))

/-! ## The calls without an overflow are among these -/

theorem wildAllow_of_rateLimitAllow {s : RateLimiter (Fin rlBuckets)} (c : WildCall)
    {r : Bool × RateLimiter (Fin rlBuckets)} (h : rateLimitAllow s c.srcIp c.now = some r) :
    wildAllow s c = some r := by
  rw [rateLimitAllow] at h
  split at h
  · next hfits => rw [wildAllow, if_pos hfits.1, RateLimiter.settle, if_pos hfits, h]
  · cases h

/-- Where no refill overflows the numbers brought along play no part. -/
theorem wildTrace_of_rateTrace {calls : List WildCall} {s : RateLimiter (Fin rlBuckets)}
    {trace : List (RateCall × Bool)}
    (h : rateTrace s (calls.map (·.toRateCall)) = some trace) :
    ∃ events, wildTrace s calls = some events ∧
      events.map (fun e => (e.call, e.allowed)) = trace := by
  induction calls generalizing s trace with
  | nil =>
    cases h
    exact ⟨[], rfl, rfl⟩
  | cons c cs ih =>
    rw [List.map_cons, rateTrace] at h
    split at h
    · cases h
    · next ok s' hallow =>
      obtain ⟨rest, hrest, rfl⟩ := Option.map_eq_some_iff.mp h
      obtain ⟨events, hevents, rfl⟩ := ih hrest
      refine ⟨⟨c.toRateCall, ok, s, s'⟩ :: events, ?_, rfl⟩
      rw [wildTrace, wildAllow_of_rateLimitAllow c hallow]
      show (wildTrace s' cs).map _ = _
      rw [hevents]
      rfl

/-! ## The global bucket -/

/-- The global bucket. -/
def RateLimiter.globalBucket {ι : Type} (s : RateLimiter ι) : Lib.Bucket :=
  ⟨s.globalTokens, s.globalLastRefill.toNat⟩

/-- The global bucket holds a number of tokens it can hold. -/
def RateLimiter.GlobalInRange {ι : Type} (s : RateLimiter ι) : Prop :=
  0 ≤ s.globalTokens ∧ s.globalTokens ≤ rlGlobalMaxTokens

theorem RateLimiter.settle_globalLevel (s : RateLimiter (Fin rlBuckets)) (c : WildCall) :
    (s.settle c).globalLevel c.now = s.globalLevel c.now := by
  rw [RateLimiter.settle]
  split <;> rfl

/-- The seconds between two readings of a steady clock, as the code gets them. -/
theorem toInt_sub_of_steady {last now : UInt32} (h : SteadyClock last now) :
    (now - last).toInt32.toInt = (now.toNat : Int) - last.toNat := by
  have hle : last.toNat ≤ now.toNat := UInt32.le_iff_toNat_le.mp h.1
  have hgap := h.2
  have hsub : (now - last).toBitVec.toNat = now.toNat - last.toNat :=
    UInt32.toNat_sub_of_le now last h.1
  show (now - last).toBitVec.toInt = _
  rw [BitVec.toInt_eq_toNat_cond, hsub, if_pos (by omega)]
  omega

/-- At a steady clock the global refill is between nothing and 2·10^9 tokens, which
an `int` has room for. -/
theorem refillFits_of_steady {ι : Type} {s : RateLimiter ι} (h : s.GlobalInRange) {now : UInt32}
    (hclock : SteadyClock s.globalLastRefill now) :
    RefillFits rlGlobalRefillPerSec s.globalTokens s.globalLastRefill now := by
  intro _
  have hle : s.globalLastRefill.toNat ≤ now.toNat := UInt32.le_iff_toNat_le.mp hclock.1
  have hgap := hclock.2
  obtain ⟨hlow, hhigh⟩ := h
  rw [refillOf, toInt_sub_of_steady hclock]
  simp only [FitsInt, rlGlobalRefillPerSec, rlGlobalMaxTokens] at *
  omega

/-- A refill at a steady clock takes nothing away. -/
theorem le_globalLevel_of_steady {ι : Type} {s : RateLimiter ι} (h : s.GlobalInRange)
    {now : UInt32} (hclock : SteadyClock s.globalLastRefill now) :
    s.globalTokens ≤ s.globalLevel now := by
  have hle : s.globalLastRefill.toNat ≤ now.toNat := UInt32.le_iff_toNat_le.mp hclock.1
  have hhigh := h.2
  rw [RateLimiter.globalLevel, refilled]
  split
  · exact Int.le_refl _
  · rw [refillOf, toInt_sub_of_steady hclock, rlGlobalRefillPerSec]
    split <;> omega

theorem globalLevel_le_max {ι : Type} {s : RateLimiter ι} (h : s.GlobalInRange) (now : UInt32) :
    s.globalLevel now ≤ rlGlobalMaxTokens :=
  refilled_le_max h.2

/-- What a call does to the global bucket, whoever asks and whatever the table
holds: it is brought up to date, and a call let through takes a token that is
there. -/
theorem wildAllow_global {s : RateLimiter (Fin rlBuckets)} {c : WildCall}
    {ok : Bool} {s' : RateLimiter (Fin rlBuckets)} (h : wildAllow s c = some (ok, s')) :
    s'.globalLastRefill = c.now ∧
      s'.globalTokens = (if ok then s.globalLevel c.now - 1 else s.globalLevel c.now) ∧
      (ok = true → 0 < s.globalLevel c.now) := by
  rw [wildAllow] at h
  split at h
  · have hpair := Option.some.inj h
    have hok : (allowAt bucketOf (s.settle c) c.srcIp c.now).1 = ok := congrArg Prod.fst hpair
    have hs' : (allowAt bucketOf (s.settle c) c.srcIp c.now).2 = s' := congrArg Prod.snd hpair
    have hlevel := s.settle_globalLevel c
    rcases allowAt_cases bucketOf (s.settle c) c.srcIp c.now with
      ⟨-, hans, heq⟩ | ⟨hpos, ok', hans, -, heq⟩
    · rw [← hok, ← hs', hans, heq]
      exact ⟨rfl, hlevel, fun hcontra => by cases hcontra⟩
    · rw [← hok, ← hs', hans, heq, ← hlevel]
      exact ⟨rfl, rfl, fun _ => hpos⟩
  · cases h

/-- **One call, seen from the global bucket.** -/
theorem globalBucket_step {s s' : RateLimiter (Fin rlBuckets)} (hrange : s.GlobalInRange)
    {c : WildCall} (hclock : SteadyClock s.globalLastRefill c.now) {ok : Bool}
    (h : wildAllow s c = some (ok, s')) :
    Lib.BucketStep rlGlobalMaxTokens rlGlobalRefillPerSec s.globalBucket c.now.toNat ok
        s'.globalBucket ∧ s'.GlobalInRange := by
  obtain ⟨hlast, htokens, hpos⟩ := wildAllow_global h
  have hmax := globalLevel_le_max hrange c.now
  have hmono := le_globalLevel_of_steady hrange hclock
  have hgain : s.globalLevel c.now ≤ s.globalBucket.tokens +
      rlGlobalRefillPerSec * ((c.now.toNat : Int) - s.globalBucket.last) :=
    refilled_le_gain (by decide) hclock.1
  -- what flows in is the rate times the time, up to the cap
  constructor
  · rw [show s'.globalBucket = ⟨if ok then s.globalLevel c.now - 1 else s.globalLevel c.now,
      c.now.toNat⟩ by rw [RateLimiter.globalBucket, htokens, hlast]]
    exact .use _ _ _ _ hmax hgain hpos
  · have hlow := hrange.1
    rw [RateLimiter.GlobalInRange, htokens]
    cases ok with
    | true =>
      have := hpos rfl
      simp only [if_true]
      omega
    | false =>
      simp only [Bool.false_eq_true, if_false]
      omega

/-! ## Runs -/

/-- The answers, as a run of the global bucket. -/
def globalUses (trace : List RateEvent) : List (Int × Bool) :=
  trace.map fun e => (e.call.now.toNat, e.allowed)

/-- **A run of calls**, whatever comes of the sources' own refills: it has an
answer to every call, is a run of the global bucket, and spends nothing on a
refused call. -/
theorem wildTrace_spec {calls : List WildCall} {s : RateLimiter (Fin rlBuckets)}
    (hrange : s.GlobalInRange)
    (hclock : (s.globalLastRefill :: calls.map (·.now)).IsChain SteadyClock) :
    ∃ trace, wildTrace s calls = some trace ∧
      trace.map (·.call) = calls.map (·.toRateCall) ∧
      Lib.BucketRun rlGlobalMaxTokens rlGlobalRefillPerSec s.globalBucket (globalUses trace) ∧
      ∀ e ∈ trace, e.allowed = false → SpendsNothing e := by
  induction calls generalizing s with
  | nil => exact ⟨[], rfl, rfl, .nil _, fun e he => by cases he⟩
  | cons c cs ih =>
    rw [List.map_cons, List.isChain_cons_cons] at hclock
    -- the clock is steady, so the refill's product does not overflow and the call has an answer
    have hallow : wildAllow s c = some (allowAt bucketOf (s.settle c) c.srcIp c.now) := by
      rw [wildAllow, if_pos (refillFits_of_steady hrange hclock.1)]
    generalize hres : allowAt bucketOf (s.settle c) c.srcIp c.now = res at hallow
    obtain ⟨ok, s'⟩ := res
    obtain ⟨hstep, hrange'⟩ := globalBucket_step hrange hclock.1 hallow
    obtain ⟨hlast, htokens, -⟩ := wildAllow_global hallow
    obtain ⟨trace, htrace, hcalls, hrun, hrefused⟩ := ih hrange' (by rw [hlast]; exact hclock.2)
    refine ⟨⟨c.toRateCall, ok, s, s'⟩ :: trace, ?_, ?_, .cons hstep hrun, ?_⟩
    · rw [wildTrace, hallow]
      show (wildTrace s' cs).map _ = _
      rw [htrace]
      rfl
    · rw [List.map_cons, List.map_cons, hcalls]
    · intro e he hno
      rcases List.mem_cons.mp he with rfl | he
      · have hno' : ok = false := hno
        subst hno'
        refine ⟨htokens, ?_⟩
        show s.globalTokens ≤ s'.globalTokens
        rw [htokens]
        exact le_globalLevel_of_steady hrange hclock.1
      · exact hrefused e he hno

/-- **The aggregate rate bound.** From the state `proxy_init` leaves, at a clock
that never goes back nor ahead by more than 10^7 seconds at a time: every segment
of calls, from whatever sources, lets through at most a full global bucket and
what flows in, and a refused call takes nothing. -/
theorem aggregate_rate_bound (start : UInt32) (calls : List WildCall)
    (hclock : (start :: calls.map (·.now)).IsChain SteadyClock) :
    ∃ trace, wildTrace (rateLimiterInit _ start) calls = some trace ∧
      trace.map (·.call) = calls.map (·.toRateCall) ∧ AggregateBound trace ∧
      ∀ e ∈ trace, e.allowed = false → SpendsNothing e := by
  have hrange : (rateLimiterInit (Fin rlBuckets) start).GlobalInRange :=
    ⟨show 0 ≤ rlGlobalMaxTokens by decide, Int.le_refl _⟩
  obtain ⟨trace, htrace, hcalls, hrun, hrefused⟩ := wildTrace_spec hrange hclock
  refine ⟨trace, htrace, hcalls, ?_, hrefused⟩
  intro seg hseg first last hfirst hlast
  have htrans : IsTrans UInt32 (· ≤ ·) := ⟨fun _ _ _ => UInt32.le_trans⟩
  have hsorted : (calls.map (·.now)).Pairwise (· ≤ ·) :=
    (List.isChain_iff_pairwise.mp (hclock.imp fun _ _ h => h.1)).tail
  have hnow : trace.map (·.call.now) = calls.map (·.now) := by
    have hnows := congrArg (List.map RateCall.now) hcalls
    rwa [List.map_map, List.map_map] at hnows
  -- the clock never goes back, so a segment of the run lies between its first and last time
  have horder : (globalUses trace).Pairwise fun a b => a.1 ≤ b.1 := by
    rw [← hnow, List.pairwise_map] at hsorted
    exact List.pairwise_map.mpr
      (hsorted.imp fun h => Int.ofNat_le.mpr (UInt32.le_iff_toNat_le.mp h))
  have hbound := hrun.segment_le (by decide) (by decide) horder
    (hseg.map fun e : RateEvent => ((e.call.now.toNat : Int), e.allowed))
    (by rw [List.head?_map, hfirst]; rfl) (by rw [List.getLast?_map, hlast]; rfl)
  refine le_trans (le_of_eq ?_) hbound
  rw [Lib.spentIn, List.countP_map]
  rfl

/-- 0.0.0.0 asks first, whose zero-initialised bucket overflows and comes to seven
tokens here, then 192.168.1.10 twice. -/
theorem aggregate_rate_bound_zero_source : ∃ trace,
    wildTrace (rateLimiterInit _ 1700000000) [⟨⟨0, 1700000000⟩, 7⟩,
      ⟨⟨0x0a01a8c0, 1700000001⟩, 0⟩, ⟨⟨0x0a01a8c0, 1700000001⟩, 0⟩] = some trace ∧
    trace.map (·.call) = [⟨0, 1700000000⟩, ⟨0x0a01a8c0, 1700000001⟩,
      ⟨0x0a01a8c0, 1700000001⟩] ∧
    AggregateBound trace ∧ ∀ e ∈ trace, e.allowed = false → SpendsNothing e :=
  aggregate_rate_bound 1700000000 _ (by decide)

end Nyet
