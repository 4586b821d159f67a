import Nyet.Proxy.RateAggregate

/-!
# When the token buckets stay in range

The elapsed time is a `uint32_t` difference taken as an `int`: a clock that went
back gives a negative refill, and only the upper end is clamped. A bucket that has
held its tokens for `d` seconds comes out in range exactly when it has the tokens
to give back for a `d` below zero, and an `int` has room for what flows in for a
`d` above (`ClockInReach`). The entries of a zeroed table belong to 0.0.0.0 and
were last refilled in 1970, which is out of reach of every real clock.
-/

namespace Nyet

/-- `(int)(now - last)` -/
def elapsed (last now : UInt32) : Int := (now - last).toInt32.toInt

/-- The clock has gone back by no more seconds than the bucket has tokens for, and
ahead by no more than an `int` has room for. -/
def ClockInReach (perSec tokens : Int) (last now : UInt32) : Prop :=
  -(tokens / perSec) ≤ elapsed last now ∧ elapsed last now ≤ (2 ^ 31 - 1 - tokens) / perSec

instance (perSec tokens : Int) (last now : UInt32) : Decidable (ClockInReach perSec tokens last now) :=
  inferInstanceAs (Decidable (_ ∧ _))

/-- The global bucket has a token for the call, or gets one by the time passed. -/
def RateLimiter.GlobalOpen {ι : Type} (s : RateLimiter ι) (now : UInt32) : Prop :=
  0 < s.globalTokens + elapsed s.globalLastRefill now * rlGlobalRefillPerSec

instance {ι : Type} (s : RateLimiter ι) (now : UInt32) : Decidable (s.GlobalOpen now) :=
  inferInstanceAs (Decidable (_ < _))

/-- The call reads a clock in reach of the global bucket, and of the caller's own
if the call gets to it and it holds the caller's address. -/
def CallInReach (s : RateLimiter (Fin rlBuckets)) (c : RateCall) : Prop :=
  ClockInReach rlGlobalRefillPerSec s.globalTokens s.globalLastRefill c.now ∧
    (s.GlobalOpen c.now → (s.table (bucketOf c.srcIp)).ip = c.srcIp →
      ClockInReach rlRefillPerSec (s.table (bucketOf c.srcIp)).tokens
        (s.table (bucketOf c.srcIp)).lastRefill c.now)

instance (s : RateLimiter (Fin rlBuckets)) (c : RateCall) : Decidable (CallInReach s c) :=
  inferInstanceAs (Decidable (_ ∧ (_ → _ → _)))

/-- Every bucket holds a number of tokens it can hold. -/
structure RateLimiter.InRange {ι : Type} (s : RateLimiter ι) : Prop where
  global : s.GlobalInRange
  entries : ∀ i, 0 ≤ (s.table i).tokens ∧ (s.table i).tokens ≤ rlMaxTokens

/-- No refill of the calls overflows, and the buckets are in range after each. -/
def StaysInRange : RateLimiter (Fin rlBuckets) → List RateCall → Prop
  | _, [] => True
  | s, c :: cs => ∃ ok s', rateLimitAllow s c.srcIp c.now = some (ok, s') ∧ s'.InRange ∧
      StaysInRange s' cs

/-- A call, where its refills do not overflow. -/
def RateLimiter.next (s : RateLimiter (Fin rlBuckets)) (c : RateCall) :
    RateLimiter (Fin rlBuckets) :=
  (allowAt bucketOf s c.srcIp c.now).2

theorem RateLimiter.InRange.init (now : UInt32) :
    (rateLimiterInit (Fin rlBuckets) now).InRange :=
  ⟨⟨show 0 ≤ rlGlobalMaxTokens by decide, Int.le_refl _⟩,
    fun _ => ⟨Int.le_refl _, show 0 ≤ rlMaxTokens by decide⟩⟩

/-! ## One bucket -/

theorem elapsed_self (now : UInt32) : elapsed now now = 0 := by
  rw [elapsed, UInt32.sub_self]
  rfl

/-- The refill without the case of a clock that stood still. -/
theorem refilled_eq {maxTokens perSec tokens : Int} (last now : UInt32)
    (h : tokens ≤ maxTokens) :
    refilled maxTokens perSec tokens last now =
      min maxTokens (tokens + elapsed last now * perSec) := by
  rw [refilled]
  split
  · next heq =>
    rw [heq, elapsed_self]
    omega
  · rw [show refillOf perSec last now = elapsed last now * perSec from rfl]
    split <;> omega

theorem clockInReach_iff {perSec tokens : Int} (hrate : 0 < perSec) (last now : UInt32) :
    ClockInReach perSec tokens last now ↔
      -tokens ≤ elapsed last now * perSec ∧ elapsed last now * perSec ≤ 2 ^ 31 - 1 - tokens := by
  rw [ClockInReach, Int.le_ediv_iff_mul_le hrate, neg_le, Int.le_ediv_iff_mul_le hrate,
    Int.neg_mul, neg_le]

/-- **A bucket in range.** The refill neither overflows nor leaves the bucket below
zero exactly when the clock is in reach. -/
theorem refill_ok_iff {maxTokens perSec tokens : Int} {last now : UInt32}
    (hrate : 0 < perSec) (hlow : 0 ≤ tokens) (hhigh : tokens ≤ maxTokens)
    (hmax : maxTokens < 2 ^ 31) :
    RefillFits perSec tokens last now ∧ 0 ≤ refilled maxTokens perSec tokens last now ↔
      ClockInReach perSec tokens last now := by
  rw [refilled_eq last now hhigh, clockInReach_iff hrate]
  constructor
  · rintro ⟨hfits, hpos⟩
    by_cases heq : now = last
    · subst heq
      rw [elapsed_self]
      omega
    · have hsum : FitsInt (tokens + elapsed last now * perSec) := (hfits heq).2
      have hupper := hsum.2
      exact ⟨by omega, by omega⟩
  · rintro ⟨hback, hahead⟩
    refine ⟨fun _ => ?_, by omega⟩
    show FitsInt (elapsed last now * perSec) ∧ FitsInt (tokens + elapsed last now * perSec)
    simp only [FitsInt]
    omega

theorem globalOpen_iff {ι : Type} {s : RateLimiter ι} (h : s.GlobalInRange) (now : UInt32) :
    s.GlobalOpen now ↔ 0 < s.globalLevel now := by
  have hmax : 0 < rlGlobalMaxTokens := by decide
  rw [RateLimiter.GlobalOpen, RateLimiter.globalLevel, refilled_eq _ _ h.2]
  omega

/-- Taking a token that is there. -/
theorem spend_inRange {maxTokens level : Int} {ok : Bool} (hlow : 0 ≤ level)
    (hhigh : level ≤ maxTokens) (hok : ok = true → 0 < level) :
    0 ≤ (if ok then level - 1 else level) ∧ (if ok then level - 1 else level) ≤ maxTokens := by
  cases ok with
  | true =>
    have := hok rfl
    simp only [if_true]
    omega
  | false => exact ⟨hlow, hhigh⟩

/-- The bucket a token was taken from was not below zero. -/
theorem nonneg_of_spend {level : Int} {ok : Bool} (hok : ok = true → 0 < level)
    (h : 0 ≤ if ok then level - 1 else level) : 0 ≤ level := by
  cases ok with
  | true => exact Int.le_of_lt (hok rfl)
  | false => exact h

/-! ## One call -/

/-- A reset bucket is full, and an entry of the caller's is refilled. -/
theorem entryFor_tokens (e : RateLimitEntry) (srcIp now : UInt32) :
    (entryFor e srcIp now).tokens =
      if e.ip = srcIp then refilled rlMaxTokens rlRefillPerSec e.tokens e.lastRefill now
      else rlMaxTokens := by
  rw [entryFor, ite_not]
  split <;> rfl

/-- **One call.** From buckets in range, its refills do not overflow and leave the
buckets in range exactly when the clock it reads is in reach. -/
theorem allow_inRange_iff {s : RateLimiter (Fin rlBuckets)} (h : s.InRange) (c : RateCall) :
    RefillsFit bucketOf s c.srcIp c.now ∧ (s.next c).InRange ↔ CallInReach s c := by
  have hglobal : RefillFits rlGlobalRefillPerSec s.globalTokens s.globalLastRefill c.now ∧
      0 ≤ s.globalLevel c.now ↔
      ClockInReach rlGlobalRefillPerSec s.globalTokens s.globalLastRefill c.now :=
    refill_ok_iff (by decide) h.global.1 h.global.2 (by decide)
  have hentry : RefillFits rlRefillPerSec (s.table (bucketOf c.srcIp)).tokens
        (s.table (bucketOf c.srcIp)).lastRefill c.now ∧
      0 ≤ refilled rlMaxTokens rlRefillPerSec (s.table (bucketOf c.srcIp)).tokens
        (s.table (bucketOf c.srcIp)).lastRefill c.now ↔
      ClockInReach rlRefillPerSec (s.table (bucketOf c.srcIp)).tokens
        (s.table (bucketOf c.srcIp)).lastRefill c.now :=
    refill_ok_iff (by decide) (h.entries _).1 (h.entries _).2 (by decide)
  have hmax := globalLevel_le_max h.global c.now
  have hemax := entryFor_tokens_le (h.entries (bucketOf c.srcIp)).2 c.srcIp c.now
  rw [CallInReach, globalOpen_iff h.global]
  rcases allowAt_cases bucketOf s c.srcIp c.now with ⟨hno, -, heq⟩ | ⟨hpos, ok, -, hok, heq⟩
  · -- the global bucket refuses: nothing else is touched
    constructor
    · rintro ⟨hfits, hafter⟩
      have hlevel : 0 ≤ s.globalLevel c.now := by
        have := hafter.global.1
        rwa [RateLimiter.next, heq] at this
      exact ⟨hglobal.mp ⟨hfits.1, hlevel⟩, fun hyes => absurd hyes (by omega)⟩
    · rintro ⟨hreach, -⟩
      obtain ⟨hfits, hlevel⟩ := hglobal.mpr hreach
      refine ⟨⟨hfits, fun hyes => absurd hyes (by omega)⟩, ?_⟩
      rw [RateLimiter.next, heq]
      exact ⟨⟨hlevel, hmax⟩, h.entries⟩
  · have hspend : ok = true → 0 < s.globalLevel c.now := fun _ => hpos
    constructor
    · rintro ⟨hfits, hafter⟩
      refine ⟨hglobal.mp ⟨hfits.1, Int.le_of_lt hpos⟩,
        fun _ hheld => hentry.mp ⟨hfits.2 hpos hheld, ?_⟩⟩
      have hleft := (hafter.entries (bucketOf c.srcIp)).1
      rw [RateLimiter.next, heq] at hleft
      simp only [Function.update_self] at hleft
      have hnonneg := nonneg_of_spend hok.mp hleft
      rwa [entryFor_tokens, if_pos hheld] at hnonneg
    · rintro ⟨hreach, hown⟩
      obtain ⟨hfits, hlevel⟩ := hglobal.mpr hreach
      refine ⟨⟨hfits, fun _ hheld => (hentry.mpr (hown hpos hheld)).1⟩, ?_⟩
      have htokens : 0 ≤ (entryFor (s.table (bucketOf c.srcIp)) c.srcIp c.now).tokens := by
        rw [entryFor_tokens]
        split
        · next hheld => exact (hentry.mpr (hown hpos hheld)).2
        · decide
      rw [RateLimiter.next, heq]
      refine ⟨spend_inRange hlevel hmax hspend, fun i => ?_⟩
      by_cases hi : i = bucketOf c.srcIp
      · subst hi
        simp only [Function.update_self]
        exact spend_inRange htokens hemax hok.mp
      · simp only [Function.update_of_ne hi]
        exact h.entries i

/-! ## Runs -/

theorem staysInRange_iff {calls : List RateCall} {s : RateLimiter (Fin rlBuckets)}
    (h : s.InRange) :
    StaysInRange s calls ↔ Lib.EveryStep RateLimiter.next CallInReach s calls := by
  induction calls generalizing s with
  | nil => exact Iff.rfl
  | cons c cs ih =>
    rw [StaysInRange, Lib.EveryStep, ← allow_inRange_iff h c]
    constructor
    · rintro ⟨ok, s', hallow, hrange, hrest⟩
      rw [rateLimitAllow] at hallow
      split at hallow
      · next hfits =>
        have hnext : s.next c = s' := congrArg Prod.snd (Option.some.inj hallow)
        rw [hnext]
        exact ⟨⟨hfits, hrange⟩, (ih hrange).mp hrest⟩
      · cases hallow
    · rintro ⟨⟨hfits, hrange⟩, hrest⟩
      refine ⟨(allowAt bucketOf s c.srcIp c.now).1, s.next c, ?_, hrange, (ih hrange).mpr hrest⟩
      rw [rateLimitAllow, if_pos hfits]
      rfl

/-- **When the token buckets stay in range.** From the state `proxy_init` leaves, no
refill overflows and every bucket is in range after every call, exactly when every
call reads a clock in reach of the buckets it refills. -/
theorem rate_buckets_in_range_iff (start : UInt32) (calls : List RateCall) :
    StaysInRange (rateLimiterInit _ start) calls ↔
      Lib.EveryStep RateLimiter.next CallInReach (rateLimiterInit _ start) calls :=
  staysInRange_iff (RateLimiter.InRange.init start)

/-- The clock is set back by three seconds before the first query: the full global
bucket of 500 goes to −100. -/
theorem clock_set_back_leaves_range :
    ¬ StaysInRange (rateLimiterInit _ 1700000000) [⟨0x0a01a8c0, 1699999997⟩] := by
  rw [StaysInRange]
  rintro ⟨ok, s', hallow, hrange, -⟩
  have hs' : (rateLimitAllow (rateLimiterInit _ 1700000000) 0x0a01a8c0 1699999997).map
      (·.2.globalTokens) = some (-100) := by decide
  rw [hallow] at hs'
  have hlow := hrange.global.1
  rw [show s'.globalTokens = -100 from Option.some.inj hs'] at hlow
  exact absurd hlow (by decide)

end Nyet
