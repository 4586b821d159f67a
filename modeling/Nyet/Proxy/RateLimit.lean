import Nyet.Lib.Run
import Nyet.Lib.TokenBucket

/-!
# The per-source rate limiter (`rate_limit_allow`)

A global token bucket, checked first, and a table of 8192 per-source buckets
indexed by `src_ip % RL_BUCKETS`. A bucket remembers one IP; a call from another
one resets it to a full bucket.

The code is written over the index function, so that the limiter in which every
source has a bucket of its own is the same code with another index. The clock is
`(uint32_t)time(NULL)`, passed in. `int` arithmetic is exact here, and a call
whose refill would overflow an `int`, which C leaves undefined, has no result.
-/

namespace Nyet

/-- `RL_BUCKETS` -/
def rlBuckets : Nat := 8192

/-- `RL_MAX_TOKENS` -/
def rlMaxTokens : Int := 20

/-- `RL_REFILL_PER_SEC` -/
def rlRefillPerSec : Int := 10

/-- `RL_GLOBAL_MAX_TOKENS` -/
def rlGlobalMaxTokens : Int := 500

/-- `RL_GLOBAL_REFILL_PER_SEC` -/
def rlGlobalRefillPerSec : Int := 200

/-- `RateLimitEntry` -/
structure RateLimitEntry where
  ip : UInt32
  tokens : Int
  lastRefill : UInt32
  deriving DecidableEq, Repr

/-- `g_rl_table`, `g_rl_global_tokens` and `g_rl_global_last_refill`. -/
structure RateLimiter (ι : Type) where
  table : ι → RateLimitEntry
  globalTokens : Int
  globalLastRefill : UInt32

/-- `src_ip % RL_BUCKETS` -/
def bucketOf (srcIp : UInt32) : Fin rlBuckets :=
  ⟨srcIp.toNat % rlBuckets, Nat.mod_lt _ (by decide)⟩

/-- The limiter after `proxy_init`: static zeros, and the global bucket full as of
now. -/
def rateLimiterInit (ι : Type) (now : UInt32) : RateLimiter ι :=
  ⟨fun _ => ⟨0, 0, 0⟩, rlGlobalMaxTokens, now⟩

/-- `(int)(now - last) * per_sec` -/
def refillOf (perSec : Int) (last now : UInt32) : Int :=
  (now - last).toInt32.toInt * perSec

/-- The refill of either bucket: nothing unless the clock has moved, and clamped
from above. -/
def refilled (maxTokens perSec tokens : Int) (last now : UInt32) : Int :=
  if now = last then tokens
  else if tokens + refillOf perSec last now > maxTokens then maxTokens
  else tokens + refillOf perSec last now

/-- A value of type `int`. -/
def FitsInt (x : Int) : Prop := -2 ^ 31 ≤ x ∧ x < 2 ^ 31

instance (x : Int) : Decidable (FitsInt x) := inferInstanceAs (Decidable (_ ∧ _))

/-- A refill that does not overflow. -/
def RefillFits (perSec tokens : Int) (last now : UInt32) : Prop :=
  now ≠ last → FitsInt (refillOf perSec last now) ∧ FitsInt (tokens + refillOf perSec last now)

instance (perSec tokens : Int) (last now : UInt32) : Decidable (RefillFits perSec tokens last now) :=
  inferInstanceAs (Decidable (_ → _))

section

variable {ι : Type}

/-- The global bucket as the check sees it. -/
def RateLimiter.globalLevel (s : RateLimiter ι) (now : UInt32) : Int :=
  refilled rlGlobalMaxTokens rlGlobalRefillPerSec s.globalTokens s.globalLastRefill now

/-- The entry a call finds: reset if it is another IP's, else refilled. -/
def entryFor (e : RateLimitEntry) (srcIp now : UInt32) : RateLimitEntry :=
  if e.ip ≠ srcIp then ⟨srcIp, rlMaxTokens, now⟩
  else ⟨e.ip, refilled rlMaxTokens rlRefillPerSec e.tokens e.lastRefill now, now⟩

/-- `rate_limit_allow` over the index function. -/
def allowAt [DecidableEq ι] (index : UInt32 → ι) (s : RateLimiter ι) (srcIp now : UInt32) :
    Bool × RateLimiter ι :=
  let level := s.globalLevel now
  if level ≤ 0 then (false, { s with globalTokens := level, globalLastRefill := now })
  else
    let e := entryFor (s.table (index srcIp)) srcIp now
    if 0 < e.tokens then
      (true, ⟨Function.update s.table (index srcIp) { e with tokens := e.tokens - 1 },
        level - 1, now⟩)
    else (false, ⟨Function.update s.table (index srcIp) e, level, now⟩)

/-- No refill of this call overflows. -/
def RefillsFit (index : UInt32 → ι) (s : RateLimiter ι) (srcIp now : UInt32) : Prop :=
  RefillFits rlGlobalRefillPerSec s.globalTokens s.globalLastRefill now ∧
    (0 < s.globalLevel now → (s.table (index srcIp)).ip = srcIp →
      RefillFits rlRefillPerSec (s.table (index srcIp)).tokens
        (s.table (index srcIp)).lastRefill now)

instance (index : UInt32 → ι) (s : RateLimiter ι) (srcIp now : UInt32) :
    Decidable (RefillsFit index s srcIp now) :=
  inferInstanceAs (Decidable (_ ∧ (_ → _ → _)))

end

/-- `rate_limit_allow`; `none` where a refill overflows. -/
def rateLimitAllow (s : RateLimiter (Fin rlBuckets)) (srcIp now : UInt32) :
    Option (Bool × RateLimiter (Fin rlBuckets)) :=
  if RefillsFit bucketOf s srcIp now then some (allowAt bucketOf s srcIp now) else none

/-! ## Sequences of calls -/

/-- A call: who asks, and when. -/
structure RateCall where
  srcIp : UInt32
  now : UInt32
  deriving DecidableEq, Repr

/-- The calls with their answers, if no refill overflows on the way. -/
def rateTrace : RateLimiter (Fin rlBuckets) → List RateCall → Option (List (RateCall × Bool))
  | _, [] => some []
  | s, c :: cs =>
    match rateLimitAllow s c.srcIp c.now with
    | none => none
    | some (ok, s') => (rateTrace s' cs).map ((c, ok) :: ·)

/-- The same calls when every source has a bucket of its own. -/
def ownTrace : RateLimiter UInt32 → List RateCall → List (RateCall × Bool)
  | _, [] => []
  | o, c :: cs =>
    (c, (allowAt id o c.srcIp c.now).1) :: ownTrace (allowAt id o c.srcIp c.now).2 cs

/-- How often `srcIp` was let through. -/
def allowedFrom (srcIp : UInt32) (seg : List (RateCall × Bool)) : Nat :=
  seg.countP fun x => x.2 && x.1.srcIp = srcIp

/-- **The per-source bound**: in every contiguous segment, from its first call's
clock to its last one's. -/
def SourceBound (trace : List (RateCall × Bool)) : Prop :=
  ∀ seg, seg <:+: trace → ∀ first last, seg.head? = some first → seg.getLast? = some last →
    ∀ srcIp, (allowedFrom srcIp seg : Int) ≤
      rlMaxTokens + rlRefillPerSec * (last.1.now.toNat - first.1.now.toNat)

/-! ## Refills -/

theorem toInt_sub_le {last now : UInt32} (h : last ≤ now) :
    (now - last).toInt32.toInt ≤ (now.toNat : Int) - last.toNat := by
  have hsub : (now - last).toNat = now.toNat - last.toNat := UInt32.toNat_sub_of_le now last h
  have hle : last.toNat ≤ now.toNat := UInt32.le_iff_toNat_le.mp h
  have hint : (now - last).toInt32.toInt ≤ ((now - last).toNat : Int) := by
    show (now - last).toBitVec.toInt ≤ _
    rw [BitVec.toInt_eq_toNat_cond]
    split
    · exact Int.le_refl _
    · show ((now - last).toBitVec.toNat : Int) - _ ≤ ((now - last).toBitVec.toNat : Int)
      omega
  omega

theorem refilled_le_max {maxTokens perSec tokens : Int} {last now : UInt32}
    (h : tokens ≤ maxTokens) : refilled maxTokens perSec tokens last now ≤ maxTokens := by
  rw [refilled]
  split
  · exact h
  · split
    · exact Int.le_refl _
    · omega

/-- A refill gains no more than the rate allows. -/
theorem refilled_le_gain {maxTokens perSec tokens : Int} {last now : UInt32} (hrate : 0 ≤ perSec)
    (h : last ≤ now) :
    refilled maxTokens perSec tokens last now ≤
      tokens + perSec * ((now.toNat : Int) - last.toNat) := by
  have hgain : refillOf perSec last now ≤ perSec * ((now.toNat : Int) - last.toNat) := by
    rw [refillOf]
    rw [mul_comm]
    exact mul_le_mul_of_nonneg_left (toInt_sub_le h) hrate
  rw [refilled]
  split
  · next heq =>
    subst heq
    simp
  · split <;> omega

end Nyet
